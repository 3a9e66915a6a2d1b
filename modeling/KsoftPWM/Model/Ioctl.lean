import KsoftPWM.Model.World

/-! # The requests and their handlers

`pwm_ioctl` and `xeno_pwm_ioctl` serve the same four requests.  Three of the four
branches are the same code in both drivers.  The `PWM_INIT` branches differ, in the
order of their statements and in what they do when the thread cannot be created, so
each is written out as its list of statements.  Every statement subscripts the
tables by the value `pwm_pin_count` has at that moment.
-/

namespace KsoftPWM

inductive Request where
  | pinSet (pin type : Int32)
  | gpioSet (pin status : Int32)
  | pwmInit (args : InitArgs)
  | pwmSet (pin duty : Int32)
  deriving Repr, DecidableEq

def Request.isInit : Request → Bool
  | .pwmInit _ => true
  | _ => false

/-- The statements of the two `PWM_INIT` branches. -/
inductive Stmt where
  /-- `pwm_tsk[pwm_pin_count] = kthread_create(pwm_task, (void *)pwm_pin_count, ...)` -/
  | kthreadCreate
  /-- `if (IS_ERR(pwm_tsk[pwm_pin_count])) { ...; break; }` -/
  | isErr
  | setPin
  | setMin
  | setMax
  | setDuty (value : Int32)
  | printk
  | rtdmPrintk
  /-- `wake_up_process(pwm_tsk[pwm_pin_count])` -/
  | wakeUp
  /-- `err = rtdm_task_init(&task_array[pwm_pin_count], ...); if (err) { ...; break; }` -/
  | rtdmTaskInit
  /-- `pwm_pin_count++` -/
  | incr
  deriving Repr, DecidableEq

/-- The `PWM_INIT` branch of each driver, in source order. -/
def Driver.initCode : Driver → List Stmt
  | .softPWM => [.kthreadCreate, .isErr, .setPin, .setMin, .setMax, .setDuty 0, .printk,
      .wakeUp, .incr]
  | .xenoPWM => [.setPin, .setMin, .setMax, .setDuty 10, .rtdmPrintk, .rtdmTaskInit, .incr]

def Driver.creationDuty : Driver → Int32
  | .softPWM => 0
  | .xenoPWM => 10

namespace World

/-- A new thread for the slot at `pwm_pin_count`. -/
def spawn (w : World) (name : String) (creator : InitArgs) (pc : TaskPc) : World :=
  { w with tasks := w.tasks ++ [⟨w.pwmPinCount, name, creator, false, pc⟩] }

/-- `wake_up_process`; a thread that is already awake stays where it is. -/
def wake (w : World) (k : Nat) : World :=
  { w with
    tasks := w.tasks.modify k fun t => if t.pc = .asleep then { t with pc := .loopHead } else t }

theorem wake_grows (w : World) (k : Nat) : Grows w.tasks (w.wake k).tasks := by
  refine .modify w.tasks k (fun t => ?_) (fun t => ?_)
  · split <;> rfl
  · split
    · rename_i asleep
      exact .inr ⟨asleep, rfl⟩
    · exact .inl rfl

end World

/-- Run one statement.  The second component is the `err` with which the branch
    breaks out of the switch, if it does. -/
def Stmt.exec (args : InitArgs) (outcome : CreateOutcome) (w : World) :
    Stmt → Kernel (World × Option Int)
  | .kthreadCreate => do
      let name ← subscript .taskName taskName w.pwmPinCount
      match outcome with
      | .created =>
          let w' ← (w.spawn name args .asleep).setRef w.pwmPinCount (.thread w.tasks.length)
          pure (w', none)
      | .failed why =>
          let w' ← w.setRef w.pwmPinCount (.error why)
          pure (w', none)
  | .isErr => do
      match ← subscript .taskTable w.taskTable w.pwmPinCount with
      | .error why =>
          let w' ← w.setRef w.pwmPinCount .null
          pure (w', some why.value)
      | _ => pure (w, none)
  | .setPin => do
      let w' ← w.setSlot w.pwmPinCount fun slot => { slot with pin := args.pin }
      pure (w', none)
  | .setMin => do
      let w' ← w.setSlot w.pwmPinCount fun slot => { slot with min := args.min }
      pure (w', none)
  | .setMax => do
      let w' ← w.setSlot w.pwmPinCount fun slot => { slot with max := args.max }
      pure (w', none)
  | .setDuty value => do
      let w' ← w.setSlot w.pwmPinCount fun slot => { slot with dutyCycle := value }
      pure (w', none)
  | .printk => do
      let _ ← w.slot w.pwmPinCount
      pure (w, none)
  | .rtdmPrintk => do
      let _ ← w.slot w.pwmPinCount
      let _ ← subscript .taskName taskName w.pwmPinCount
      pure (w, none)
  | .wakeUp => do
      match ← subscript .taskTable w.taskTable w.pwmPinCount with
      | .thread k => pure (w.wake k, none)
      | ref => .fault [] (.notAThread ref)
  | .rtdmTaskInit => do
      let name ← subscript .taskName taskName w.pwmPinCount
      match outcome with
      | .created =>
          let w' ← (w.spawn name args .entry).setRef w.pwmPinCount (.thread w.tasks.length)
          pure (w', none)
      | .failed why =>
          -- `&task_array[pwm_pin_count]` is formed, but no task is left in it
          let _ ← subscript .taskTable w.taskTable w.pwmPinCount
          pure (w, some why.value)
  | .incr => pure ({ w with pwmPinCount := w.pwmPinCount + 1 }, none)

namespace Stmt

section
variable {args : InitArgs} {outcome : CreateOutcome} {w : World} {why : Errno} {k : Nat}
  (inside : w.pwmPinCount < maxPwmNum)

include inside

theorem exec_kthreadCreate_created :
    kthreadCreate.exec args .created w =
      .ok [.subscript .taskName w.pwmPinCount, .subscript .taskTable w.pwmPinCount]
        ({ w.spawn taskName[w.pwmPinCount] args .asleep with
            taskTable := w.taskTable.set w.pwmPinCount (.thread w.tasks.length) }, none) := by
  have spawned : (w.spawn taskName[w.pwmPinCount] args .asleep).taskTable = w.taskTable := rfl
  simp [exec, subscript_eq inside, World.setRef_eq inside, spawned]

theorem exec_kthreadCreate_failed :
    kthreadCreate.exec args (.failed why) w =
      .ok [.subscript .taskName w.pwmPinCount, .subscript .taskTable w.pwmPinCount]
        ({ w with taskTable := w.taskTable.set w.pwmPinCount (.error why) }, none) := by
  simp [exec, subscript_eq inside, World.setRef_eq inside]

theorem exec_isErr_error (failed : w.taskTable[w.pwmPinCount] = .error why) :
    isErr.exec args outcome w =
      .ok [.subscript .taskTable w.pwmPinCount, .subscript .taskTable w.pwmPinCount]
        ({ w with taskTable := w.taskTable.set w.pwmPinCount .null }, some why.value) := by
  simp [exec, subscript_eq inside, World.setRef_eq inside, failed]

theorem exec_isErr_valid (valid : ∀ why, w.taskTable[w.pwmPinCount] ≠ .error why) :
    isErr.exec args outcome w = .ok [.subscript .taskTable w.pwmPinCount] (w, none) := by
  simp only [exec, subscript_eq inside, Traced.ok_bind]
  cases ref : w.taskTable[w.pwmPinCount] with
  | error why => exact absurd ref (valid why)
  | null => rfl
  | thread k => rfl

theorem exec_setPin :
    setPin.exec args outcome w =
      .ok [.subscript .dutyArray w.pwmPinCount, .subscript .dutyArray w.pwmPinCount]
        ({ w with
            dutyArray := w.dutyArray.set w.pwmPinCount
              ({ w.dutyArray[w.pwmPinCount] with pin := args.pin }) }, none) := by
  simp [exec, World.setSlot_eq inside]

theorem exec_setMin :
    setMin.exec args outcome w =
      .ok [.subscript .dutyArray w.pwmPinCount, .subscript .dutyArray w.pwmPinCount]
        ({ w with
            dutyArray := w.dutyArray.set w.pwmPinCount
              ({ w.dutyArray[w.pwmPinCount] with min := args.min }) }, none) := by
  simp [exec, World.setSlot_eq inside]

theorem exec_setMax :
    setMax.exec args outcome w =
      .ok [.subscript .dutyArray w.pwmPinCount, .subscript .dutyArray w.pwmPinCount]
        ({ w with
            dutyArray := w.dutyArray.set w.pwmPinCount
              ({ w.dutyArray[w.pwmPinCount] with max := args.max }) }, none) := by
  simp [exec, World.setSlot_eq inside]

theorem exec_setDuty {value : Int32} :
    (setDuty value).exec args outcome w =
      .ok [.subscript .dutyArray w.pwmPinCount, .subscript .dutyArray w.pwmPinCount]
        ({ w with
            dutyArray := w.dutyArray.set w.pwmPinCount
              ({ w.dutyArray[w.pwmPinCount] with dutyCycle := value }) }, none) := by
  simp [exec, World.setSlot_eq inside]

theorem exec_printk :
    printk.exec args outcome w = .ok [.subscript .dutyArray w.pwmPinCount] (w, none) := by
  simp [exec, World.slot_eq inside]

theorem exec_rtdmPrintk :
    rtdmPrintk.exec args outcome w =
      .ok [.subscript .dutyArray w.pwmPinCount, .subscript .taskName w.pwmPinCount] (w, none) := by
  simp [exec, World.slot_eq inside, subscript_eq inside]

theorem exec_wakeUp (thread : w.taskTable[w.pwmPinCount] = .thread k) :
    wakeUp.exec args outcome w =
      .ok [.subscript .taskTable w.pwmPinCount] (w.wake k, none) := by
  simp [exec, subscript_eq inside, thread]

theorem exec_rtdmTaskInit_created :
    rtdmTaskInit.exec args .created w =
      .ok [.subscript .taskName w.pwmPinCount, .subscript .taskTable w.pwmPinCount]
        ({ w.spawn taskName[w.pwmPinCount] args .entry with
            taskTable := w.taskTable.set w.pwmPinCount (.thread w.tasks.length) }, none) := by
  have spawned : (w.spawn taskName[w.pwmPinCount] args .entry).taskTable = w.taskTable := rfl
  simp [exec, subscript_eq inside, World.setRef_eq inside, spawned]

theorem exec_rtdmTaskInit_failed :
    rtdmTaskInit.exec args (.failed why) w =
      .ok [.subscript .taskName w.pwmPinCount, .subscript .taskTable w.pwmPinCount]
        (w, some why.value) := by
  simp [exec, subscript_eq inside]

end

theorem exec_incr (args : InitArgs) (outcome : CreateOutcome) (w : World) :
    incr.exec args outcome w = .ok [] ({ w with pwmPinCount := w.pwmPinCount + 1 }, none) := rfl

def dutyAfter (old : Int32) : Stmt → Int32
  | setDuty value => value
  | _ => old

/-- What no statement of a `PWM_INIT` does: touch the registers or another slot, move a
    thread that is awake, record a thread other than a new one, or count a slot otherwise
    than by `pwm_pin_count++`. -/
structure Frame (stmt : Stmt) (w w' : World) : Prop where
  gpio : w'.gpio = w.gpio
  count : w'.pwmPinCount = w.pwmPinCount + if stmt = .incr then 1 else 0
  tasks : Grows w.tasks w'.tasks
  refs : ∀ k j, w'.taskTable[k]? = some (.thread j) →
    w.taskTable[k]? = some (.thread j) ∨ k = w.pwmPinCount ∧ j = w.tasks.length
  slots : ∀ k, k ≠ w.pwmPinCount → w'.dutyArray[k]? = w.dutyArray[k]?
  duty : w'.dutyArray[w.pwmPinCount]?.map (·.dutyCycle) =
    w.dutyArray[w.pwmPinCount]?.map fun slot => stmt.dutyAfter slot.dutyCycle

section
variable {args : InitArgs} {outcome : CreateOutcome} {w w' : World} {stmt : Stmt}
  {tr : List Event}

/-- Every statement before the last one subscripts a table by `pwm_pin_count`. -/
theorem exec_inside {r : World × Option Int} (run : stmt.exec args outcome w = .ok tr r)
    (notLast : stmt ≠ .incr) : w.pwmPinCount < maxPwmNum := by
  by_contra outside
  cases stmt with
  | incr => exact notLast rfl
  | kthreadCreate | isErr | setPin | setMin | setMax | setDuty | printk | rtdmPrintk | wakeUp
  | rtdmTaskInit =>
      simp [exec, World.slot_full outside, World.setSlot_full outside,
        subscript_full outside] at run

theorem frame_setSlot (inside : w.pwmPinCount < maxPwmNum) (entry : Dutycycle)
    (notLast : stmt ≠ .incr)
    (duty : entry.dutyCycle = stmt.dutyAfter w.dutyArray[w.pwmPinCount].dutyCycle) :
    stmt.Frame w { w with dutyArray := w.dutyArray.set w.pwmPinCount entry } where
  gpio := rfl
  count := by simp [notLast]
  tasks := .refl w.tasks
  refs := fun _ _ => .inl
  slots := fun _ other => Vector.getElem?_set_ne inside other.symm
  duty := by simp [Vector.getElem?_set_self inside, Vector.getElem?_eq_getElem inside, duty]

theorem refs_set (inside : w.pwmPinCount < maxPwmNum) {ref : TaskRef}
    (new : ∀ j, ref = .thread j → j = w.tasks.length) (k j : Nat)
    (here : (w.taskTable.set w.pwmPinCount ref)[k]? = some (.thread j)) :
    w.taskTable[k]? = some (.thread j) ∨ k = w.pwmPinCount ∧ j = w.tasks.length := by
  by_cases mine : w.pwmPinCount = k
  · subst mine
    rw [Vector.getElem?_set_self inside, Option.some.injEq] at here
    exact .inr ⟨rfl, new j here⟩
  · rw [Vector.getElem?_set_ne inside mine] at here
    exact .inl here

theorem frame_refl {taskTable : Vector TaskRef maxPwmNum} {tasks : List Task}
    (grows : Grows w.tasks tasks)
    (refs : ∀ k j, taskTable[k]? = some (.thread j) →
      w.taskTable[k]? = some (.thread j) ∨ k = w.pwmPinCount ∧ j = w.tasks.length)
    (notLast : stmt ≠ .incr) (duty : ∀ old, stmt.dutyAfter old = old) :
    stmt.Frame w { w with taskTable := taskTable, tasks := tasks } where
  gpio := rfl
  count := by simp [notLast]
  tasks := grows
  refs := refs
  slots := fun _ _ => rfl
  duty := by simp [duty]

theorem exec_frame {brk : Option Int} (run : stmt.exec args outcome w = .ok tr (w', brk)) :
    stmt.Frame w w' := by
  by_cases last : stmt = .incr
  · subst last
    cases run
    exact ⟨rfl, rfl, .refl w.tasks, fun _ _ => .inl, fun _ _ => rfl, rfl⟩
  · have inside := exec_inside run last
    have stay := Grows.refl w.tasks
    have same : ∀ k j, w.taskTable[k]? = some (.thread j) →
        w.taskTable[k]? = some (.thread j) ∨ k = w.pwmPinCount ∧ j = w.tasks.length :=
      fun _ _ => .inl
    cases stmt with
    | incr => exact absurd rfl last
    | setPin =>
        rw [exec_setPin inside] at run
        cases run
        exact frame_setSlot inside _ last rfl
    | setMin =>
        rw [exec_setMin inside] at run
        cases run
        exact frame_setSlot inside _ last rfl
    | setMax =>
        rw [exec_setMax inside] at run
        cases run
        exact frame_setSlot inside _ last rfl
    | setDuty =>
        rw [exec_setDuty inside] at run
        cases run
        exact frame_setSlot inside _ last rfl
    | printk =>
        rw [exec_printk inside] at run
        cases run
        exact frame_refl stay same last (fun _ => rfl)
    | rtdmPrintk =>
        rw [exec_rtdmPrintk inside] at run
        cases run
        exact frame_refl stay same last (fun _ => rfl)
    | kthreadCreate =>
        cases outcome with
        | created =>
            rw [exec_kthreadCreate_created inside] at run
            cases run
            exact frame_refl (.append w.tasks (by simp)) (refs_set inside (by simp)) last (fun _ => rfl)
        | failed why =>
            rw [exec_kthreadCreate_failed inside] at run
            cases run
            exact frame_refl stay (refs_set inside (by simp)) last (fun _ => rfl)
    | isErr =>
        by_cases failed : ∃ why, w.taskTable[w.pwmPinCount] = .error why
        · obtain ⟨why, failed⟩ := failed
          rw [exec_isErr_error inside failed] at run
          cases run
          exact frame_refl stay (refs_set inside (by simp)) last (fun _ => rfl)
        · rw [exec_isErr_valid inside (fun why same => failed ⟨why, same⟩)] at run
          cases run
          exact frame_refl stay same last (fun _ => rfl)
    | wakeUp =>
        cases ref : w.taskTable[w.pwmPinCount] with
        | thread k =>
            rw [exec_wakeUp inside ref] at run
            cases run
            exact frame_refl (w.wake_grows k) same last (fun _ => rfl)
        | null | error => simp [exec, subscript_eq inside, ref] at run
    | rtdmTaskInit =>
        cases outcome with
        | created =>
            rw [exec_rtdmTaskInit_created inside] at run
            cases run
            exact frame_refl (.append w.tasks (by simp)) (refs_set inside (by simp)) last (fun _ => rfl)
        | failed why =>
            rw [exec_rtdmTaskInit_failed inside] at run
            cases run
            exact frame_refl stay same last (fun _ => rfl)

def spawns : Stmt → CreateOutcome → Bool
  | kthreadCreate, .created | rtdmTaskInit, .created => true
  | _, _ => false

theorem exec_tasks {brk : Option Int} (run : stmt.exec args outcome w = .ok tr (w', brk)) :
    stmt.spawns outcome = true ∧ (∃ name pc, pc ≠ .returned ∧
        w'.tasks = (w.spawn name args pc).tasks) ∨
      stmt.spawns outcome = false ∧
        (w'.tasks = w.tasks ∨ stmt = .wakeUp ∧ ∃ k, w'.tasks = (w.wake k).tasks) := by
  by_cases last : stmt = .incr
  · subst last
    cases run
    exact .inr ⟨rfl, .inl rfl⟩
  · have inside := exec_inside run last
    cases stmt with
    | incr => exact absurd rfl last
    | setPin => rw [exec_setPin inside] at run; cases run; exact .inr ⟨rfl, .inl rfl⟩
    | setMin => rw [exec_setMin inside] at run; cases run; exact .inr ⟨rfl, .inl rfl⟩
    | setMax => rw [exec_setMax inside] at run; cases run; exact .inr ⟨rfl, .inl rfl⟩
    | setDuty => rw [exec_setDuty inside] at run; cases run; exact .inr ⟨rfl, .inl rfl⟩
    | printk => rw [exec_printk inside] at run; cases run; exact .inr ⟨rfl, .inl rfl⟩
    | rtdmPrintk => rw [exec_rtdmPrintk inside] at run; cases run; exact .inr ⟨rfl, .inl rfl⟩
    | kthreadCreate =>
        cases outcome with
        | created =>
            rw [exec_kthreadCreate_created inside] at run
            cases run
            exact .inl ⟨rfl, _, .asleep, by simp, rfl⟩
        | failed why =>
            rw [exec_kthreadCreate_failed inside] at run
            cases run
            exact .inr ⟨rfl, .inl rfl⟩
    | rtdmTaskInit =>
        cases outcome with
        | created =>
            rw [exec_rtdmTaskInit_created inside] at run
            cases run
            exact .inl ⟨rfl, _, .entry, by simp, rfl⟩
        | failed why =>
            rw [exec_rtdmTaskInit_failed inside] at run
            cases run
            exact .inr ⟨rfl, .inl rfl⟩
    | isErr =>
        by_cases failed : ∃ why, w.taskTable[w.pwmPinCount] = .error why
        · obtain ⟨why, failed⟩ := failed
          rw [exec_isErr_error inside failed] at run
          cases run
          exact .inr ⟨rfl, .inl rfl⟩
        · rw [exec_isErr_valid inside (fun why same => failed ⟨why, same⟩)] at run
          cases run
          exact .inr ⟨rfl, .inl rfl⟩
    | wakeUp =>
        cases ref : w.taskTable[w.pwmPinCount] with
        | thread k =>
            rw [exec_wakeUp inside ref] at run
            cases run
            exact .inr ⟨rfl, .inr ⟨rfl, k, rfl⟩⟩
        | null | error => simp [exec, subscript_eq inside, ref] at run

end

end Stmt

/-- Run the statements in order up to the end of the branch or the first `break`. -/
def runInit (args : InitArgs) (outcome : CreateOutcome) : List Stmt → World → Kernel (World × Int)
  | [], w => pure (w, 0)
  | stmt :: rest, w => do
      match ← stmt.exec args outcome w with
      | (w', some err) => pure (w', err)
      | (w', none) => runInit args outcome rest w'

/-- `PIN_SET`: a type other than 0 and 1 is warned about and ignored. -/
def pinSet (pin type : Int32) (w : World) : Kernel World :=
  if type ≠ 0 ∧ type ≠ 1 then pure w
  else w.onGpio pin (if type = 0 then gpioInput else gpioOutput)

/-- `GPIO_SET`: a status other than 0 and 1 is warned about and ignored. -/
def gpioStatus (pin status : Int32) (w : World) : Kernel World :=
  if status ≠ 0 ∧ status ≠ 1 then pure w
  else w.onGpio pin (if status = 0 then gpioClr else gpioSet)

/-- What the two pin requests have in common: a second argument of 0 or 1 runs one of two
    functions of `gpio.c`. -/
def actOnPin (zero one : Int32 → Gpio → Traced Access Fault Gpio) (pin code : Int32)
    (w : World) : Kernel World :=
  if code ≠ 0 ∧ code ≠ 1 then pure w else w.onGpio pin (if code = 0 then zero else one)

theorem pinSet_eq (pin type : Int32) (w : World) :
    pinSet pin type w = actOnPin gpioInput gpioOutput pin type w := rfl

theorem gpioStatus_eq (pin status : Int32) (w : World) :
    gpioStatus pin status w = actOnPin gpioClr gpioSet pin status w := rfl

/-- The search loop of `PWM_SET`, with the iterations left and the loop variable. -/
def findPin (pin : Int32) (w : World) : Nat → Nat → Kernel (Option Nat)
  | 0, _ => pure none
  | n + 1, i => do
      let slot ← w.slot i
      if slot.pin = pin then pure (some i) else findPin pin w n (i + 1)

/-- `PWM_SET`: the first active slot with the pin takes the duty cycle; a pin that
    no slot has is warned about and ignored. -/
def pwmSet (pin duty : Int32) (w : World) : Kernel World := do
  match ← findPin pin w w.pwmPinCount 0 with
  | none => pure w
  | some pos => w.setSlot pos fun slot => { slot with dutyCycle := duty }

/-- The switch of `pwm_ioctl` and `xeno_pwm_ioctl`, run to its end, with the value
    returned.  `outcome` is the answer to the thread creation of a `PWM_INIT`. -/
def Driver.ioctl (D : Driver) (outcome : CreateOutcome) (w : World) :
    Request → Kernel (World × Int)
  | .pinSet pin type => do
      let w' ← pinSet pin type w
      pure (w', 0)
  | .gpioSet pin status => do
      let w' ← gpioStatus pin status w
      pure (w', 0)
  | .pwmInit args => runInit args outcome D.initCode w
  | .pwmSet pin duty => do
      let w' ← pwmSet pin duty w
      pure (w', 0)

end KsoftPWM
