import KsoftPWM.Model.Gpio

/-! # The drivers' shared state

The two drivers keep the same three tables, subscripted by `pwm_pin_count` or by a
position derived from it: `duty_array`, the task table (`pwm_tsk` in softPWM,
`task_array` in xenoPWM) and the task names.  The tables have `MAX_PWM_NUM` entries
and no subscript is checked by the code, so every subscript here reports itself and
faults when it leaves its table.

The kernel's threads are part of the world: a created thread is known by its index
in creation order.
-/

namespace KsoftPWM

inductive Driver where
  | softPWM
  | xenoPWM
  deriving Repr, DecidableEq

abbrev maxPwmNum : Nat := 5

/-- A channel of the driver, `struct duty_cycle`. -/
structure Dutycycle where
  pin : Int32
  dutyCycle : Int32
  min : Int32
  max : Int32
  deriving Repr, DecidableEq

/-- The three words of a `PWM_INIT` request. -/
structure InitArgs where
  pin : Int32
  min : Int32
  max : Int32
  deriving Repr, DecidableEq

/-- An error number of the kernel, as carried by an error pointer. -/
structure Errno where
  code : Nat
  pos : 0 < code
  small : code ≤ 4095
  deriving Repr, DecidableEq

namespace Errno

def value (e : Errno) : Int := -e.code

theorem value_neg (e : Errno) : e.value < 0 := by
  have := e.pos
  simp only [value]
  omega

end Errno

/-- What `kthread_create` or `rtdm_task_init` answers. -/
inductive CreateOutcome where
  | created
  | failed (why : Errno)
  deriving Repr, DecidableEq

/-- An entry of the task table. -/
inductive TaskRef where
  | null
  | error (why : Errno)
  | thread (task : Nat)
  deriving Repr, DecidableEq

/-- The half of the period a task is about to sleep through. -/
inductive Phase where
  | high
  | low
  deriving Repr, DecidableEq

/-- Where a `pwm_task` is. -/
inductive TaskPc where
  /-- Created by `kthread_create` and not woken yet. -/
  | asleep
  /-- Before the loop, where xenoPWM announces its pin. -/
  | entry
  | loopHead
  | set
  /-- Evaluating the arguments of the sleep; those evaluated so far are listed in
      the order of evaluation. -/
  | eval (phase : Phase) (args : List (Option Int32))
  | clr
  | returned
  deriving Repr, DecidableEq

def Phase.next : Phase → TaskPc
  | .high => .clr
  | .low => .loopHead

/-- A thread running `pwm_task`.  `creator` records the request that created it;
    the code never looks at it. -/
structure Task where
  pos : Nat
  name : String
  creator : InitArgs
  stop : Bool
  pc : TaskPc
  deriving Repr, DecidableEq

/-- How the threads may differ after a step that is not theirs: some have been woken,
    and some are new. -/
structure Grows (before after : List Task) : Prop where
  kept : ∀ (k : Nat) (t : Task), before[k]? = some t → ∃ t', after[k]? = some t' ∧
    t'.creator = t.creator ∧ (t'.pc = t.pc ∨ t.pc = .asleep ∧ t'.pc = .loopHead)
  fresh : ∀ (k : Nat) (t : Task), before[k]? = none → after[k]? = some t →
    t.pc = .asleep ∨ t.pc = .entry

namespace Grows

variable {before after : List Task} {k : Nat} {t : Task}

theorem refl (before : List Task) : Grows before before where
  kept := fun _ t here => ⟨t, here, rfl, .inl rfl⟩
  fresh := fun _ _ absent here => by simp [absent] at here

theorem awake (grows : Grows before after) (here : before[k]? = some t) (awake : t.pc ≠ .asleep) :
    ∃ t', after[k]? = some t' ∧ t'.creator = t.creator ∧ t'.pc = t.pc := by
  obtain ⟨t', here', creator, same | ⟨asleep, -⟩⟩ := grows.kept k t here
  · exact ⟨t', here', creator, same⟩
  · exact absurd asleep awake

theorem length_le (grows : Grows before after) : before.length ≤ after.length := by
  by_contra shorter
  have inside : after.length < before.length := Nat.lt_of_not_le shorter
  obtain ⟨t, here, -⟩ := grows.kept after.length _ (List.getElem?_eq_getElem inside)
  simp at here

theorem append (before : List Task) (new : t.pc = .asleep ∨ t.pc = .entry) :
    Grows before (before ++ [t]) where
  kept := fun k old here =>
    ⟨old, (List.getElem?_append_left (List.getElem?_eq_some_iff.mp here).1).trans here, rfl, .inl rfl⟩
  fresh := by
    intro k t' absent here
    rw [List.getElem?_append_right (List.getElem?_eq_none_iff.mp absent),
      List.getElem?_singleton] at here
    split at here
    · cases here
      exact new
    · cases here

theorem modify (before : List Task) (k : Nat) {f : Task → Task}
    (creator : ∀ t, (f t).creator = t.creator)
    (pc : ∀ t, (f t).pc = t.pc ∨ t.pc = .asleep ∧ (f t).pc = .loopHead) :
    Grows before (before.modify k f) where
  kept := by
    intro j t here
    rw [List.getElem?_modify, here]
    by_cases same : k = j
    · exact ⟨f t, by simp [same], creator t, pc t⟩
    · exact ⟨t, by simp [same], rfl, .inl rfl⟩
  fresh := by
    intro j t absent here
    simp [List.getElem?_modify, absent] at here

end Grows

inductive Table where
  | dutyArray
  | taskTable
  | taskName
  deriving Repr, DecidableEq

inductive ExitStmt where
  | iounmap
  | unregisterChrdevRegion
  | kfreeCdev
  | rtdmDevUnregister
  deriving Repr, DecidableEq

inductive Event where
  | subscript (table : Table) (index : Nat)
  | gpio (pin : Int32) (access : Access)
  /-- The `duty_cycle` an evaluation of `HIGH_TIME` or `LOW_TIME` has read. -/
  | duty (value : Int32)
  /-- A call of `usleep_range` or `rtdm_task_sleep`, arguments in parameter order;
      an argument without a defined value is `none`. -/
  | sleep (phase : Phase) (args : List (Option Int32))
  /-- A call of `kthread_stop` or `rtdm_task_destroy`. -/
  | stop (task : Nat)
  | exit (stmt : ExitStmt)
  /-- The value an ioctl returns. -/
  | ret (err : Int)
  deriving Repr, DecidableEq

/-- A subscript below `MAX_PWM_NUM`; other events subscript nothing. -/
def Event.InBounds : Event → Prop
  | .subscript _ index => index < maxPwmNum
  | _ => True

instance : DecidablePred Event.InBounds
  | .subscript _ index => inferInstanceAs (Decidable (index < maxPwmNum))
  | .gpio .. | .duty _ | .sleep .. | .stop _ | .exit _ | .ret _ => .isTrue trivial

/-- The event is no access of the register block. -/
def Event.Silent (e : Event) : Prop := ∀ pin access, e ≠ .gpio pin access

instance : DecidablePred Event.Silent
  | .gpio pin access => .isFalse fun silent => silent pin access rfl
  | .subscript .. | .duty _ | .sleep .. | .stop _ | .exit _ | .ret _ => .isTrue nofun

inductive Fault where
  | outOfBounds (table : Table) (index : Nat)
  /-- A table entry used as a thread that is not one. -/
  | notAThread (ref : TaskRef)
  deriving Repr, DecidableEq

abbrev Kernel (α : Type) := Traced Event Fault α

structure World where
  dutyArray : Vector Dutycycle maxPwmNum
  taskTable : Vector TaskRef maxPwmNum
  pwmPinCount : Nat
  gpio : Gpio
  tasks : List Task

/-- `name` in softPWM, `task_name` in xenoPWM. -/
def taskName : Vector String maxPwmNum :=
  #v["pwmtask_1", "pwmtask_2", "pwmtask_3", "pwmtask_4", "pwmtask_5"]

/-- The world after a module load with both tables allocated and zeroed. -/
def World.load (gpio : Gpio) : World where
  dutyArray := Vector.replicate maxPwmNum ⟨0, 0, 0, 0⟩
  taskTable := Vector.replicate maxPwmNum .null
  pwmPinCount := 0
  gpio := gpio
  tasks := []

def subscript {α : Type} (table : Table) (entries : Vector α maxPwmNum) (i : Nat) : Kernel α :=
  if h : i < maxPwmNum then .ok [.subscript table i] entries[i]
  else .fault [.subscript table i] (.outOfBounds table i)

def assign {α : Type} (table : Table) (entries : Vector α maxPwmNum) (i : Nat) (entry : α) :
    Kernel (Vector α maxPwmNum) :=
  if h : i < maxPwmNum then .ok [.subscript table i] (entries.set i entry)
  else .fault [.subscript table i] (.outOfBounds table i)

section
variable {α : Type} {table : Table} {entries : Vector α maxPwmNum} {i : Nat} {entry : α}

theorem subscript_eq (inside : i < maxPwmNum) :
    subscript table entries i = .ok [.subscript table i] entries[i] := by
  simp only [subscript, inside, ↓reduceDIte]

theorem subscript_full (outside : ¬ i < maxPwmNum) :
    subscript table entries i = .fault [.subscript table i] (.outOfBounds table i) := by
  simp only [subscript, outside, ↓reduceDIte]

theorem assign_eq (inside : i < maxPwmNum) :
    assign table entries i entry = .ok [.subscript table i] (entries.set i entry) := by
  simp only [assign, inside, ↓reduceDIte]

end

namespace World

/-- `duty_array[i]` -/
def slot (w : World) (i : Nat) : Kernel Dutycycle := subscript .dutyArray w.dutyArray i

def setSlot (w : World) (i : Nat) (field : Dutycycle → Dutycycle) : Kernel World := do
  let entry ← subscript .dutyArray w.dutyArray i
  let entries ← assign .dutyArray w.dutyArray i (field entry)
  pure { w with dutyArray := entries }

def setRef (w : World) (i : Nat) (ref : TaskRef) : Kernel World := do
  let entries ← assign .taskTable w.taskTable i ref
  pure { w with taskTable := entries }

/-- Run one of the functions of `gpio.c` for a pin. -/
def onGpio (w : World) (pin : Int32) (f : Int32 → Gpio → Traced Access Fault Gpio) :
    Kernel World := do
  let gpio ← (f pin w.gpio).tag (Event.gpio pin)
  pure { w with gpio := gpio }

def jump (w : World) (k : Nat) (pc : TaskPc) : World :=
  { w with tasks := w.tasks.modify k fun t => { t with pc := pc } }

/-- Ask a thread to stop, which also wakes it. -/
def requestStop (w : World) (k : Nat) : World :=
  { w with
    tasks := w.tasks.modify k fun t =>
      { t with stop := true, pc := if t.pc = .asleep then .loopHead else t.pc } }

theorem requestStop_grows (w : World) (k : Nat) : Grows w.tasks (w.requestStop k).tasks := by
  refine .modify w.tasks k (fun _ => rfl) (fun t => ?_)
  by_cases asleep : t.pc = .asleep
  · exact .inr ⟨asleep, by simp [asleep]⟩
  · exact .inl (by simp [asleep])

theorem onGpio_gpioSet (w : World) (pin : Int32) :
    w.onGpio pin gpioSet = .ok [.gpio pin (.store 7 (shl 1 pin.toInt))]
      { w with gpio := w.gpio.drive 0 (shl 1 pin.toInt) true } := rfl

theorem onGpio_gpioClr (w : World) (pin : Int32) :
    w.onGpio pin gpioClr = .ok [.gpio pin (.store 10 (shl 1 pin.toInt))]
      { w with gpio := w.gpio.drive 0 (shl 1 pin.toInt) false } := rfl

theorem slot_eq {w : World} {i : Nat} (inside : i < maxPwmNum) :
    w.slot i = .ok [.subscript .dutyArray i] w.dutyArray[i] :=
  subscript_eq inside

theorem slot_full {w : World} {i : Nat} (outside : ¬ i < maxPwmNum) :
    w.slot i = .fault [.subscript .dutyArray i] (.outOfBounds .dutyArray i) :=
  subscript_full outside

theorem setSlot_eq {w : World} {i : Nat} {field : Dutycycle → Dutycycle}
    (inside : i < maxPwmNum) :
    w.setSlot i field = .ok [.subscript .dutyArray i, .subscript .dutyArray i]
      { w with dutyArray := w.dutyArray.set i (field w.dutyArray[i]) } := by
  simp [setSlot, subscript_eq inside, assign_eq inside]

theorem setSlot_full {w : World} {i : Nat} {field : Dutycycle → Dutycycle}
    (outside : ¬ i < maxPwmNum) :
    w.setSlot i field = .fault [.subscript .dutyArray i] (.outOfBounds .dutyArray i) := by
  simp [setSlot, subscript_full outside]

theorem setRef_eq {w : World} {i : Nat} {ref : TaskRef} (inside : i < maxPwmNum) :
    w.setRef i ref = .ok [.subscript .taskTable i]
      { w with taskTable := w.taskTable.set i ref } := by
  simp [setRef, assign_eq inside]

end World

end KsoftPWM
