import KsoftPWM.Base.CInt
import KsoftPWM.Model.World

/-! # `pwm_task` and its timing macros

`HIGH_TIME` and `LOW_TIME` are computed in `int`: softPWM multiplies first and
counts microseconds, xenoPWM divides first and counts nanoseconds.  A value is
`none` when an intermediate result overflows or the range is zero.

A task is a thread of its own; one step of it is one statement of `pwm_task`, with
each argument of a sleep evaluated in a step of its own, since each evaluation reads
`duty_cycle` again.  A task goes on after a time without a value: on the ARM core an
overflow wraps and a division by zero returns through `__div0`.  Its step may take it out
of any sleep; whether the sleep ends is for the kernel to say.
-/

namespace KsoftPWM

def pwmFreq : Int32 := 100

def periodUs : Int32 := 1000000 / pwmFreq

def periodNs : Int32 := 1000000000 / pwmFreq

def pwmRange (slot : Dutycycle) : Option Int32 := CInt.sub slot.max slot.min

namespace Driver

/-- The period in the unit the driver sleeps in. -/
def period : Driver → Int32
  | softPWM => periodUs
  | xenoPWM => periodNs

def highTime : Driver → Dutycycle → Option Int32
  | softPWM, slot => do
      let product ← CInt.mul periodUs slot.dutyCycle
      let range ← pwmRange slot
      CInt.div product range
  | xenoPWM, slot => do
      let range ← pwmRange slot
      let unit ← CInt.div periodNs range
      CInt.mul unit slot.dutyCycle

def lowTime : Driver → Dutycycle → Option Int32
  | softPWM, slot => do
      let range ← pwmRange slot
      let rest ← CInt.sub range slot.dutyCycle
      let product ← CInt.mul periodUs rest
      CInt.div product range
  | xenoPWM, slot => do
      let range ← pwmRange slot
      let unit ← CInt.div periodNs range
      let rest ← CInt.sub range slot.dutyCycle
      CInt.mul unit rest

def sleepTime (D : Driver) (phase : Phase) (slot : Dutycycle) : Option Int32 :=
  match phase with
  | .high => D.highTime slot
  | .low => D.lowTime slot

/-- `usleep_range` takes a bound from below and one from above, `rtdm_task_sleep` a
    single time. -/
def sleepArity : Driver → Nat
  | softPWM => 2
  | xenoPWM => 1

/-- One step of thread `k`.  C leaves the order open in which the two arguments of
    `usleep_range` are evaluated; `swap` says that the second one came first. -/
def pwmTask (D : Driver) (w : World) (k : Nat) (swap : Bool) : Option (Kernel World) :=
  match w.tasks[k]? with
  | none => none
  | some t =>
      match t.pc with
      | .asleep => none
      | .returned => none
      | .entry => some do
          let _ ← w.slot t.pos
          pure (w.jump k .loopHead)
      | .loopHead => some (pure (w.jump k (if t.stop then .returned else .set)))
      | .set => some do
          let slot ← w.slot t.pos
          let w' ← w.onGpio slot.pin gpioSet
          pure (w'.jump k (.eval .high []))
      | .clr => some do
          let slot ← w.slot t.pos
          let w' ← w.onGpio slot.pin gpioClr
          pure (w'.jump k (.eval .low []))
      | .eval phase args => some <|
          if args.length < D.sleepArity then do
            let slot ← w.slot t.pos
            Traced.emit (.duty slot.dutyCycle)
            pure (w.jump k (.eval phase (args ++ [D.sleepTime phase slot])))
          else do
            Traced.emit (.sleep phase (if swap then args.reverse else args))
            pure (w.jump k phase.next)

section
variable {D : Driver} {w : World} {k : Nat} {swap : Bool} {t : Task} {phase : Phase}
  {args : List (Option Int32)} (here : w.tasks[k]? = some t)

include here

theorem pwmTask_asleep (pc : t.pc = .asleep) : D.pwmTask w k swap = none := by
  simp only [pwmTask, here, pc]

theorem pwmTask_returned (pc : t.pc = .returned) : D.pwmTask w k swap = none := by
  simp only [pwmTask, here, pc]

theorem pwmTask_loopHead (pc : t.pc = .loopHead) :
    D.pwmTask w k swap = some (.ok [] (w.jump k (if t.stop then .returned else .set))) := by
  simp only [pwmTask, here, pc, Traced.pure_eq]

theorem pwmTask_sleep (pc : t.pc = .eval phase args) (full : ¬ args.length < D.sleepArity) :
    D.pwmTask w k swap = some (.ok [.sleep phase (if swap then args.reverse else args)]
      (w.jump k phase.next)) := by
  simp only [pwmTask, here, pc, full, ↓reduceIte, Traced.emit_eq, Traced.pure_eq, Traced.ok_bind,
    Traced.after_ok, List.append_nil]

variable (inside : t.pos < maxPwmNum)

include inside

theorem pwmTask_entry (pc : t.pc = .entry) :
    D.pwmTask w k swap = some (.ok [.subscript .dutyArray t.pos] (w.jump k .loopHead)) := by
  simp [pwmTask, here, pc, World.slot_eq inside]

theorem pwmTask_set (pc : t.pc = .set) :
    D.pwmTask w k swap = some (.ok
      [.subscript .dutyArray t.pos,
        .gpio w.dutyArray[t.pos].pin (.store 7 (shl 1 w.dutyArray[t.pos].pin.toInt))]
      (({ w with gpio := w.gpio.drive 0 (shl 1 w.dutyArray[t.pos].pin.toInt) true } : World).jump k
        (.eval .high []))) := by
  simp [pwmTask, here, pc, World.slot_eq inside, World.onGpio_gpioSet]

theorem pwmTask_clr (pc : t.pc = .clr) :
    D.pwmTask w k swap = some (.ok
      [.subscript .dutyArray t.pos,
        .gpio w.dutyArray[t.pos].pin (.store 10 (shl 1 w.dutyArray[t.pos].pin.toInt))]
      (({ w with gpio := w.gpio.drive 0 (shl 1 w.dutyArray[t.pos].pin.toInt) false } : World).jump k
        (.eval .low []))) := by
  simp [pwmTask, here, pc, World.slot_eq inside, World.onGpio_gpioClr]

theorem pwmTask_eval (pc : t.pc = .eval phase args) (short : args.length < D.sleepArity) :
    D.pwmTask w k swap = some (.ok
      [.subscript .dutyArray t.pos, .duty w.dutyArray[t.pos].dutyCycle]
      (w.jump k (.eval phase (args ++ [D.sleepTime phase w.dutyArray[t.pos]])))) := by
  simp [pwmTask, here, pc, short, World.slot_eq inside]

end

/-- Everything one step of a task can do: from where, to where, with which events,
    and to which level it drives its pin if it does. -/
inductive Move (D : Driver) (slot : Dutycycle) (pos : Nat) (stop swap : Bool) :
    TaskPc → TaskPc → List Event → Option Bool → Prop where
  | entry : Move D slot pos stop swap .entry .loopHead [.subscript .dutyArray pos] none
  | halt : stop = true → Move D slot pos stop swap .loopHead .returned [] none
  | goOn : stop = false → Move D slot pos stop swap .loopHead .set [] none
  | set : Move D slot pos stop swap .set (.eval .high [])
      [.subscript .dutyArray pos, .gpio slot.pin (.store 7 (shl 1 slot.pin.toInt))] (some true)
  | clr : Move D slot pos stop swap .clr (.eval .low [])
      [.subscript .dutyArray pos, .gpio slot.pin (.store 10 (shl 1 slot.pin.toInt))] (some false)
  | eval {phase args} : args.length < D.sleepArity →
      Move D slot pos stop swap (.eval phase args) (.eval phase (args ++ [D.sleepTime phase slot]))
        [.subscript .dutyArray pos, .duty slot.dutyCycle] none
  | sleep {phase args} : ¬ args.length < D.sleepArity →
      Move D slot pos stop swap (.eval phase args) phase.next
        [.sleep phase (if swap then args.reverse else args)] none

theorem Move.not_returned {D : Driver} {slot : Dutycycle} {pos : Nat} {swap : Bool}
    {pc pc' : TaskPc} {raw : List Event} {level : Option Bool}
    (move : D.Move slot pos false swap pc pc' raw level) : pc' ≠ .returned := by
  cases move with
  | halt stop => cases stop
  | @sleep phase => cases phase <;> simp [Phase.next]
  | entry | goOn | set | clr | eval => simp

end Driver

/-- The world with a pin driven by `gpio_set` or `gpio_clr`, if it is. -/
def World.driven (w : World) (pin : Int32) : Option Bool → World
  | none => w
  | some level => { w with gpio := w.gpio.drive 0 (shl 1 pin.toInt) level }

theorem tasks_driven (w : World) (pin : Int32) (level : Option Bool) :
    (w.driven pin level).tasks = w.tasks := by
  cases level <;> rfl

theorem tasks_moved {w : World} {pin : Int32} {level : Option Bool} {k : Nat} {pc : TaskPc}
    {t : Task} (here : w.tasks[k]? = some t) :
    ((w.driven pin level).jump k pc).tasks[k]? = some { t with pc := pc } := by
  rw [World.jump, tasks_driven, List.getElem?_modify_eq, here]
  rfl

theorem tasks_unmoved {w : World} {pin : Int32} {level : Option Bool} {j k : Nat} {pc : TaskPc}
    (other : j ≠ k) : ((w.driven pin level).jump j pc).tasks[k]? = w.tasks[k]? := by
  rw [World.jump, tasks_driven, List.getElem?_modify_ne _ _ other]

namespace Driver

/-- A step of a task is one of its moves. -/
theorem pwmTask_move {D : Driver} {w : World} {k : Nat} {swap : Bool} {t : Task}
    {x : Kernel World} (here : w.tasks[k]? = some t) (inside : t.pos < maxPwmNum)
    (taken : D.pwmTask w k swap = some x) :
    ∃ pc tr level, D.Move w.dutyArray[t.pos] t.pos t.stop swap t.pc pc tr level ∧
      x = .ok tr ((w.driven w.dutyArray[t.pos].pin level).jump k pc) := by
  cases at_ : t.pc with
  | asleep => simp [pwmTask_asleep here at_] at taken
  | returned => simp [pwmTask_returned here at_] at taken
  | entry =>
      rw [pwmTask_entry here inside at_, Option.some.injEq] at taken
      exact ⟨_, _, _, .entry, taken.symm⟩
  | loopHead =>
      rw [pwmTask_loopHead here at_, Option.some.injEq] at taken
      cases stop : t.stop with
      | true => exact ⟨_, _, _, .halt rfl, by rw [← taken, stop]; rfl⟩
      | false => exact ⟨_, _, _, .goOn rfl, by rw [← taken, stop]; rfl⟩
  | set =>
      rw [pwmTask_set here inside at_, Option.some.injEq] at taken
      exact ⟨_, _, _, .set, taken.symm⟩
  | clr =>
      rw [pwmTask_clr here inside at_, Option.some.injEq] at taken
      exact ⟨_, _, _, .clr, taken.symm⟩
  | eval phase args =>
      by_cases short : args.length < D.sleepArity
      · rw [pwmTask_eval here inside at_ short, Option.some.injEq] at taken
        exact ⟨_, _, _, .eval short, taken.symm⟩
      · rw [pwmTask_sleep here at_ short, Option.some.injEq] at taken
        exact ⟨_, _, _, .sleep short, taken.symm⟩

theorem pwmTask_some {D : Driver} {w : World} {k : Nat} {swap : Bool} {x : Kernel World}
    (taken : D.pwmTask w k swap = some x) :
    ∃ t, w.tasks[k]? = some t ∧ t.pc ≠ .asleep ∧ t.pc ≠ .returned := by
  cases here : w.tasks[k]? with
  | none => simp [pwmTask, here] at taken
  | some t =>
      refine ⟨t, rfl, ?_, ?_⟩
      · intro asleep
        simp [pwmTask_asleep here asleep] at taken
      · intro returned
        simp [pwmTask_returned here returned] at taken

end Driver

end KsoftPWM
