import KsoftPWM.Timing
import KsoftPWM.Requests

/-! # Divisors and sleep times under arbitrary requests

No request is refused for its numbers, so a task may divide by zero, overflow, or
sleep for a negative time.  Which duty cycles a range can take follows from the macros;
the requests that leave every task within its period are exactly those that open a
channel whose range takes the creation value and those that send a value the range of
the slot they find can take.
-/

namespace KsoftPWM

/-- `PWM_RANGE` is a positive `int`, and `HIGH_TIME` and `LOW_TIME` have values between
    zero and the period. -/
def Driver.Timed (D : Driver) (slot : Dutycycle) : Prop :=
  (∃ range, pwmRange slot = some range ∧ 0 < range.toInt) ∧
    ∃ high low, D.highTime slot = some high ∧ D.lowTime slot = some low ∧
      0 ≤ high.toInt ∧ high.toInt ≤ D.period.toInt ∧ 0 ≤ low.toInt ∧ low.toInt ≤ D.period.toInt

/-- The duty cycles that a range can take.  softPWM rounds towards zero, so it takes a
    little more than the range; xenoPWM sleeps for no time at all once the range exceeds
    the period. -/
def Driver.Takes (D : Driver) (range duty : Int) : Prop :=
  match D with
  | .softPWM => 0 < range ∧ -range < 10000 * duty ∧ 10000 * duty < 2 ^ 31 ∧
      -range < 10000 * (range - duty) ∧ 10000 * (range - duty) < 2 ^ 31
  | .xenoPWM => 0 < range ∧ range < 2 ^ 31 ∧ range - duty < 2 ^ 31 ∧
      (range ≤ 10000000 → 0 ≤ duty ∧ duty ≤ range)

instance (D : Driver) (range duty : Int) : Decidable (D.Takes range duty) :=
  match D with
  | .softPWM => inferInstanceAs (Decidable (_ ∧ _))
  | .xenoPWM => inferInstanceAs (Decidable (_ ∧ _))

variable {D : Driver} {slot : Dutycycle}

theorem pwmRange_pos :
    (∃ range, pwmRange slot = some range ∧ 0 < range.toInt) ↔
      CInt.Fits slot.range ∧ 0 < slot.range := by
  simp only [pwmRange, CInt.sub_eq_some]
  constructor
  · rintro ⟨range, value, pos⟩
    rw [Dutycycle.range, ← value]
    exact ⟨CInt.fits_toInt range, pos⟩
  · rintro ⟨fits, pos⟩
    obtain ⟨range, value⟩ := CInt.exists_toInt fits
    exact ⟨range, value, value ▸ pos⟩

theorem timed_soft : Driver.softPWM.Timed slot ↔
    Driver.softPWM.Takes slot.range slot.dutyCycle.toInt := by
  have period : Driver.softPWM.period.toInt = 10000 := by decide
  have duty := CInt.fits_toInt slot.dutyCycle
  rw [Driver.Timed, pwmRange_pos, period]
  simp only [highTime_soft, lowTime_soft, Driver.Takes]
  constructor
  · rintro ⟨⟨fits, pos⟩, high, low, ⟨-, -, fitsHigh, highEq⟩, ⟨-, -, -, fitsLow, lowEq⟩, nonneg, -,
      nonneg', -⟩
    rw [highEq, CInt.tdiv_nonneg_iff pos] at nonneg
    rw [lowEq, CInt.tdiv_nonneg_iff pos] at nonneg'
    exact ⟨pos, nonneg, fitsHigh.2, nonneg', fitsLow.2⟩
  · rintro ⟨pos, aboveHigh, belowHigh, aboveLow, belowLow⟩
    have range : CInt.Fits slot.range := by constructor <;> omega
    have nonneg := (CInt.tdiv_nonneg_iff pos).mpr aboveHigh
    have nonneg' := (CInt.tdiv_nonneg_iff pos).mpr aboveLow
    have top := (CInt.tdiv_le_iff (k := 10000) pos (by decide)).mpr
      (show 10000 * slot.dutyCycle.toInt < (10000 + 1) * slot.range by omega)
    have top' := (CInt.tdiv_le_iff (k := 10000) pos (by decide)).mpr
      (show 10000 * (slot.range - slot.dutyCycle.toInt) < (10000 + 1) * slot.range by omega)
    obtain ⟨high, highEq⟩ := CInt.exists_toInt
      (z := (10000 * slot.dutyCycle.toInt).tdiv slot.range) (by constructor <;> omega)
    obtain ⟨low, lowEq⟩ := CInt.exists_toInt
      (z := (10000 * (slot.range - slot.dutyCycle.toInt)).tdiv slot.range)
      (by constructor <;> omega)
    refine ⟨⟨range, pos⟩, high, low, ⟨range, pos.ne', ?_, highEq⟩,
      ⟨range, pos.ne', ?_, ?_, lowEq⟩, ?_⟩
    · constructor <;> omega
    · constructor <;> omega
    · constructor <;> omega
    · rw [highEq, lowEq]
      exact ⟨nonneg, top, nonneg', top'⟩

theorem unit_bounds {range : Int} (pos : 0 < range) :
    0 ≤ Int.tdiv 10000000 range ∧ Int.tdiv 10000000 range * range ≤ 10000000 ∧
      (range ≤ 10000000 → 0 < Int.tdiv 10000000 range) ∧
      (10000000 < range → Int.tdiv 10000000 range = 0) := by
  rw [Int.tdiv_eq_ediv_of_nonneg (by decide)]
  refine ⟨Int.ediv_nonneg (by decide) pos.le, Int.ediv_mul_le _ pos.ne', ?_, ?_⟩
  · intro small
    have one := (Int.le_ediv_iff_mul_le (a := 1) (b := 10000000) pos).mpr (by omega)
    omega
  · intro large
    exact Int.ediv_eq_zero_of_lt (by decide) large

theorem timed_xeno : Driver.xenoPWM.Timed slot ↔
    Driver.xenoPWM.Takes slot.range slot.dutyCycle.toInt := by
  have period : Driver.xenoPWM.period.toInt = 10000000 := by decide
  have duty := CInt.fits_toInt slot.dutyCycle
  rw [Driver.Timed, pwmRange_pos, period]
  simp only [highTime_xeno, lowTime_xeno, Driver.Takes]
  constructor
  · rintro ⟨⟨fits, pos⟩, high, low, ⟨-, -, highEq⟩, ⟨-, -, rest, lowEq⟩, nonneg, -, nonneg', -⟩
    obtain ⟨-, -, unit, -⟩ := unit_bounds pos
    refine ⟨pos, fits.2, rest.2, fun small => ?_⟩
    rw [highEq] at nonneg
    rw [lowEq] at nonneg'
    have := nonneg_of_mul_nonneg_right nonneg (unit small)
    have := nonneg_of_mul_nonneg_right nonneg' (unit small)
    omega
  · rintro ⟨pos, top, rest, small⟩
    obtain ⟨unit, whole, -, zero⟩ := unit_bounds pos
    -- a part of the range takes a part of the period
    have part : ∀ d : Int, (slot.range ≤ 10000000 → 0 ≤ d ∧ d ≤ slot.range) →
        0 ≤ Int.tdiv 10000000 slot.range * d ∧ Int.tdiv 10000000 slot.range * d ≤ 10000000 := by
      intro d inside
      rcases Int.lt_or_le 10000000 slot.range with large | within
      · simp [zero large]
      · obtain ⟨nonneg, below⟩ := inside within
        exact ⟨mul_nonneg unit nonneg, (mul_le_mul_of_nonneg_left below unit).trans whole⟩
    obtain ⟨nonneg, above⟩ := part slot.dutyCycle.toInt small
    obtain ⟨nonneg', above'⟩ := part (slot.range - slot.dutyCycle.toInt)
      (fun within => by have := small within; omega)
    obtain ⟨high, highEq⟩ := CInt.exists_toInt
      (z := Int.tdiv 10000000 slot.range * slot.dutyCycle.toInt) (by constructor <;> omega)
    obtain ⟨low, lowEq⟩ := CInt.exists_toInt
      (z := Int.tdiv 10000000 slot.range * (slot.range - slot.dutyCycle.toInt))
      (by constructor <;> omega)
    have range : CInt.Fits slot.range := by constructor <;> omega
    refine ⟨⟨range, pos⟩, high, low, ⟨range, pos.ne', highEq⟩, ⟨range, pos.ne', ?_, lowEq⟩, ?_⟩
    · have := duty.2
      by_cases within : slot.range ≤ 10000000
      · have := small within
        constructor <;> omega
      · constructor <;> omega
    · rw [highEq, lowEq]
      exact ⟨nonneg, above, nonneg', above'⟩

/-- A slot is timed exactly when its range takes its duty cycle. -/
theorem timed_iff (D : Driver) : D.Timed slot ↔ D.Takes slot.range slot.dutyCycle.toInt := by
  cases D with
  | softPWM => exact timed_soft
  | xenoPWM => exact timed_xeno

/-! ## Runs -/

def Sys.Timed (D : Driver) (s : Sys) : Prop :=
  ∀ (k : Nat) (t : Task), s.world.tasks[k]? = some t → t.pc ≠ .asleep →
    ∃ slot, s.world.dutyArray[t.pos]? = some slot ∧ D.Timed slot

/-- A new channel has a range that takes the duty cycle of its creation, and a
    `PWM_SET` sends a duty cycle that the range of the slot it finds takes. -/
def Driver.Timely (D : Driver) (w : World) (req : Request) (outcome : CreateOutcome) : Prop :=
  match req, outcome with
  | .pwmInit args, .created => D.Takes args.range D.creationDuty.toInt
  | .pwmSet pin duty, _ =>
      ∀ pos ∈ w.find pin, ∀ slot ∈ w.dutyArray[pos]?, D.Takes slot.range duty.toInt
  | _, _ => True

instance (D : Driver) (w : World) (req : Request) (outcome : CreateOutcome) :
    Decidable (D.Timely w req outcome) :=
  match req, outcome with
  | .pwmInit args, .created =>
      inferInstanceAs (Decidable (D.Takes args.range D.creationDuty.toInt))
  | .pwmSet pin duty, _ => inferInstanceAs
      (Decidable (∀ pos ∈ w.find pin, ∀ slot ∈ w.dutyArray[pos]?, D.Takes slot.range duty.toInt))
  | .pwmInit _, .failed _ | .pinSet .., _ | .gpioSet .., _ => .isTrue trivial

instance (D : Driver) : DecidableRel (OnRequest D.Timely)
  | s, .request req outcome => inferInstanceAs (Decidable (D.Timely s.world req outcome))
  | _, .statement | _, .task .. | _, .exit => .isTrue trivial

def Driver.InPeriod (D : Driver) (time : Option Int32) : Prop :=
  ∃ value, time = some value ∧ 0 ≤ value.toInt ∧ value.toInt ≤ D.period.toInt

variable {s s' : Sys} {label : Label} {tr tr' : List (Agent × Event)}

theorem Driver.Timed.sleepTime (timed : D.Timed slot) (phase : Phase) :
    D.InPeriod (D.sleepTime phase slot) := by
  obtain ⟨-, high, low, highEq, lowEq, nonneg, top, nonneg', top'⟩ := timed
  cases phase with
  | high => exact ⟨high, highEq, nonneg, top⟩
  | low => exact ⟨low, lowEq, nonneg', top'⟩

theorem timely_respects (timely : OnRequest D.Timely s label) : Respects D D.Timed s label := by
  cases label with
  | statement | task | exit => trivial
  | request req outcome =>
      cases req with
      | pinSet | gpioSet => trivial
      | pwmInit args =>
          rintro rfl
          exact (timed_iff D).mpr timely
      | pwmSet pin duty =>
          intro j below passed slot held same _
          exact (timed_iff D).mpr (timely j (find_first below passed held same) slot held)

/-- What is known of the sleeps after a trace. -/
structure OnTime (D : Driver) (tr : List (Agent × Event)) (s : Sys) : Prop where
  keeps : s.Keeps D D.Timed
  args : ∀ (k : Nat) (t : Task) phase args, s.world.tasks[k]? = some t → t.pc = .eval phase args →
    ∀ time ∈ args, D.InPeriod time
  sleeps : ∀ k phase args, (Agent.task k, Event.sleep phase args) ∈ tr →
    ∀ time ∈ args, D.InPeriod time

theorem OnTime.load (D : Driver) (gpio : Gpio) : OnTime D [] (Sys.load gpio) where
  keeps := Sys.load_keeps D _ gpio
  args := by simp [Sys.load, World.load]
  sleeps := by simp

theorem OnTime.grows {agent : Agent} {raw : List Event} (onTime : OnTime D tr s)
    (keeps : s'.Keeps D D.Timed) (grows : Grows s.world.tasks s'.world.tasks)
    (foreign : ∀ k, agent ≠ .task k) : OnTime D (tr ++ raw.map (agent, ·)) s' where
  keeps := keeps
  args := by
    intro k t phase args here pc
    cases before : s.world.tasks[k]? with
    | none =>
        rcases grows.fresh k t before here with fresh | fresh <;> simp [fresh] at pc
    | some t₀ =>
        obtain ⟨t', here', -, same | ⟨-, woken⟩⟩ := grows.kept k t₀ before
        · obtain rfl : t = t' := by simpa [here] using here'
          exact onTime.args k t₀ phase args before (same.symm.trans pc)
        · obtain rfl : t = t' := by simpa [here] using here'
          simp [woken] at pc
  sleeps := by
    intro k phase args member
    rcases List.mem_append.mp member with old | new
    · exact onTime.sleeps k phase args old
    · obtain ⟨_, -, same⟩ := List.mem_map.mp new
      exact absurd (congrArg Prod.fst same) (foreign k)

theorem Driver.Move.inPeriod {pos : Nat} {stop swap : Bool} {pc pc' : TaskPc} {raw : List Event}
    {level : Option Bool} (move : D.Move slot pos stop swap pc pc' raw level) (timed : D.Timed slot)
    (old : ∀ phase args, pc = .eval phase args → ∀ time ∈ args, D.InPeriod time) :
    (∀ phase args, pc' = .eval phase args → ∀ time ∈ args, D.InPeriod time) ∧
      ∀ phase args, .sleep phase args ∈ raw → ∀ time ∈ args, D.InPeriod time := by
  cases move with
  | entry | halt | goOn | set | clr => simp
  | @eval phase args _ =>
      refine ⟨?_, by simp⟩
      rintro _ _ ⟨⟩ time member
      rcases List.mem_append.mp member with earlier | new
      · exact old phase args rfl time earlier
      · rw [List.mem_singleton.mp new]
        exact timed.sleepTime phase
  | @sleep phase args _ =>
      constructor
      · intro _ _ next
        cases phase <;> cases next
      · intro phase' args' slept time member
        obtain ⟨rfl, rfl⟩ : phase' = phase ∧ args' = if swap then args.reverse else args := by
          simpa using slept
        refine old phase' args rfl time ?_
        cases swap <;> simpa using member

theorem OnTime.task {k : Nat} {swap : Bool} {t : Task} {pc : TaskPc} {raw : List Event}
    {level : Option Bool} (onTime : OnTime D tr s)
    (step : s.TaskStep D k swap tr' s' t slot pc raw level) (keeps : s'.Keeps D D.Timed) :
    OnTime D (tr ++ tr') s' := by
  obtain ⟨here, awake, -, rfl, held, -, move, rfl, rfl⟩ := step
  obtain ⟨_, held', timed⟩ := onTime.keeps.awake here awake
  obtain rfl := Option.some.inj (held.symm.trans held')
  obtain ⟨args, sleeps⟩ := move.inPeriod timed
    (fun phase args pc => onTime.args t.pos t phase args here pc)
  refine ⟨keeps, ?_, ?_⟩
  · intro j t' phase args' here' pc'
    by_cases same : t.pos = j
    · subst same
      obtain rfl : { t with pc := pc } = t' := by simpa [tasks_moved here] using here'
      exact args phase args' pc'
    · exact onTime.args j t' phase args' ((tasks_unmoved same).symm.trans here') pc'
  · intro j phase args' member
    rcases List.mem_append.mp member with earlier | new
    · exact onTime.sleeps j phase args' earlier
    · obtain ⟨e, slept, same⟩ := List.mem_map.mp new
      obtain rfl : e = .sleep phase args' := congrArg Prod.snd same
      exact sleeps phase args' slept

theorem OnTime.step (onTime : OnTime D tr s) (admitted : Admits s label)
    (timely : OnRequest D.Timely s label) (taken : s.step D label = some (.ok tr' s')) :
    OnTime D (tr ++ tr') s' := by
  have keeps := onTime.keeps.step admitted (timely_respects timely) taken
  rcases onTime.keeps.inv.moves taken with ⟨agent, raw, rfl, foreign, grows⟩ |
    ⟨k, swap, t, slot, pc, raw, level, step⟩
  · exact onTime.grows keeps grows foreign
  · exact onTime.task step keeps

/-- Between requests the tasks see the active slots. -/
theorem timed_seen (settled : s.world.tables.Settled) :
    s.Timed D ↔ ∀ slot ∈ s.world.channels, D.Timed slot := by
  constructor
  · intro timed slot member
    obtain ⟨k, below, held⟩ := mem_channels.mp member
    obtain ⟨t, here, rfl, awake⟩ := settled.task below
    obtain ⟨_, held', good⟩ := timed t.pos t here awake
    obtain rfl := Option.some.inj (held.symm.trans held')
    exact good
  · intro all k t here _
    obtain ⟨rfl, below⟩ := settled.task_pos here
    have inside : t.pos < maxPwmNum := Nat.lt_of_lt_of_le below settled.bound
    have held : s.world.dutyArray[t.pos]? = some s.world.dutyArray[t.pos] :=
      Vector.getElem?_eq_getElem inside
    exact ⟨_, held, all _ (mem_channels.mpr ⟨t.pos, below, held⟩)⟩

theorem timely_exact (w : World) (req : Request) (outcome : CreateOutcome)
    (all : ∀ slot ∈ w.channels, D.Timed slot) :
    (∀ slot ∈ req.onChannels D outcome w.channels, D.Timed slot) ↔ D.Timely w req outcome := by
  cases req with
  | pinSet | gpioSet => exact iff_of_true all trivial
  | pwmInit args =>
      cases outcome with
      | failed why => exact iff_of_true all trivial
      | created =>
          simp only [Request.onChannels, List.mem_append, List.mem_singleton, or_imp, forall_and,
            forall_eq]
          rw [and_iff_right all]
          exact timed_iff D
  | pwmSet pin duty =>
      simp only [Request.onChannels, Driver.Timely]
      rw [forall_mem_updateFirst all]
      constructor
      · intro changed pos found slot held
        have here := (getElem?_channels (find_inside found).1).trans held
        exact (timed_iff D).mp (changed pos slot found here)
      · intro timely pos slot found here
        rw [getElem?_channels (find_inside found).1] at here
        exact (timed_iff D).mpr (timely pos found slot here)

theorem timely_run {gpio : Gpio} {labels : List Label}
    (reach : D.system.Reaches (Sys.load gpio) labels tr s)
    (guarded : D.system.Guarded (fun s l => Admits s l ∧ OnRequest D.Timely s l) (Sys.load gpio)
      labels) :
    s.Timed D ∧ ∀ k phase args, (Agent.task k, Event.sleep phase args) ∈ tr →
      ∀ time ∈ args, D.InPeriod time := by
  have onTime : OnTime D tr s :=
    reach.guarded_induction (Q := OnTime D) guarded (OnTime.load D gpio)
      (fun onTime here taken => onTime.step here.1 here.2 taken)
  exact ⟨fun k t here awake => onTime.keeps.awake here awake, onTime.sleeps⟩

/-- With whole requests nothing less than timely requests keeps it. -/
theorem timely_always_iff {gpio : Gpio} {labels : List Label}
    (served : D.serial.Guarded (Served D) (Sys.load gpio) labels) :
    D.serial.Always (Sys.Timed D) (Sys.load gpio) labels ↔
      D.serial.Guarded (OnRequest D.Timely) (Sys.load gpio) labels :=
  serial_always_iff (R := fun slots => ∀ slot ∈ slots, D.Timed slot) (by simp)
    (fun _ settled => timed_seen settled)
    (fun w req outcome _ all => timely_exact w req outcome all) served

/-- If every request is timely, every task that is awake finds a positive divisor and
    times within the period in its slot, and sleeps for such times only, in whatever
    order the steps come.  With whole requests the condition is exact. -/
theorem times_within_period (D : Driver) (gpio : Gpio) (labels : List Label) :
    (∀ tr s, D.system.Reaches (Sys.load gpio) labels tr s →
      D.system.Guarded (fun s l => Admits s l ∧ OnRequest D.Timely s l) (Sys.load gpio) labels →
      s.Timed D ∧ ∀ k phase args, (Agent.task k, Event.sleep phase args) ∈ tr →
        ∀ time ∈ args, D.InPeriod time) ∧
    (D.serial.Guarded (Served D) (Sys.load gpio) labels →
      (D.serial.Always (Sys.Timed D) (Sys.load gpio) labels ↔
        D.serial.Guarded (OnRequest D.Timely) (Sys.load gpio) labels)) :=
  ⟨fun _ _ reach guarded => timely_run reach guarded, timely_always_iff⟩

/-- A channel of range 100 at half duty cycle, up to the first sleep of its task. -/
theorem times_within_period_half :
    (∃ tr s, Driver.softPWM.system.Reaches (Sys.load .reset)
        (Driver.softPWM.openSchedule ⟨16, 0, 100⟩ ++
          [.request (.pwmSet 16 50) .created, .statement] ++ List.replicate 5 (.task 0 false)) tr s ∧
      (Agent.task 0, Event.sleep .high [some 5000, some 5000]) ∈ tr ∧ s.Timed .softPWM ∧
      Driver.softPWM.InPeriod (some 5000)) ∧
    Driver.xenoPWM.serial.Always (Sys.Timed .xenoPWM) (Sys.load .reset)
      [.request (.pwmInit ⟨16, 0, 100⟩) .created, .request (.pwmSet 16 50) .created,
        .task 0 false] := by
  constructor
  · obtain ⟨tr, s, reach, slept⟩ := Machine.exists_reaches Driver.softPWM.system (Sys.load .reset)
      (Driver.softPWM.openSchedule ⟨16, 0, 100⟩ ++
        [.request (.pwmSet 16 50) .created, .statement] ++ List.replicate 5 (.task 0 false))
      (fun tr _ => tr.contains (Agent.task 0, Event.sleep .high [some 5000, some 5000]))
      (by decide)
    rw [List.contains_iff_mem] at slept
    have timely : Driver.softPWM.system.Guarded (OnRequest Driver.softPWM.Timely) (Sys.load .reset)
        (Driver.softPWM.openSchedule ⟨16, 0, 100⟩ ++
          [.request (.pwmSet 16 50) .created, .statement] ++ List.replicate 5 (.task 0 false)) :=
      Machine.guarded_of_checks (fun _ _ => of_decide_eq_true) (by decide)
    obtain ⟨timed, sleeps⟩ := (times_within_period .softPWM .reset _).1 tr s reach
      ((Sys.few_admitted _ _ (by decide)).and timely)
    exact ⟨tr, s, reach, slept, timed, sleeps 0 .high _ slept _ (by simp)⟩
  · refine ((times_within_period .xenoPWM .reset _).2 ?_).mpr ?_
    · exact Machine.guarded_of_checks (fun _ _ => of_decide_eq_true) (by decide)
    · exact Machine.guarded_of_checks (fun _ _ => of_decide_eq_true) (by decide)

theorem not_timed {k : Nat} {t : Task} (here : s.world.tasks[k]? = some t) (awake : t.pc ≠ .asleep)
    (held : s.world.dutyArray[t.pos]? = some slot)
    (bad : ¬ D.Takes slot.range slot.dutyCycle.toInt) : ¬ s.Timed D := by
  intro timed
  obtain ⟨_, held', good⟩ := timed k t here awake
  obtain rfl := Option.some.inj (held.symm.trans held')
  exact bad ((timed_iff D).mp good)

/-- A channel with equal bounds, up to the first `HIGH_TIME` of its task. -/
def Driver.zeroRangeSchedule (D : Driver) : List Label :=
  D.openSchedule ⟨16, 0, 0⟩ ++ List.replicate 4 (.task 0 false)

theorem zeroRangeSchedule_runs (D : Driver) :
    ∃ tr s t args, D.system.Reaches (Sys.load .reset) D.zeroRangeSchedule tr s ∧
      (Agent.client, Event.ret 0) ∈ tr ∧ s.world.tasks[0]? = some t ∧
      t.pc = .eval .high (none :: args) ∧ ¬ s.Timed D := by
  obtain ⟨tr, s, reach, passed⟩ := Machine.exists_reaches D.system (Sys.load .reset)
    D.zeroRangeSchedule
    (fun tr s => tr.contains (Agent.client, Event.ret 0) &&
      (s.world.tasks[0]?.map fun t => (t.pos, t.pc)) ==
        some (0, .eval .high (List.replicate D.sleepArity none)) &&
      s.world.dutyArray[0]? == some (D.fresh ⟨16, 0, 0⟩)) (by cases D <;> decide)
  simp only [Bool.and_eq_true, List.contains_iff_mem, beq_iff_eq] at passed
  obtain ⟨⟨accepted, task⟩, held⟩ := passed
  obtain ⟨t, here, same⟩ := Option.map_eq_some_iff.mp task
  obtain ⟨pos, pc⟩ := Prod.mk.inj same
  refine ⟨tr, s, t, List.replicate (D.sleepArity - 1) none, reach, accepted, here, ?_, ?_⟩
  · rw [pc]
    cases D <;> rfl
  · exact not_timed here (by simp [pc]) (pos ▸ held) (by cases D <;> decide)

/-- A channel with equal bounds is accepted, and its task divides by zero. -/
theorem zero_range_is_accepted :
    (∃ tr s t args, Driver.softPWM.system.Reaches (Sys.load .reset)
        Driver.softPWM.zeroRangeSchedule tr s ∧ (Agent.client, Event.ret 0) ∈ tr ∧
      s.world.tasks[0]? = some t ∧ t.pc = .eval .high (none :: args) ∧ ¬ s.Timed .softPWM) ∧
    ∃ tr s t args, Driver.xenoPWM.system.Reaches (Sys.load .reset)
        Driver.xenoPWM.zeroRangeSchedule tr s ∧ (Agent.client, Event.ret 0) ∈ tr ∧
      s.world.tasks[0]? = some t ∧ t.pc = .eval .high (none :: args) ∧ ¬ s.Timed .xenoPWM :=
  ⟨zeroRangeSchedule_runs .softPWM, zeroRangeSchedule_runs .xenoPWM⟩

end KsoftPWM
