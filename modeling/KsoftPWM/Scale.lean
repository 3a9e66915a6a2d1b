import KsoftPWM.Requests
import KsoftPWM.Timing

/-! # The scale of a channel

A channel is opened with a minimum and a maximum, and a value between them asks for its
part of the period.  The macros take the range from both bounds but use the value as it
was sent, so the scale that a channel really has begins at zero: it is the one asked for
exactly if the minimum is zero.
-/

namespace KsoftPWM

/-- The pulse of a value on the scale from the minimum to the maximum. -/
def Driver.pulse (D : Driver) (slot : Dutycycle) (value : Int32) : Int :=
  match D with
  | .softPWM => periodUs.toInt * (value.toInt - slot.min.toInt) / slot.range
  | .xenoPWM => periodNs.toInt / slot.range * (value.toInt - slot.min.toInt)

/-- The slot makes its task ask for the pulse of the value: none at the minimum, all of the
    period at the maximum, and never a negative rest. -/
def Driver.OnScale (D : Driver) (slot : Dutycycle) (value : Int32) : Prop :=
  ∃ high low, D.highTime slot = some high ∧ D.lowTime slot = some low ∧
    high.toInt = D.pulse slot value ∧ (value = slot.min → high = 0) ∧
    (value = slot.max → low = 0) ∧ 0 ≤ low.toInt

variable {D : Driver} {slot entry : Dutycycle} {pin : Int32} {pos : Nat}

/-! ## The macros -/

theorem onScale_of_zero (D : Driver) (slot : Dutycycle) (zero : slot.min = 0) (positive : 0 < slot.range)
    (small : slot.range ≤ 214748) (nonneg : 0 ≤ slot.dutyCycle.toInt)
    (inScale : slot.dutyCycle.toInt ≤ slot.range) : D.OnScale slot slot.dutyCycle := by
  have min : slot.min.toInt = 0 := by rw [zero, Int32.toInt_zero]
  have max : slot.max.toInt = slot.range := by rw [Dutycycle.range, min, sub_zero]
  cases D with
  | softPWM =>
      have period : periodUs.toInt = 10000 := by decide
      obtain ⟨high, low, highEq, lowEq, h_eq, l_eq⟩ :=
        soft_times slot positive nonneg inScale (by omega) (by omega)
      refine ⟨high, low, highEq, lowEq, ?_, fun bottom => ?_, fun top => ?_, ?_⟩
      · rw [h_eq, Driver.pulse, period, min, sub_zero]
      · refine Int32.toInt_inj.mp (h_eq.trans ?_)
        rw [bottom, min, mul_zero, Int.zero_ediv, Int32.toInt_zero]
      · refine Int32.toInt_inj.mp (l_eq.trans ?_)
        rw [top, max, sub_self, mul_zero, Int.zero_ediv, Int32.toInt_zero]
      · rw [l_eq]
        exact Int.ediv_nonneg (by omega) positive.le
  | xenoPWM =>
      have period : periodNs.toInt = 10000000 := by decide
      have fits : CInt.Fits slot.range := by constructor <;> omega
      obtain ⟨high, low, highEq, lowEq, h_eq, l_eq⟩ := xeno_times slot fits positive nonneg inScale
      refine ⟨high, low, highEq, lowEq, ?_, fun bottom => ?_, fun top => ?_, ?_⟩
      · rw [h_eq, Driver.pulse, period, min, sub_zero]
      · refine Int32.toInt_inj.mp (h_eq.trans ?_)
        rw [bottom, min, mul_zero, Int32.toInt_zero]
      · refine Int32.toInt_inj.mp (l_eq.trans ?_)
        rw [top, max, sub_self, mul_zero, Int32.toInt_zero]
      · rw [l_eq]
        exact mul_nonneg (Int.ediv_nonneg (by decide) positive.le) (by omega)

/-- softPWM: the maximum gives the whole period only if the minimum is not negative and
    small, and then the range itself, which is a value of the scale, gives the whole period
    only if the minimum is not positive. -/
theorem min_zero_of_soft (positive : 0 < slot.range) (small : slot.range ≤ 214748)
    (onScale : ∀ value : Int32, slot.min.toInt ≤ value.toInt → value.toInt ≤ slot.max.toInt →
      Driver.softPWM.OnScale { slot with dutyCycle := value } value) : slot.min = 0 := by
  have period : periodUs.toInt = 10000 := by decide
  have bounds : slot.max.toInt = slot.range + slot.min.toInt := by
    rw [Dutycycle.range]
    omega
  have pulse : ∀ value : Int32, slot.min.toInt ≤ value.toInt → value.toInt ≤ slot.max.toInt →
      (10000 * value.toInt).tdiv slot.range =
        10000 * (value.toInt - slot.min.toInt) / slot.range := by
    intro value low high
    obtain ⟨time, _, highEq, -, time_eq, -⟩ := onScale value low high
    obtain ⟨-, -, -, time_eq'⟩ := highTime_soft.mp highEq
    change time.toInt = (10000 * value.toInt).tdiv slot.range at time_eq'
    change time.toInt = periodUs.toInt * (value.toInt - slot.min.toInt) / slot.range at time_eq
    rw [← time_eq', time_eq, period]
  have whole : (10000 * slot.max.toInt).tdiv slot.range = 10000 := by
    rw [pulse slot.max (by omega) (Int.le_refl _), bounds, add_sub_cancel_right,
      Int.mul_ediv_cancel _ positive.ne']
  have notAbove := (CInt.tdiv_le_iff (k := 10000) positive (by decide)).mp whole.le
  have notBelow : ¬ (10000 * slot.max.toInt).tdiv slot.range ≤ 9999 := by omega
  rw [CInt.tdiv_le_iff positive (by decide)] at notBelow
  obtain ⟨range, range_eq⟩ := CInt.exists_toInt (z := slot.range) (by constructor <;> omega)
  have again := pulse range (by omega) (by omega)
  rw [range_eq, Int.tdiv_eq_ediv_of_nonneg (by omega), Int.mul_ediv_cancel _ positive.ne'] at again
  have notLess := (Int.le_ediv_iff_mul_le positive).mp again.le
  exact Int32.toInt_inj.mp (by rw [Int32.toInt_zero]; omega)

/-- xenoPWM: a unit of duty cycle takes some time, so any offset shows. -/
theorem min_zero_of_xeno (positive : 0 < slot.range) (small : slot.range ≤ 214748)
    (onScale : Driver.xenoPWM.OnScale { slot with dutyCycle := slot.max } slot.max) :
    slot.min = 0 := by
  have period : periodNs.toInt = 10000000 := by decide
  have unit : 0 < 10000000 / slot.range :=
    Int.lt_of_lt_of_le Int.one_pos ((Int.le_ediv_iff_mul_le positive).mpr (by omega))
  obtain ⟨high, _, highEq, -, h_eq, -⟩ := onScale
  obtain ⟨-, -, h_eq'⟩ := highTime_xeno.mp highEq
  change high.toInt = Int.tdiv 10000000 slot.range * slot.max.toInt at h_eq'
  change high.toInt = periodNs.toInt / slot.range * (slot.max.toInt - slot.min.toInt) at h_eq
  rw [Int.tdiv_eq_ediv_of_nonneg (by decide), h_eq, period] at h_eq'
  have same := mul_left_cancel₀ unit.ne' h_eq'
  exact Int32.toInt_inj.mp (by rw [Int32.toInt_zero]; omega)

theorem onScale_iff (D : Driver) (positive : 0 < slot.range) (small : slot.range ≤ 214748) :
    (∀ value : Int32, slot.min.toInt ≤ value.toInt → value.toInt ≤ slot.max.toInt →
      D.OnScale { slot with dutyCycle := value } value) ↔ slot.min = 0 := by
  constructor
  · intro onScale
    cases D with
    | softPWM => exact min_zero_of_soft positive small onScale
    | xenoPWM =>
        have bounds : slot.max.toInt = slot.range + slot.min.toInt := by
          rw [Dutycycle.range]
          omega
        exact min_zero_of_xeno positive small (onScale slot.max (by omega) (Int.le_refl _))
  · intro zero value low high
    have min : slot.min.toInt = 0 := by rw [zero, Int32.toInt_zero]
    have max : slot.max.toInt = slot.range := by rw [Dutycycle.range, min, sub_zero]
    refine onScale_of_zero D { slot with dutyCycle := value } zero positive small ?_ ?_
    · exact min ▸ low
    · exact max ▸ high

/-! ## Runs -/

theorem findIdx?_pwmSet (slots : List Dutycycle) (outcome : CreateOutcome) (pin pin' duty : Int32) :
    ((Request.pwmSet pin' duty).onChannels D outcome slots).findIdx? (fun slot => slot.pin = pin) =
      slots.findIdx? fun slot => slot.pin = pin :=
  findIdx?_updateFirst (f := fun slot : Dutycycle => { slot with dutyCycle := duty }) fun _ => rfl

theorem onChannels_kept {slots : List Dutycycle} {req : Request} (outcome : CreateOutcome)
    (found : slots.findIdx? (fun slot => slot.pin = pin) = some pos)
    (here : slots[pos]? = some entry) (other : ∀ duty, req ≠ .pwmSet pin duty) :
    (req.onChannels D outcome slots).findIdx? (fun slot => slot.pin = pin) = some pos ∧
      (req.onChannels D outcome slots)[pos]? = some entry := by
  have inside := (List.getElem?_eq_some_iff.mp here).1
  cases req with
  | pinSet | gpioSet => exact ⟨found, here⟩
  | pwmInit args =>
      cases outcome with
      | failed why => exact ⟨found, here⟩
      | created =>
          refine ⟨?_, ?_⟩
          · simp only [Request.onChannels, List.findIdx?_append, found, Option.some_or]
          · simp only [Request.onChannels, List.getElem?_append_left inside, here]
  | pwmSet pin' duty =>
      have different : pin' ≠ pin := by
        rintro rfl
        exact other duty rfl
      constructor
      · rw [findIdx?_pwmSet, found]
      · rw [Request.onChannels, updateFirst_getElem?, if_neg, here]
        intro first
        obtain ⟨_, matched, -⟩ := List.findIdx?_eq_some_iff_getElem.mp found
        obtain ⟨_, matched', -⟩ := List.findIdx?_eq_some_iff_getElem.mp first
        exact different ((of_decide_eq_true matched').symm.trans (of_decide_eq_true matched))

variable {s s' : Sys} {labels : List Label} {tr : List (Agent × Event)}

theorem kept_until_next (inv : s.Inv D) (idle : s.call = none) (found : s.world.find pin = some pos)
    (here : s.world.channels[pos]? = some entry) (reach : D.serial.Reaches s labels tr s')
    (quiet : ∀ duty outcome, .request (.pwmSet pin duty) outcome ∉ labels) :
    s'.world.find pin = some pos ∧ s'.world.channels[pos]? = some entry := by
  have other : D.serial.Guarded
      (fun _ l => ∀ duty outcome, l ≠ .request (.pwmSet pin duty) outcome) s labels :=
    Machine.Guarded.of_forall fun l member _ duty outcome same =>
      quiet duty outcome (same ▸ member)
  have kept := reach.guarded_invariant other
    (I := fun s => s.Inv D ∧ s.call = none ∧ s.world.find pin = some pos ∧
      s.world.channels[pos]? = some entry) ⟨inv, idle, found, here⟩ (by
    rintro s label tr s' ⟨inv, idle, found, here⟩ other taken
    obtain ⟨inv', idle', channels⟩ := serialStep_ok inv idle taken
    refine ⟨inv', idle', ?_⟩
    rw [World.find, channels]
    cases label with
    | request req outcome =>
        exact onChannels_kept outcome found here fun duty same => other duty outcome (same ▸ rfl)
    | statement | task | exit => exact ⟨found, here⟩)
  exact kept.2.2

/-- A value sent to a pin is what its first slot holds until the next one is sent. -/
theorem sent_until_next {value : Int32} {outcome : CreateOutcome} (inv : s.Inv D)
    (idle : s.call = none) (found : s.world.find pin = some pos)
    (held : s.world.dutyArray[pos]? = some slot)
    (reach : D.serial.Reaches s (.request (.pwmSet pin value) outcome :: labels) tr s')
    (quiet : ∀ duty outcome, .request (.pwmSet pin duty) outcome ∉ labels) :
    s'.world.dutyArray[pos]? = some { slot with dutyCycle := value } := by
  obtain ⟨first, s₁, rest, taken, onward, rfl⟩ := Machine.reaches_cons.mp reach
  obtain ⟨inv₁, idle₁, channels⟩ := serialStep_ok inv idle taken
  replace channels : s₁.world.channels =
      (Request.pwmSet pin value).onChannels D outcome s.world.channels := channels
  have found₁ : s₁.world.find pin = some pos := by
    rw [World.find, channels, findIdx?_pwmSet]
    exact found
  have here₁ : s₁.world.channels[pos]? = some { slot with dutyCycle := value } := by
    have first : s.world.channels.findIdx? (fun slot => slot.pin = pin) = some pos := found
    rw [channels, Request.onChannels, updateFirst_getElem?, if_pos first,
      getElem?_channels (find_inside found).1, held]
    rfl
  obtain ⟨found', here'⟩ := kept_until_next inv₁ idle₁ found₁ here₁ onward quiet
  rw [← here', getElem?_channels (find_inside found').1]

/-- In either driver, a channel puts every value between its minimum and its maximum on
    that scale, from the `PWM_SET` to the next one for the pin, exactly if its minimum is
    zero. -/
theorem value_scale_iff (D : Driver) (gpio : Gpio) (labels : List Label)
    (tr : List (Agent × Event)) (s : Sys) (pin : Int32) (pos : Nat) (slot : Dutycycle)
    (reach : D.serial.Reaches (Sys.load gpio) labels tr s)
    (accepts : D.accepts s.exit = true) (found : s.world.find pin = some pos)
    (held : s.world.dutyArray[pos]? = some slot) (ordered : slot.min.toInt < slot.max.toInt)
    (small : slot.max.toInt - slot.min.toInt ≤ 214748) :
    (∀ value outcome labels' tr' s', slot.min.toInt ≤ value.toInt → value.toInt ≤ slot.max.toInt →
      D.serial.Reaches s (.request (.pwmSet pin value) outcome :: labels') tr' s' →
      (∀ value' outcome', .request (.pwmSet pin value') outcome' ∉ labels') →
      ∃ slot', s'.world.dutyArray[pos]? = some slot' ∧ slot'.min = slot.min ∧
        slot'.max = slot.max ∧ D.OnScale slot' value) ↔
    slot.min = 0 := by
  have positive : 0 < slot.range := by
    rw [Dutycycle.range]
    omega
  obtain ⟨inv, idle⟩ := serial_reaches_inv (Sys.load_inv D gpio) rfl reach
  rw [← onScale_iff D positive small]
  constructor
  · intro onScale value low high
    have admitted : Served D s (.request (.pwmSet pin value) .created) := by
      refine ⟨trivial, ?_⟩
      simp [Driver.serial, Sys.serialStep, idle, accepts]
    obtain ⟨tr', s', step, -⟩ := serialStep_channels inv idle admitted
    have sent : D.serial.Reaches s [.request (.pwmSet pin value) .created] tr' s' :=
      Machine.reaches_single.mpr step
    obtain ⟨slot', held', -, -, good⟩ := onScale value .created [] tr' s' low high sent (by simp)
    have entry := sent_until_next inv idle found held sent (by simp)
    obtain rfl := Option.some.inj (entry.symm.trans held')
    exact good
  · intro onScale value outcome labels' tr' s' low high sent quiet
    exact ⟨_, sent_until_next inv idle found held sent quiet, rfl, rfl, onScale value low high⟩

/-- A quarter of the scale of a channel from zero to a hundred. -/
theorem value_scale_iff_quarter :
    ∃ tr s tr' s' slot', Driver.softPWM.serial.Reaches (Sys.load .reset)
        [.request (.pwmInit ⟨16, 0, 100⟩) .created] tr s ∧
      Driver.softPWM.serial.Reaches s [.request (.pwmSet 16 25) .created] tr' s' ∧
      s'.world.dutyArray[0]? = some slot' ∧ Driver.softPWM.OnScale slot' 25 := by
  obtain ⟨tr, s, reach, passed⟩ := Machine.exists_reaches Driver.softPWM.serial (Sys.load .reset)
    [.request (.pwmInit ⟨16, 0, 100⟩) .created]
    (fun _ s => s.exit == .idle && s.world.find 16 == some 0 &&
      s.world.dutyArray[0]? == some (Driver.softPWM.fresh ⟨16, 0, 100⟩) &&
      (Driver.softPWM.serial.run s [.request (.pwmSet 16 25) .created]).any
        (Traced.holds fun _ _ => true)) (by decide)
  simp only [Bool.and_eq_true, beq_iff_eq] at passed
  obtain ⟨⟨⟨idle, found⟩, held⟩, runs⟩ := passed
  obtain ⟨tr', s', sent, -⟩ := Machine.exists_reaches _ _ _ _ runs
  have scale := (value_scale_iff .softPWM .reset _ tr s 16 0 _ reach (by rw [idle]; decide)
    found held (by decide) (by decide)).mpr rfl
  obtain ⟨slot', held', -, -, good⟩ := scale 25 .created [] tr' s' (by decide) (by decide) sent
    (by simp)
  exact ⟨tr, s, tr', s', slot', reach, sent, held', good⟩

theorem offset_scale_misses (D : Driver) {high low : Int32}
    (highEq : D.highTime ⟨16, 150, 50, 150⟩ = some high)
    (lowEq : D.lowTime ⟨16, 150, 50, 150⟩ = some low) (negative : low.toInt < 0) :
    ∃ tr s slot, D.serial.Reaches (Sys.load .reset)
        [.request (.pwmInit ⟨16, 50, 150⟩) .created, .request (.pwmSet 16 150) .created] tr s ∧
      s.world.dutyArray[0]? = some slot ∧ D.highTime slot = some high ∧
      D.lowTime slot = some low ∧ ¬ D.OnScale slot 150 := by
  obtain ⟨tr, s, reach, held⟩ := Machine.exists_reaches D.serial (Sys.load .reset)
    [.request (.pwmInit ⟨16, 50, 150⟩) .created, .request (.pwmSet 16 150) .created]
    (fun _ s => s.world.dutyArray[0]? == some ⟨16, 150, 50, 150⟩) (by cases D <;> decide)
  refine ⟨tr, s, _, reach, beq_iff_eq.mp held, highEq, lowEq, ?_⟩
  rintro ⟨_, low', -, lowEq', -, -, -, nonneg⟩
  obtain rfl := Option.some.inj (lowEq.symm.trans lowEq')
  omega

/-- The maximum of a channel from 50 to 150 asks for one and a half periods, and for a
    negative rest. -/
theorem maximum_of_offset_scale_overshoots :
    (∃ tr s slot, Driver.softPWM.serial.Reaches (Sys.load .reset)
        [.request (.pwmInit ⟨16, 50, 150⟩) .created, .request (.pwmSet 16 150) .created] tr s ∧
      s.world.dutyArray[0]? = some slot ∧ Driver.softPWM.highTime slot = some 15000 ∧
      Driver.softPWM.lowTime slot = some (-5000) ∧ ¬ Driver.softPWM.OnScale slot 150) ∧
    ∃ tr s slot, Driver.xenoPWM.serial.Reaches (Sys.load .reset)
        [.request (.pwmInit ⟨16, 50, 150⟩) .created, .request (.pwmSet 16 150) .created] tr s ∧
      s.world.dutyArray[0]? = some slot ∧ Driver.xenoPWM.highTime slot = some 15000000 ∧
      Driver.xenoPWM.lowTime slot = some (-5000000) ∧ ¬ Driver.xenoPWM.OnScale slot 150 :=
  ⟨offset_scale_misses .softPWM (by decide) (by decide) (by decide),
    offset_scale_misses .xenoPWM (by decide) (by decide) (by decide)⟩

end KsoftPWM
