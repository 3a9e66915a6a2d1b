import Mathlib.Tactic.Ring
import KsoftPWM.Timing

/-! # The pulses of the two drivers

What an iteration asks for when the duty cycle lies between zero and the range.
softPWM multiplies first: its products overflow for long ranges, and its two floors
together miss the period by a microsecond unless they are exact.  xenoPWM divides
first: nothing overflows and the ratio of the two halves is exact, but the period is
cut down to a multiple of the range, in the end to nothing.
-/

namespace KsoftPWM

variable {slot : Dutycycle} {range : Int32}

theorem range_of_pwmRange (value : pwmRange slot = some range) : slot.range = range.toInt := by
  rw [pwmRange, CInt.sub_eq_some] at value
  exact value.symm

/-- With a positive range the division never overflows: a time has a value exactly when its
    product has. -/
theorem soft_times_isSome (pos : 0 < slot.range)
    (nonneg : 0 ≤ slot.dutyCycle.toInt) (inScale : slot.dutyCycle.toInt ≤ slot.range) :
    ((Driver.softPWM.highTime slot).isSome ∧ (Driver.softPWM.lowTime slot).isSome) ↔
      slot.dutyCycle.toInt ≤ 214748 ∧ slot.range - slot.dutyCycle.toInt ≤ 214748 := by
  constructor
  · rintro ⟨high, low⟩
    obtain ⟨h, high⟩ := Option.isSome_iff_exists.mp high
    obtain ⟨l, low⟩ := Option.isSome_iff_exists.mp low
    obtain ⟨-, -, product, -⟩ := highTime_soft.mp high
    obtain ⟨-, -, -, product', -⟩ := lowTime_soft.mp low
    exact (soft_products_fit nonneg inScale).mp ⟨product, product'⟩
  · rintro ⟨high, low⟩
    obtain ⟨h, l, highEq, lowEq, -⟩ := soft_times slot pos nonneg inScale high low
    rw [highEq, lowEq]
    exact ⟨rfl, rfl⟩

/-- softPWM's products are `int`s exactly up to 214748 units on either side of the duty
    cycle, and then its times are the floors of their parts of the period, which together
    make the period or miss it by one microsecond. -/
theorem soft_timing_exact (slot : Dutycycle) (range : Int32) (value : pwmRange slot = some range)
    (pos : 0 < range.toInt) (nonneg : 0 ≤ slot.dutyCycle.toInt)
    (inScale : slot.dutyCycle.toInt ≤ range.toInt) :
    (CInt.Fits (periodUs.toInt * slot.dutyCycle.toInt) ∧
        CInt.Fits (periodUs.toInt * (range.toInt - slot.dutyCycle.toInt)) ↔
      slot.dutyCycle.toInt ≤ 214748 ∧ range.toInt - slot.dutyCycle.toInt ≤ 214748) ∧
    ((Driver.softPWM.highTime slot).isSome ∧ (Driver.softPWM.lowTime slot).isSome ↔
      slot.dutyCycle.toInt ≤ 214748 ∧ range.toInt - slot.dutyCycle.toInt ≤ 214748) ∧
    ∀ high low, Driver.softPWM.highTime slot = some high → Driver.softPWM.lowTime slot = some low →
      high.toInt = 10000 * slot.dutyCycle.toInt / range.toInt ∧
      low.toInt = 10000 * (range.toInt - slot.dutyCycle.toInt) / range.toInt ∧
      (0 ≤ high.toInt ∧ high.toInt ≤ 10000) ∧ (0 ≤ low.toInt ∧ low.toInt ≤ 10000) ∧
      high.toInt + low.toInt =
        if range.toInt ∣ 10000 * slot.dutyCycle.toInt then 10000 else 9999 := by
  have same := range_of_pwmRange value
  have period : periodUs.toInt = 10000 := by decide
  rw [period]
  rw [← same] at pos inScale ⊢
  have exists_iff := soft_times_isSome pos nonneg inScale
  refine ⟨soft_products_fit nonneg inScale, exists_iff, fun high low highEq lowEq => ?_⟩
  obtain ⟨small, rest⟩ := exists_iff.mp ⟨by rw [highEq]; rfl, by rw [lowEq]; rfl⟩
  obtain ⟨h, l, highEq', lowEq', h_eq, l_eq⟩ := soft_times slot pos nonneg inScale small rest
  obtain rfl := Option.some.inj (highEq.symm.trans highEq')
  obtain rfl := Option.some.inj (lowEq.symm.trans lowEq')
  have total := CInt.ediv_add_ediv_rest (10000 * slot.dutyCycle.toInt) 10000 pos
  rw [← Int.mul_sub, ← h_eq, ← l_eq] at total
  have high_nonneg : 0 ≤ high.toInt := h_eq ▸ Int.ediv_nonneg (by omega) pos.le
  have low_nonneg : 0 ≤ low.toInt := l_eq ▸ Int.ediv_nonneg (by omega) pos.le
  simp only [Int.dvd_iff_emod_eq_zero]
  refine ⟨h_eq, l_eq, ⟨high_nonneg, ?_⟩, ⟨low_nonneg, ?_⟩, total⟩
  · split at total <;> omega
  · split at total <;> omega

/-- A third of the period: the two floors miss it by one. -/
theorem soft_timing_exact_third :
    Driver.softPWM.highTime ⟨16, 1, 0, 3⟩ = some 3333 ∧
      Driver.softPWM.lowTime ⟨16, 1, 0, 3⟩ = some 6666 ∧
      (3333 : Int32).toInt + (6666 : Int32).toInt = 9999 := by
  refine ⟨by decide, by decide, ?_⟩
  obtain ⟨-, -, times⟩ := soft_timing_exact ⟨16, 1, 0, 3⟩ 3 (by decide) (by decide) (by decide)
    (by decide)
  obtain ⟨-, -, -, -, total⟩ := times 3333 6666 (by decide) (by decide)
  rw [total, if_neg (by decide)]

/-- What xenoPWM's two times come to: the period less its remainder by the range. -/
theorem xeno_total {r high low duty : Int} (highEq : high = 10000000 / r * duty)
    (lowEq : low = 10000000 / r * (r - duty)) : high + low = 10000000 - 10000000 % r := by
  have split := Int.emod_add_mul_ediv 10000000 r
  rw [highEq, lowEq]
  linear_combination split

theorem half_period_lt {r : Int} (pos : 0 < r) (short : r ≤ 10000000) :
    5000000 < 10000000 - 10000000 % r := by
  have split := Int.emod_add_mul_ediv 10000000 r
  have lost := Int.emod_lt_of_pos 10000000 pos
  have one : 1 ≤ 10000000 / r := (Int.le_ediv_iff_mul_le pos).mpr (by omega)
  have once : r * 1 ≤ r * (10000000 / r) := mul_le_mul_of_nonneg_left one pos.le
  omega

theorem xeno_silent (slot : Dutycycle) (fits : CInt.Fits slot.range) (long : 10000000 < slot.range)
    (nonneg : 0 ≤ slot.dutyCycle.toInt) (inScale : slot.dutyCycle.toInt ≤ slot.range) :
    Driver.xenoPWM.highTime slot = some 0 ∧ Driver.xenoPWM.lowTime slot = some 0 := by
  have unit : 10000000 / slot.range = 0 := Int.ediv_eq_zero_of_lt (by decide) long
  obtain ⟨h, l, highEq, lowEq, h_eq, l_eq⟩ := xeno_times slot fits (by omega) nonneg inScale
  rw [unit, zero_mul] at h_eq l_eq
  obtain rfl : h = 0 := Int32.toInt_inj.mp h_eq
  obtain rfl : l = 0 := Int32.toInt_inj.mp l_eq
  exact ⟨highEq, lowEq⟩

/-- xenoPWM's times have values for every duty cycle in scale and stand in the exact ratio;
    their sum is the period less its remainder by the range, more than half the period up to
    a range of the period, and beyond that the task does not sleep at all. -/
theorem xeno_timing_exact (slot : Dutycycle) (range : Int32) (value : pwmRange slot = some range)
    (pos : 0 < range.toInt) (nonneg : 0 ≤ slot.dutyCycle.toInt)
    (inScale : slot.dutyCycle.toInt ≤ range.toInt) :
    (∃ high low, Driver.xenoPWM.highTime slot = some high ∧
      Driver.xenoPWM.lowTime slot = some low ∧
      high.toInt * range.toInt = slot.dutyCycle.toInt * (high.toInt + low.toInt) ∧
      high.toInt + low.toInt = periodNs.toInt - periodNs.toInt % range.toInt ∧
      (range.toInt ≤ periodNs.toInt → periodNs.toInt / 2 < high.toInt + low.toInt ∧
        high.toInt + low.toInt ≤ periodNs.toInt)) ∧
    ((∀ duty : Int32, 0 ≤ duty.toInt → duty.toInt ≤ range.toInt →
      Driver.xenoPWM.highTime { slot with dutyCycle := duty } = some 0 ∧
      Driver.xenoPWM.lowTime { slot with dutyCycle := duty } = some 0) ↔
        periodNs.toInt < range.toInt) := by
  have same := range_of_pwmRange value
  have fits := CInt.fits_toInt range
  have period : periodNs.toInt = 10000000 := by decide
  rw [period]
  rw [← same] at pos inScale fits ⊢
  obtain ⟨high, low, highEq, lowEq, h_eq, l_eq⟩ := xeno_times slot fits pos nonneg inScale
  have total := xeno_total h_eq l_eq
  have lost := Int.emod_nonneg 10000000 pos.ne'
  refine ⟨⟨high, low, highEq, lowEq, ?_, total, fun short => ?_⟩, fun silent => ?_,
    fun long duty zero top => xeno_silent { slot with dutyCycle := duty } fits long zero top⟩
  · rw [h_eq, l_eq]
    ring
  · have most := half_period_lt pos short
    omega
  · by_contra short
    have most := half_period_lt pos (by omega)
    obtain ⟨zero, zero'⟩ := silent slot.dutyCycle nonneg inScale
    obtain rfl := Option.some.inj (highEq.symm.trans zero)
    obtain rfl := Option.some.inj (lowEq.symm.trans zero')
    simp only [Int32.toInt_zero] at total
    omega

/-- Seven units: the remainder of the period by the range is lost. -/
theorem xeno_timing_exact_seven :
    ∃ high low, Driver.xenoPWM.highTime ⟨16, 3, 0, 7⟩ = some high ∧
      Driver.xenoPWM.lowTime ⟨16, 3, 0, 7⟩ = some low ∧ high.toInt * 7 = 3 * (high.toInt + low.toInt) ∧
      high.toInt + low.toInt = 9999997 := by
  obtain ⟨⟨high, low, highEq, lowEq, ratio, total, -⟩, -⟩ := xeno_timing_exact ⟨16, 3, 0, 7⟩ 7
    (by decide) (by decide) (by decide) (by decide)
  exact ⟨high, low, highEq, lowEq, ratio, total⟩

/-- In the same slot the two drivers ask for nearly the same pulse: the nanoseconds they
    differ by are fewer than a microsecond has, or than the half has units. -/
theorem pulses_nearly_equal (slot : Dutycycle) (positive : 1 ≤ slot.range)
    (small : slot.range ≤ 214748) (nonneg : 0 ≤ slot.dutyCycle.toInt)
    (inScale : slot.dutyCycle.toInt ≤ slot.range) :
    ∃ highSoft lowSoft highXeno lowXeno,
      Driver.softPWM.highTime slot = some highSoft ∧ Driver.softPWM.lowTime slot = some lowSoft ∧
      Driver.xenoPWM.highTime slot = some highXeno ∧ Driver.xenoPWM.lowTime slot = some lowXeno ∧
      |1000 * highSoft.toInt - highXeno.toInt| < max 1000 slot.dutyCycle.toInt ∧
      |1000 * lowSoft.toInt - lowXeno.toInt| < max 1000 (slot.range - slot.dutyCycle.toInt) := by
  have pos : 0 < slot.range := positive
  have fits : CInt.Fits slot.range := by constructor <;> omega
  obtain ⟨highSoft, lowSoft, highEq, lowEq, h_eq, l_eq⟩ :=
    soft_times slot pos nonneg inScale (by omega) (by omega)
  obtain ⟨highXeno, lowXeno, highEq', lowEq', h_eq', l_eq'⟩ := xeno_times slot fits pos nonneg inScale
  refine ⟨highSoft, lowSoft, highXeno, lowXeno, highEq, lowEq, highEq', lowEq', ?_, ?_⟩
  · rw [h_eq, h_eq']
    exact CInt.abs_floor_sub_lt 10000 pos nonneg (by decide)
  · rw [l_eq, l_eq']
    exact CInt.abs_floor_sub_lt 10000 pos (by omega) (by decide)

/-- At a third of the range of three, by 333 nanoseconds. -/
theorem pulses_nearly_equal_third :
    ∃ highSoft highXeno, Driver.softPWM.highTime ⟨16, 1, 0, 3⟩ = some highSoft ∧
      Driver.xenoPWM.highTime ⟨16, 1, 0, 3⟩ = some highXeno ∧
      |1000 * highSoft.toInt - highXeno.toInt| < max 1000 1 := by
  obtain ⟨highSoft, -, highXeno, -, soft, -, xeno, -, close, -⟩ :=
    pulses_nearly_equal ⟨16, 1, 0, 3⟩ (by decide) (by decide) (by decide) (by decide)
  exact ⟨highSoft, highXeno, soft, xeno, close⟩

end KsoftPWM
