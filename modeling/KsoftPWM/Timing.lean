import KsoftPWM.Model.Task

/-! # What the timing macros compute

`HIGH_TIME` and `LOW_TIME` over the integers, with the exact conditions under which
the `int` arithmetic has a value at all.
-/

namespace KsoftPWM

/-- `PWM_RANGE` over the integers. -/
def Dutycycle.range (slot : Dutycycle) : Int := slot.max.toInt - slot.min.toInt

def InitArgs.range (args : InitArgs) : Int := args.max.toInt - args.min.toInt

variable {slot : Dutycycle} {time : Int32}

theorem highTime_soft :
    Driver.softPWM.highTime slot = some time ↔
      CInt.Fits slot.range ∧ slot.range ≠ 0 ∧ CInt.Fits (10000 * slot.dutyCycle.toInt) ∧
        time.toInt = (10000 * slot.dutyCycle.toInt).tdiv slot.range := by
  have period : periodUs.toInt = 10000 := by decide
  simp only [Driver.highTime, pwmRange, bind, Option.bind_eq_some_iff, CInt.mul_eq_some,
    CInt.sub_eq_some, CInt.div_eq_some, period, Dutycycle.range]
  constructor
  · rintro ⟨product, product_eq, range, range_eq, nonzero, value⟩
    rw [← product_eq, ← range_eq]
    exact ⟨CInt.fits_toInt range, nonzero, CInt.fits_toInt product, value⟩
  · rintro ⟨range, nonzero, product, value⟩
    obtain ⟨r, r_eq⟩ := CInt.exists_toInt range
    obtain ⟨p, p_eq⟩ := CInt.exists_toInt product
    exact ⟨p, p_eq, r, r_eq, r_eq ▸ nonzero, by rw [p_eq, r_eq, value]⟩

theorem lowTime_soft :
    Driver.softPWM.lowTime slot = some time ↔
      CInt.Fits slot.range ∧ slot.range ≠ 0 ∧
        CInt.Fits (slot.range - slot.dutyCycle.toInt) ∧
        CInt.Fits (10000 * (slot.range - slot.dutyCycle.toInt)) ∧
        time.toInt = (10000 * (slot.range - slot.dutyCycle.toInt)).tdiv slot.range := by
  have period : periodUs.toInt = 10000 := by decide
  simp only [Driver.lowTime, pwmRange, bind, Option.bind_eq_some_iff, CInt.mul_eq_some,
    CInt.sub_eq_some, CInt.div_eq_some, period, Dutycycle.range]
  constructor
  · rintro ⟨range, range_eq, rest, rest_eq, product, product_eq, nonzero, value⟩
    rw [← range_eq, ← rest_eq, ← product_eq]
    exact ⟨CInt.fits_toInt range, nonzero, CInt.fits_toInt rest, CInt.fits_toInt product, value⟩
  · rintro ⟨range, nonzero, rest, product, value⟩
    obtain ⟨r, r_eq⟩ := CInt.exists_toInt range
    obtain ⟨d, d_eq⟩ := CInt.exists_toInt rest
    obtain ⟨p, p_eq⟩ := CInt.exists_toInt product
    exact ⟨r, r_eq, d, by rw [d_eq, r_eq], p, by rw [p_eq, d_eq], r_eq ▸ nonzero,
      by rw [p_eq, r_eq, value]⟩

theorem unit_fits (range : Int) : CInt.Fits (Int.tdiv 10000000 range) := by
  have bound := Int.natAbs_tdiv_le_natAbs 10000000 range
  have period : (10000000 : Int).natAbs = 10000000 := rfl
  constructor <;> omega

theorem highTime_xeno :
    Driver.xenoPWM.highTime slot = some time ↔
      CInt.Fits slot.range ∧ slot.range ≠ 0 ∧
        time.toInt = Int.tdiv 10000000 slot.range * slot.dutyCycle.toInt := by
  have period : periodNs.toInt = 10000000 := by decide
  simp only [Driver.highTime, pwmRange, bind, Option.bind_eq_some_iff, CInt.mul_eq_some,
    CInt.sub_eq_some, CInt.div_eq_some, period, Dutycycle.range]
  constructor
  · rintro ⟨range, range_eq, unit, ⟨nonzero, unit_eq⟩, value⟩
    rw [← range_eq, ← unit_eq]
    exact ⟨CInt.fits_toInt range, nonzero, value⟩
  · rintro ⟨range, nonzero, value⟩
    obtain ⟨r, r_eq⟩ := CInt.exists_toInt range
    obtain ⟨u, u_eq⟩ := CInt.exists_toInt (unit_fits r.toInt)
    exact ⟨r, r_eq, u, ⟨r_eq ▸ nonzero, u_eq⟩, by rw [u_eq, r_eq, value]⟩

theorem lowTime_xeno :
    Driver.xenoPWM.lowTime slot = some time ↔
      CInt.Fits slot.range ∧ slot.range ≠ 0 ∧
        CInt.Fits (slot.range - slot.dutyCycle.toInt) ∧
        time.toInt = Int.tdiv 10000000 slot.range * (slot.range - slot.dutyCycle.toInt) := by
  have period : periodNs.toInt = 10000000 := by decide
  simp only [Driver.lowTime, pwmRange, bind, Option.bind_eq_some_iff, CInt.mul_eq_some,
    CInt.sub_eq_some, CInt.div_eq_some, period, Dutycycle.range]
  constructor
  · rintro ⟨range, range_eq, unit, ⟨nonzero, unit_eq⟩, rest, rest_eq, value⟩
    rw [← range_eq, ← unit_eq, ← rest_eq]
    exact ⟨CInt.fits_toInt range, nonzero, CInt.fits_toInt rest, value⟩
  · rintro ⟨range, nonzero, rest, value⟩
    obtain ⟨r, r_eq⟩ := CInt.exists_toInt range
    obtain ⟨u, u_eq⟩ := CInt.exists_toInt (unit_fits r.toInt)
    obtain ⟨d, d_eq⟩ := CInt.exists_toInt rest
    exact ⟨r, r_eq, u, ⟨r_eq ▸ nonzero, u_eq⟩, d, by rw [d_eq, r_eq],
      by rw [u_eq, d_eq, r_eq, value]⟩

/-- softPWM's two products fit exactly for duty cycles that are not too far from either end
    of the range. -/
theorem soft_products_fit {range duty : Int} (nonneg : 0 ≤ duty) (inScale : duty ≤ range) :
    CInt.Fits (10000 * duty) ∧ CInt.Fits (10000 * (range - duty)) ↔
      duty ≤ 214748 ∧ range - duty ≤ 214748 := by
  constructor
  · rintro ⟨⟨-, high⟩, -, low⟩
    constructor <;> omega
  · rintro ⟨high, low⟩
    refine ⟨⟨?_, ?_⟩, ?_, ?_⟩ <;> omega

theorem soft_times (slot : Dutycycle) (pos : 0 < slot.range) (nonneg : 0 ≤ slot.dutyCycle.toInt)
    (inScale : slot.dutyCycle.toInt ≤ slot.range) (high : slot.dutyCycle.toInt ≤ 214748)
    (low : slot.range - slot.dutyCycle.toInt ≤ 214748) :
    ∃ h l, Driver.softPWM.highTime slot = some h ∧ Driver.softPWM.lowTime slot = some l ∧
      h.toInt = 10000 * slot.dutyCycle.toInt / slot.range ∧
      l.toInt = 10000 * (slot.range - slot.dutyCycle.toInt) / slot.range := by
  obtain ⟨fitsHigh, fitsLow⟩ := (soft_products_fit nonneg inScale).mpr ⟨high, low⟩
  have below : ∀ z : Int, 0 ≤ z → z ≤ 10000 * slot.range → CInt.Fits (z / slot.range) := by
    intro z zero top
    have floor : z / slot.range ≤ 10000 :=
      (Int.ediv_le_ediv pos top).trans (by rw [Int.mul_ediv_cancel _ pos.ne'])
    have := Int.ediv_nonneg zero pos.le
    constructor <;> omega
  obtain ⟨h, h_eq⟩ := CInt.exists_toInt (below (10000 * slot.dutyCycle.toInt) (by omega) (by omega))
  obtain ⟨l, l_eq⟩ := CInt.exists_toInt
    (below (10000 * (slot.range - slot.dutyCycle.toInt)) (by omega) (by omega))
  have range : CInt.Fits slot.range := by constructor <;> omega
  have rest : CInt.Fits (slot.range - slot.dutyCycle.toInt) := by constructor <;> omega
  refine ⟨h, l, highTime_soft.mpr ⟨range, pos.ne', fitsHigh, ?_⟩,
    lowTime_soft.mpr ⟨range, pos.ne', rest, fitsLow, ?_⟩, h_eq, l_eq⟩
  · rw [h_eq, Int.tdiv_eq_ediv_of_nonneg (by omega)]
  · rw [l_eq, Int.tdiv_eq_ediv_of_nonneg (by omega)]

/-- xenoPWM's times always have values in scale: a part of the range takes a part of the
    period. -/
theorem xeno_times (slot : Dutycycle) (fits : CInt.Fits slot.range) (pos : 0 < slot.range)
    (nonneg : 0 ≤ slot.dutyCycle.toInt) (inScale : slot.dutyCycle.toInt ≤ slot.range) :
    ∃ h l, Driver.xenoPWM.highTime slot = some h ∧ Driver.xenoPWM.lowTime slot = some l ∧
      h.toInt = 10000000 / slot.range * slot.dutyCycle.toInt ∧
      l.toInt = 10000000 / slot.range * (slot.range - slot.dutyCycle.toInt) := by
  have unit : 0 ≤ 10000000 / slot.range := Int.ediv_nonneg (by decide) pos.le
  have whole : 10000000 / slot.range * slot.range ≤ 10000000 := Int.ediv_mul_le _ pos.ne'
  have part : ∀ d : Int, 0 ≤ d → d ≤ slot.range → CInt.Fits (10000000 / slot.range * d) := by
    intro d zero top
    have above := mul_nonneg unit zero
    have below := (mul_le_mul_of_nonneg_left top unit).trans whole
    constructor <;> omega
  obtain ⟨h, h_eq⟩ := CInt.exists_toInt (part slot.dutyCycle.toInt nonneg inScale)
  obtain ⟨l, l_eq⟩ := CInt.exists_toInt
    (part (slot.range - slot.dutyCycle.toInt) (by omega) (by omega))
  have rest : CInt.Fits (slot.range - slot.dutyCycle.toInt) := by
    obtain ⟨_, _⟩ := fits
    constructor <;> omega
  have floor : Int.tdiv 10000000 slot.range = 10000000 / slot.range :=
    Int.tdiv_eq_ediv_of_nonneg (by decide)
  refine ⟨h, l, highTime_xeno.mpr ⟨fits, pos.ne', ?_⟩,
    lowTime_xeno.mpr ⟨fits, pos.ne', rest, ?_⟩, h_eq, l_eq⟩
  · rw [h_eq, floor]
  · rw [l_eq, floor]

end KsoftPWM
