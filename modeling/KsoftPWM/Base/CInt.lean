import Mathlib.Algebra.Order.Ring.Int
import Mathlib.Algebra.Order.Group.Unbundled.Int
import Mathlib.Tactic.LinearCombination
import Mathlib.Tactic.Linarith

/-! # Checked arithmetic of a 32-bit `int`

The C operations on `int` are partial: a result that does not fit, and a division
by zero, have no defined value.  Each operation here returns `none` exactly then.
Division truncates towards zero.
-/

namespace KsoftPWM.CInt

/-- The integer is a value of a 32-bit `int`. -/
def Fits (z : Int) : Prop := -2 ^ 31 ≤ z ∧ z < 2 ^ 31

instance (z : Int) : Decidable (Fits z) := inferInstanceAs (Decidable (_ ∧ _))

def checked (z : Int) : Option Int32 := if Fits z then some (Int32.ofInt z) else none

def sub (a b : Int32) : Option Int32 := checked (a.toInt - b.toInt)

def mul (a b : Int32) : Option Int32 := checked (a.toInt * b.toInt)

def div (a b : Int32) : Option Int32 :=
  if b.toInt = 0 then none else checked (a.toInt.tdiv b.toInt)

theorem fits_toInt (a : Int32) : Fits a.toInt := ⟨a.le_toInt, a.toInt_lt⟩

theorem checked_eq_some {z : Int} {r : Int32} : checked z = some r ↔ r.toInt = z := by
  unfold checked
  split
  · rename_i fits
    rw [Option.some.injEq]
    constructor
    · rintro rfl
      exact Int32.toInt_ofInt_of_le fits.1 fits.2
    · rintro rfl
      exact Int32.ofInt_toInt r
  · rename_i misfit
    simp only [reduceCtorEq, false_iff]
    rintro rfl
    exact misfit (fits_toInt r)

theorem sub_eq_some {a b r : Int32} : sub a b = some r ↔ r.toInt = a.toInt - b.toInt :=
  checked_eq_some

theorem mul_eq_some {a b r : Int32} : mul a b = some r ↔ r.toInt = a.toInt * b.toInt :=
  checked_eq_some

theorem div_eq_some {a b r : Int32} :
    div a b = some r ↔ b.toInt ≠ 0 ∧ r.toInt = a.toInt.tdiv b.toInt := by
  unfold div
  split
  · simp [*]
  · simp [*, checked_eq_some]

theorem exists_toInt {z : Int} (fits : Fits z) : ∃ r : Int32, r.toInt = z :=
  ⟨Int32.ofInt z, Int32.toInt_ofInt_of_le fits.1 fits.2⟩

theorem tdiv_of_neg {n : Int} (d : Int) (neg : n < 0) : n.tdiv d = -((-n) / d) := by
  rw [← Int.tdiv_eq_ediv_of_nonneg (by omega), Int.neg_tdiv, neg_neg]

theorem tdiv_nonneg_iff {n d : Int} (pos : 0 < d) : 0 ≤ n.tdiv d ↔ -d < n := by
  rcases le_or_gt 0 n with nonneg | neg
  · have quotient := Int.tdiv_nonneg nonneg pos.le
    simp only [quotient, true_iff]
    omega
  · have floor := Int.ediv_lt_iff_lt_mul (a := -n) (b := 1) pos
    rw [tdiv_of_neg d neg]
    omega

theorem tdiv_le_iff {n d k : Int} (pos : 0 < d) (bound : 0 ≤ k) :
    n.tdiv d ≤ k ↔ n < (k + 1) * d := by
  rcases le_or_gt 0 n with nonneg | neg
  · rw [Int.tdiv_eq_ediv_of_nonneg nonneg, ← Int.lt_add_one_iff, Int.ediv_lt_iff_lt_mul pos]
  · have product := mul_nonneg (by omega : (0 : Int) ≤ k + 1) pos.le
    have floor : 0 ≤ -n / d := Int.ediv_nonneg (by omega) pos.le
    rw [tdiv_of_neg d neg]
    omega

/-- The two floors of a multiple of the divisor split in two parts lose one unit in
    all, unless the parts are multiples themselves. -/
theorem ediv_add_ediv_rest {d : Int} (n k : Int) (pos : 0 < d) :
    n / d + (k * d - n) / d = if n % d = 0 then k else k - 1 := by
  have split : n % d + d * (n / d) = n := Int.emod_add_mul_ediv n d
  have low := Int.emod_nonneg n pos.ne'
  have high := Int.emod_lt_of_pos n pos
  have rest : k * d - n = -(n % d) + (k - n / d) * d := by
    linear_combination split
  rw [rest, Int.add_mul_ediv_right _ _ pos.ne']
  split_ifs with divides
  · rw [divides]
    simp
  · have floor : -(n % d) / d = -1 := by
      rw [Int.ediv_eq_iff_of_pos pos]
      constructor <;> omega
    omega

/-- Multiplying before and after the division, in a unit that is `scale` times finer, comes
    to nearly the same: each way loses less than one unit of its own. -/
theorem abs_floor_sub_lt {range part scale : Int} (period : Int) (pos : 0 < range)
    (nonneg : 0 ≤ part) (unit : 0 < scale) :
    |scale * (period * part / range) - scale * period / range * part| < max scale part := by
  set bound := max scale part with bound_eq
  have scaleLe : scale ≤ bound := le_max_left _ _
  have partLe : part ≤ bound := le_max_right _ _
  have coarse := Int.emod_add_mul_ediv (period * part) range
  have fine := Int.emod_add_mul_ediv (scale * period) range
  have lostCoarse := Int.emod_nonneg (period * part) pos.ne'
  have lostCoarse' := Int.emod_lt_of_pos (period * part) pos
  have lostFine := Int.emod_nonneg (scale * period) pos.ne'
  have lostFine' := Int.emod_lt_of_pos (scale * period) pos
  set c := period * part % range
  set f := scale * period % range
  have loss : range * (scale * (period * part / range) - scale * period / range * part) =
      f * part - scale * c := by
    linear_combination scale * coarse - part * fine
  have above : f * part - scale * c < range * bound := by
    calc f * part - scale * c ≤ f * part := by
          have := mul_nonneg unit.le lostCoarse
          omega
      _ ≤ f * bound := mul_le_mul_of_nonneg_left partLe lostFine
      _ < range * bound := mul_lt_mul_of_pos_right lostFine' (by omega)
  have below : -(range * bound) < f * part - scale * c := by
    have : scale * c < range * bound := by
      calc scale * c ≤ bound * c := mul_le_mul_of_nonneg_right scaleLe lostCoarse
        _ < bound * range := mul_lt_mul_of_pos_left lostCoarse' (by omega)
        _ = range * bound := mul_comm _ _
    have := mul_nonneg lostFine nonneg
    omega
  rw [← loss] at above below
  rw [abs_lt]
  constructor
  · exact lt_of_mul_lt_mul_left (by linarith) pos.le
  · exact lt_of_mul_lt_mul_left above pos.le

end KsoftPWM.CInt
