import Mathlib.Tactic.Common

/-! # Words packed from fields

A register word is read as a row of fields of equal size, with some bits left over at the
top.  An operation on one field decides its new contents from its old ones and leaves every
other bit of the word alone; operations on different fields then commute.  Clearing a field
with a shifted mask and setting its lowest bit with a shifted one are of this kind.
-/

namespace KsoftPWM.Fields

variable {w n : Nat}

def get (n : Nat) (x : BitVec w) (k : Nat) : BitVec n := x.extractLsb' (n * k) n

/-- The operation works on field `k` and on nothing else. -/
structure ActsOn (n k : Nat) (op : BitVec w → BitVec w) (act : BitVec n → BitVec n) : Prop where
  inside : ∀ x, get n (op x) k = act (get n x k)
  outside : ∀ x i, i / n ≠ k → (op x).getLsbD i = x.getLsbD i

theorem getLsbD_get (x : BitVec w) (k i : Nat) :
    (get n x k).getLsbD i = (decide (i < n) && x.getLsbD (n * k + i)) :=
  BitVec.getLsbD_extractLsb' (n * k) n x i

theorem getLsbD_eq (size : 0 < n) (x : BitVec w) (i : Nat) :
    x.getLsbD i = (get n x (i / n)).getLsbD (i % n) := by
  rw [getLsbD_get, Nat.div_add_mod, decide_eq_true (Nat.mod_lt i size), Bool.true_and]

theorem div_eq_iff (size : 0 < n) {i k : Nat} : i / n = k ↔ n * k ≤ i ∧ i < n * k + n := by
  rw [Nat.div_eq_iff size, Nat.mul_comm]
  constructor
  · rintro ⟨low, high⟩
    exact ⟨low, by omega⟩
  · rintro ⟨low, high⟩
    exact ⟨low, by omega⟩

namespace ActsOn

variable {j k : Nat} {op op' : BitVec w → BitVec w} {act act' : BitVec n → BitVec n}

theorem get_other (acts : ActsOn n k op act) (other : j ≠ k) (x : BitVec w) :
    get n (op x) j = get n x j := by
  apply BitVec.eq_of_getLsbD_eq
  intro i inside
  have place : (n * j + i) / n = j := by
    rw [div_eq_iff (by omega)]
    omega
  rw [getLsbD_get, getLsbD_get, acts.outside x _ (place.symm ▸ other)]

theorem comm (size : 0 < n) (acts : ActsOn n k op act) (acts' : ActsOn n j op' act')
    (other : j ≠ k) (x : BitVec w) : op (op' x) = op' (op x) := by
  apply BitVec.eq_of_getLsbD_eq
  intro i _
  by_cases mine : i / n = k
  · have foreign : i / n ≠ j := fun same => other (same.symm.trans mine)
    rw [acts'.outside _ i foreign, getLsbD_eq size, getLsbD_eq size (op x), mine, acts.inside,
      acts.inside, acts'.get_other other.symm]
  · rw [acts.outside _ i mine]
    by_cases theirs : i / n = j
    · rw [getLsbD_eq size, getLsbD_eq size (op' (op x)), theirs, acts'.inside, acts'.inside,
        acts.get_other other]
    · rw [acts'.outside _ i theirs, acts'.outside _ i theirs, acts.outside _ i mine]

end ActsOn

theorem actsOn_clear (size : 0 < n) (k : Nat) :
    ActsOn n k (fun x : BitVec w => x &&& ~~~((BitVec.allOnes n).setWidth w <<< (n * k)))
      (fun _ => 0) where
  inside := by
    intro x
    apply BitVec.eq_of_getLsbD_eq
    intro i inside
    have back : n * k + i - n * k = i := by omega
    rw [getLsbD_get]
    simp only [BitVec.getLsbD_and, BitVec.getLsbD_not, BitVec.getLsbD_shiftLeft,
      BitVec.getLsbD_setWidth, BitVec.getLsbD_allOnes, back, inside]
    by_cases top : n * k + i < w
    · simp [top, show i < w by omega]
    · simp [top]
  outside := by
    intro x i other
    have apart : ¬ (n * k ≤ i ∧ i - n * k < n) := fun both =>
      other ((div_eq_iff size).mpr (by omega))
    simp only [BitVec.getLsbD_and, BitVec.getLsbD_not, BitVec.getLsbD_shiftLeft,
      BitVec.getLsbD_setWidth, BitVec.getLsbD_allOnes]
    by_cases top : i < w
    · by_cases low : i < n * k
      · simp [top, low]
      · have high : ¬ i - n * k < n := fun near => apart ⟨by omega, near⟩
        simp [top, high]
    · simp [top, BitVec.getLsbD_of_ge x i (by omega)]

theorem actsOn_mark (size : 0 < n) {k : Nat} (fits : n * k < w) :
    ActsOn n k (fun x : BitVec w => x ||| 1#w <<< (n * k)) (fun f => f ||| 1#n) where
  inside := by
    intro x
    apply BitVec.eq_of_getLsbD_eq
    intro i inside
    have back : n * k + i - n * k = i := by omega
    rw [getLsbD_get]
    simp only [BitVec.getLsbD_or, BitVec.getLsbD_shiftLeft, BitVec.getLsbD_one, back, inside,
      getLsbD_get, size]
    by_cases lowest : i = 0
    · subst lowest
      have wide : 0 < w := by omega
      simp [fits, wide]
    · simp [lowest]
  outside := by
    intro x i other
    have apart : i ≠ n * k := by
      rintro rfl
      exact other (Nat.mul_div_cancel_left k size)
    simp only [BitVec.getLsbD_or, BitVec.getLsbD_shiftLeft, BitVec.getLsbD_one]
    by_cases low : i < n * k
    · simp [low]
    · simp [show i - n * k ≠ 0 by omega]

end KsoftPWM.Fields
