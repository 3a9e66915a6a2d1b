import Mathlib.Data.List.Basic

/-! # Texts that can be read back

A field that ends in a separator, and has no other one in it, can be cut off from what follows.
So a text that is made of such fields says what they were.  Decimal numbers have no separators
in them.
-/

namespace KsoftPWM

section
variable {α β : Type} {sep : β}

theorem append_sep_inj {first second xs ys : List β} (clean : sep ∉ first) (clean' : sep ∉ second)
    (same : first ++ sep :: xs = second ++ sep :: ys) : first = second ∧ xs = ys := by
  induction first generalizing second with
  | nil =>
      cases second with
      | nil => exact ⟨rfl, (List.cons.inj same).2⟩
      | cons head tail => exact absurd (by simp [(List.cons.inj same).1]) clean'
  | cons head tail ih =>
      cases second with
      | nil => exact absurd (by simp [(List.cons.inj same).1]) clean
      | cons head' tail' =>
          obtain ⟨rfl, rest⟩ := List.cons.inj same
          obtain ⟨rfl, after⟩ := ih (fun member => clean (List.mem_cons_of_mem _ member))
            (fun member => clean' (List.mem_cons_of_mem _ member)) rest
          exact ⟨rfl, after⟩

/-- Records that end in the separator and have no other one can be told from their text. -/
theorem flatMap_sep_inj {body : α → List β} (clean : ∀ a, sep ∉ body a)
    (different : Function.Injective body) {xs ys : List α}
    (same : xs.flatMap (fun a => body a ++ [sep]) = ys.flatMap fun a => body a ++ [sep]) :
    xs = ys := by
  induction xs generalizing ys with
  | nil =>
      cases ys with
      | nil => rfl
      | cons b ys => simp at same
  | cons a xs ih =>
      cases ys with
      | nil => simp at same
      | cons b ys =>
          rw [List.flatMap_cons, List.flatMap_cons, List.append_assoc, List.append_assoc] at same
          obtain ⟨text, rest⟩ := append_sep_inj (clean a) (clean b) same
          rw [different text, ih rest]

end

/-! ## Decimal numbers -/

def decimal (n : Nat) : List Char := Nat.toDigits 10 n

def signed : Int → List Char
  | .ofNat n => decimal n
  | .negSucc n => '-' :: decimal (n + 1)

theorem decimal_injective {m n : Nat} (same : decimal m = decimal n) : m = n := by
  have value := congrArg (Nat.ofDigitChars 10 · 0) same
  simpa only [decimal, Nat.ofDigitChars_ten_toDigits] using value

theorem notMem_decimal {c : Char} (other : c.isDigit = false) (n : Nat) : c ∉ decimal n := by
  intro member
  have digit := Nat.isDigit_of_mem_toDigits (by decide) (by decide) member
  simp [other] at digit

theorem notMem_signed {c : Char} (other : c.isDigit = false) (sign : c ≠ '-') (n : Int) :
    c ∉ signed n := by
  cases n with
  | ofNat n => exact notMem_decimal other n
  | negSucc n =>
      rw [signed, List.mem_cons, not_or]
      exact ⟨sign, notMem_decimal other _⟩

theorem signed_injective {m n : Int} (same : signed m = signed n) : m = n := by
  -- a sign is no digit
  have apart : ∀ {m n : Nat}, decimal m ≠ '-' :: decimal n := by
    intro m n clash
    exact notMem_decimal (c := '-') (by decide) m (clash ▸ List.mem_cons_self)
  cases m with
  | ofNat m =>
      cases n with
      | ofNat n => exact congrArg Int.ofNat (decimal_injective same)
      | negSucc n => exact absurd same apart
  | negSucc m =>
      cases n with
      | ofNat n => exact absurd same.symm apart
      | negSucc n =>
          have value := decimal_injective (List.cons.inj same).2
          exact congrArg Int.negSucc (Nat.succ.inj value)

end KsoftPWM
