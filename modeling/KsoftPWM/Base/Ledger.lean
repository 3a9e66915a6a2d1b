import Mathlib.Data.List.Count

/-! # Ledgers of resources

A component notes what it acquires and what it releases, in order.  A resource is live
while it has been acquired more often than released.  A component that releases
everything it has acquired except for certain resources leaves exactly those live.
-/

namespace KsoftPWM

inductive Entry (α : Type) where
  | acquire (r : α)
  | release (r : α)
  deriving Repr, DecidableEq

namespace Ledger

variable {α : Type} [DecidableEq α]

/-- The resource is held. -/
def Live (ledger : List (Entry α)) (r : α) : Prop :=
  ledger.count (.release r) < ledger.count (.acquire r)

instance (ledger : List (Entry α)) : DecidablePred (Live ledger) :=
  fun r => inferInstanceAs (Decidable (ledger.count (.release r) < ledger.count (.acquire r)))

/-- Whatever has been acquired has been released exactly once, and nothing is held. -/
structure Balanced (ledger : List (Entry α)) : Prop where
  once : ∀ r, .acquire r ∈ ledger → ledger.count (.release r) = 1
  clear : ∀ r, ¬ Live ledger r

/-- Nothing has been acquired twice, and what has been acquired has been released, except
    for the kept resources, which never are. -/
structure Keeps (kept : α → Bool) (ledger : List (Entry α)) : Prop where
  single : ∀ r, ledger.count (.acquire r) ≤ 1
  released : ∀ r, ledger.count (.release r) = if kept r then 0 else ledger.count (.acquire r)

variable {kept : α → Bool} {ledger : List (Entry α)} {r : α}

theorem count_acquire (rs : List α) (r : α) :
    (rs.map Entry.acquire).count (.acquire r) = rs.count r ∧
      (rs.map Entry.release).count (.acquire r) = 0 :=
  ⟨List.count_map_of_injective rs _ (fun _ _ => Entry.acquire.inj) r,
    by simp [List.count_eq_zero]⟩

theorem count_release (rs : List α) (r : α) :
    (rs.map Entry.release).count (.release r) = rs.count r ∧
      (rs.map Entry.acquire).count (.release r) = 0 :=
  ⟨List.count_map_of_injective rs _ (fun _ _ => Entry.release.inj) r,
    by simp [List.count_eq_zero]⟩

theorem count_append (ledger : List (Entry α)) (taken freed : List α) (r : α) :
    (ledger ++ taken.map Entry.acquire ++ freed.map Entry.release).count (.acquire r) =
        ledger.count (.acquire r) + taken.count r ∧
      (ledger ++ taken.map Entry.acquire ++ freed.map Entry.release).count (.release r) =
        ledger.count (.release r) + freed.count r := by
  simp only [List.count_append, (count_acquire _ r).1, (count_acquire _ r).2,
    (count_release _ r).1, (count_release _ r).2, Nat.add_zero, and_self]

/-- If only one event gives a resource back, it is given back as often as that event
    occurs. -/
theorem count_filterMap {β : Type} [BEq β] [LawfulBEq β] {f : β → Option α} (source : Option β)
    (only : ∀ e, f e = some r ↔ source = some e) (events : List β) :
    (events.filterMap f).count r = source.elim 0 events.count := by
  rw [List.count_filterMap]
  cases source with
  | none =>
      rw [Option.elim_none, List.countP_eq_zero]
      intro e _
      simp [only]
  | some source =>
      rw [Option.elim_some, List.count]
      congr 1
      funext e
      rw [Bool.eq_iff_iff]
      simp only [beq_iff_eq, only, Option.some.injEq]
      exact eq_comm

theorem Keeps.live_iff (keeps : Keeps kept ledger) :
    Live ledger r ↔ kept r = true ∧ .acquire r ∈ ledger := by
  rw [Live, keeps.released, ← List.count_pos_iff]
  cases keep : kept r with
  | true => simp
  | false => simp

theorem Keeps.balanced_iff (keeps : Keeps kept ledger) :
    Balanced ledger ↔ ∀ r, kept r = true → .acquire r ∉ ledger := by
  constructor
  · intro balanced r keep member
    exact balanced.clear r (keeps.live_iff.mpr ⟨keep, member⟩)
  · intro spared
    refine ⟨fun r member => ?_, fun r live => ?_⟩
    · have free : kept r = false := by
        by_contra keep
        exact spared r (by simpa using keep) member
      have positive := List.count_pos_iff.mpr member
      have single := keeps.single r
      rw [keeps.released, free]
      simp only [Bool.false_eq_true, ↓reduceIte]
      omega
    · obtain ⟨keep, member⟩ := keeps.live_iff.mp live
      exact spared r keep member

end Ledger

end KsoftPWM
