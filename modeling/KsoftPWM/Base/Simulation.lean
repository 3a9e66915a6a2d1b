import KsoftPWM.Base.Machine

/-! # Forward simulation between machines

A machine refines another one if each of its steps can be answered by a run of the other
that ends in a related state, takes the labels the step stands for and shows the same
observations.  Most steps of a fine machine stand for no label at all, so the coarse one
stands still.

Which labels a step stands for is read off from its events, so the labels of a whole run
are those of its trace, in the order in which they occurred.
-/

namespace KsoftPWM.Machine

variable {σ ℓ ε φ τ κ δ ψ ο : Type} {M : Machine σ ℓ ε φ} {N : Machine τ κ δ ψ}
  {G : σ → ℓ → Prop} {I : σ → Prop} {R : σ → τ → Prop} {view : ε → Option κ}
  {seen : ε → Option ο} {seen' : δ → Option ο} {s s' : σ} {t : τ} {ls : List ℓ} {tr : List ε}

/-- The coarse machine can follow the labels of the trace from `t` to a state related to
    `s'`, and what is seen of both is the same. -/
def Follows (N : Machine τ κ δ ψ) (R : σ → τ → Prop) (view : ε → Option κ)
    (seen : ε → Option ο) (seen' : δ → Option ο) (t : τ) (tr : List ε) (s' : σ) : Prop :=
  ∃ tr' t', N.Reaches t (tr.filterMap view) tr' t' ∧
    tr'.filterMap seen' = tr.filterMap seen ∧ R s' t'

theorem Follows.still (hidden : ∀ e ∈ tr, view e = none ∧ seen e = none) (related : R s' t) :
    N.Follows R view seen seen' t tr s' := by
  have labels : tr.filterMap view = [] :=
    List.filterMap_eq_nil_iff.mpr fun e member => (hidden e member).1
  have shown : tr.filterMap seen = [] :=
    List.filterMap_eq_nil_iff.mpr fun e member => (hidden e member).2
  exact ⟨[], t, by rw [labels]; exact reaches_nil.mpr ⟨rfl, rfl⟩, by rw [shown]; rfl, related⟩

/-- If every guarded step from a state of the invariant is followed, every guarded run
    is. -/
theorem Reaches.followed (reach : M.Reaches s ls tr s') (guarded : M.Guarded G s ls)
    (start : I s) (related : R s t)
    (keep : ∀ {s l tr s'}, I s → G s l → M.step s l = some (.ok tr s') → I s')
    (follow : ∀ {s l tr s' t}, I s → G s l → R s t → M.step s l = some (.ok tr s') →
      N.Follows R view seen seen' t tr s') :
    N.Follows R view seen seen' t tr s' := by
  have both : N.Follows R view seen seen' t tr s' ∧ I s' := by
    refine reach.guarded_induction (Q := fun tr s' => N.Follows R view seen seen' t tr s' ∧ I s')
      guarded ⟨.still (by simp) related, start⟩ ?_
    rintro tr s l tr' s' ⟨⟨first, t₁, left, shown, mid⟩, inv⟩ guard taken
    obtain ⟨second, t₂, right, shown', last⟩ := follow inv guard mid taken
    refine ⟨⟨first ++ second, t₂, ?_, ?_, last⟩, keep inv guard taken⟩
    · rw [List.filterMap_append]
      exact reaches_append.mpr ⟨first, t₁, second, left, right, rfl⟩
    · rw [List.filterMap_append, List.filterMap_append, shown, shown']
  exact both.1

/-! ## Events under their labels

Where the events of a step do not say what the coarse machine has to do, its labels are left
open.  Events may be seen together with the label under which they occurred. -/

/-- The same machine, with every event under the label of its step. -/
def labelled (M : Machine σ ℓ ε φ) : Machine σ ℓ (ℓ × ε) φ :=
  ⟨fun s l => (M.step s l).map (Traced.tag (l, ·))⟩

theorem labelled_step {l : ℓ} {ltr : List (ℓ × ε)} :
    M.labelled.step s l = some (.ok ltr s') ↔
      ∃ tr, M.step s l = some (.ok tr s') ∧ ltr = tr.map (l, ·) := by
  simp only [labelled, Option.map_eq_some_iff, Traced.tag_eq_ok]
  constructor
  · rintro ⟨x, taken, tr, rfl, rfl⟩
    exact ⟨tr, taken, rfl⟩
  · rintro ⟨tr, taken, rfl⟩
    exact ⟨_, taken, tr, rfl, rfl⟩

theorem guarded_labelled : M.labelled.Guarded G s ls ↔ M.Guarded G s ls := by
  induction ls generalizing s with
  | nil => exact Iff.rfl
  | cons l ls ih =>
      refine and_congr_right fun _ => ⟨fun later tr s' taken => ?_, fun later ltr s' taken => ?_⟩
      · exact ih.mp (later _ s' (labelled_step.mpr ⟨tr, taken, rfl⟩))
      · obtain ⟨tr, stepped, -⟩ := labelled_step.mp taken
        exact ih.mpr (later tr s' stepped)

/-! ## Runs that are played

The answers may keep to a guard of their own, and runs of the coarse machine are put together
from pieces. -/

section
variable {H : τ → κ → Prop} {J : τ → Prop} {t₁ t₂ : τ} {shown shown' : List ο}

def Plays (N : Machine τ κ δ ψ) (H : τ → κ → Prop) (seen' : δ → Option ο) (t : τ) (shown : List ο)
    (t₁ : τ) : Prop :=
  ∃ ks tr, N.Reaches t ks tr t₁ ∧ N.Guarded H t ks ∧ tr.filterMap seen' = shown

theorem Plays.refl (t : τ) : N.Plays H seen' t [] t :=
  ⟨[], [], reaches_nil.mpr ⟨rfl, rfl⟩, trivial, rfl⟩

theorem Plays.trans (first : N.Plays H seen' t shown t₁) (second : N.Plays H seen' t₁ shown' t₂) :
    N.Plays H seen' t (shown ++ shown') t₂ := by
  obtain ⟨ks, tr, left, guarded, rfl⟩ := first
  obtain ⟨ks', tr', right, guarded', rfl⟩ := second
  refine ⟨ks ++ ks', tr ++ tr', reaches_append.mpr ⟨tr, t₁, tr', left, right, rfl⟩, ?_,
    List.filterMap_append⟩
  refine guarded_append.mpr ⟨guarded, fun tr₂ t₂ reach => ?_⟩
  obtain ⟨-, rfl⟩ := left.functional reach
  exact guarded'

theorem Plays.step {k : κ} {tr : List δ} (taken : N.step t k = some (.ok tr t₁)) (guard : H t k) :
    N.Plays H seen' t (tr.filterMap seen') t₁ :=
  ⟨[k], tr, reaches_single.mpr taken, ⟨guard, fun _ _ _ => trivial⟩, rfl⟩

theorem Plays.invariant (plays : N.Plays H seen' t shown t₁) (start : J t)
    (keep : ∀ {t k tr t'}, J t → H t k → N.step t k = some (.ok tr t') → J t') : J t₁ := by
  obtain ⟨ks, tr, reach, guarded, -⟩ := plays
  exact reach.guarded_invariant guarded start keep

/-- If every guarded step from related states is played, every guarded run is. -/
theorem Reaches.played (reach : M.Reaches s ls tr s') (guarded : M.Guarded G s ls)
    (related : R s t)
    (play : ∀ {s l tr s' t}, R s t → G s l → M.step s l = some (.ok tr s') →
      ∃ t', N.Plays H seen' t (tr.filterMap seen) t' ∧ R s' t') :
    ∃ t', N.Plays H seen' t (tr.filterMap seen) t' ∧ R s' t' := by
  refine reach.guarded_induction (Q := fun tr s' =>
    ∃ t', N.Plays H seen' t (tr.filterMap seen) t' ∧ R s' t') guarded ⟨t, .refl t, related⟩ ?_
  rintro tr s l tr' s' ⟨t₁, first, mid⟩ guard taken
  obtain ⟨t₂, second, last⟩ := play mid guard taken
  exact ⟨t₂, List.filterMap_append ▸ first.trans second, last⟩

end

end KsoftPWM.Machine
