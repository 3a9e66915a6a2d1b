import Mathlib.Data.List.Induction
import KsoftPWM.Base.Traced

/-! # Labelled machines and their runs

A machine takes one labelled step at a time: a label that is not enabled in a
state has no step, and an enabled one is a traced computation.  A schedule is a
list of labels, so quantifying over schedules is quantifying over every order of
the steps.  A run stops at the first fault.

`Guarded` collects a condition on each label in the state it is taken from, and
`Always` a condition on every state a schedule passes through.  The rules below
turn one-step facts into facts about whole runs.
-/

namespace KsoftPWM

structure Machine (σ ℓ ε φ : Type) where
  step : σ → ℓ → Option (Traced ε φ σ)

namespace Machine

variable {σ ℓ ε φ : Type} (M : Machine σ ℓ ε φ)

def run (s : σ) : List ℓ → Option (Traced ε φ σ)
  | [] => some (.ok [] s)
  | l :: ls =>
      match M.step s l with
      | none => none
      | some (.fault tr e) => some (.fault tr e)
      | some (.ok tr s') => (run s' ls).map (Traced.after tr)

/-- The schedule can be followed to its end without a fault. -/
def Reaches (s : σ) (ls : List ℓ) (tr : List ε) (s' : σ) : Prop :=
  M.run s ls = some (.ok tr s')

/-- Every label of the schedule meets `G` in the state it is taken from. -/
def Guarded (G : σ → ℓ → Prop) : σ → List ℓ → Prop
  | _, [] => True
  | s, l :: ls => G s l ∧ ∀ tr s', M.step s l = some (.ok tr s') → Guarded G s' ls

/-- Evaluate a test on each label, in the state it is taken from. -/
def checks (test : σ → ℓ → Bool) : σ → List ℓ → Bool
  | _, [] => true
  | s, l :: ls => test s l &&
      match M.step s l with
      | some (.ok _ s') => checks test s' ls
      | _ => true

/-- Every state the schedule passes through meets `P`. -/
def Always (P : σ → Prop) (s : σ) (ls : List ℓ) : Prop :=
  ∀ pre post tr s', ls = pre ++ post → M.Reaches s pre tr s' → P s'

variable {M} {G H : σ → ℓ → Prop} {P I : σ → Prop} {s s' t : σ} {l : ℓ} {ls ms : List ℓ}
  {tr tr' : List ε}

theorem reaches_nil : M.Reaches s [] tr t ↔ tr = [] ∧ t = s := by
  simp only [Reaches, run, Option.some.injEq, Traced.ok.injEq]
  constructor
  · rintro ⟨rfl, rfl⟩
    exact ⟨rfl, rfl⟩
  · rintro ⟨rfl, rfl⟩
    exact ⟨rfl, rfl⟩

theorem run_cons_ok (ok : M.step s l = some (.ok tr s')) :
    M.run s (l :: ls) = (M.run s' ls).map (Traced.after tr) := by
  simp only [run, ok]

theorem reaches_cons :
    M.Reaches s (l :: ls) tr t ↔ ∃ first s' rest, M.step s l = some (.ok first s') ∧
      M.Reaches s' ls rest t ∧ tr = first ++ rest := by
  cases taken : M.step s l with
  | none => simp [Reaches, run, taken]
  | some x =>
      cases x with
      | fault first e => simp [Reaches, run, taken]
      | ok first s₁ =>
          rw [Reaches, run_cons_ok taken, Option.map_eq_some_iff]
          constructor
          · rintro ⟨x, rest, shape⟩
            obtain ⟨tail, rfl, rfl⟩ := Traced.after_eq_ok.mp shape
            exact ⟨first, s₁, tail, rfl, rest, rfl⟩
          · rintro ⟨_, _, rest, same, reach, rfl⟩
            cases same
            exact ⟨_, reach, rfl⟩

theorem reaches_append :
    M.Reaches s (ls ++ ms) tr t ↔ ∃ first s' rest, M.Reaches s ls first s' ∧
      M.Reaches s' ms rest t ∧ tr = first ++ rest := by
  induction ls generalizing s tr with
  | nil =>
      simp only [List.nil_append, reaches_nil]
      constructor
      · intro reach
        exact ⟨[], s, tr, ⟨rfl, rfl⟩, reach, rfl⟩
      · rintro ⟨_, _, rest, ⟨rfl, rfl⟩, reach, rfl⟩
        exact reach
  | cons l ls ih =>
      simp only [List.cons_append, reaches_cons, ih]
      constructor
      · rintro ⟨a, s₁, _, taken, ⟨b, s₂, c, left, right, rfl⟩, rfl⟩
        exact ⟨a ++ b, s₂, c, ⟨a, s₁, b, taken, left, rfl⟩, right,
          (List.append_assoc a b c).symm⟩
      · rintro ⟨_, s₂, c, ⟨a, s₁, b, taken, left, rfl⟩, right, rfl⟩
        exact ⟨a, s₁, b ++ c, taken, ⟨b, s₂, c, left, right, rfl⟩, List.append_assoc a b c⟩

theorem reaches_single : M.Reaches s [l] tr t ↔ M.step s l = some (.ok tr t) := by
  rw [reaches_cons]
  constructor
  · rintro ⟨first, s₁, rest, taken, last, rfl⟩
    obtain ⟨rfl, rfl⟩ := reaches_nil.mp last
    simpa using taken
  · intro taken
    exact ⟨tr, t, [], taken, reaches_nil.mpr ⟨rfl, rfl⟩, (List.append_nil tr).symm⟩

theorem Reaches.functional (one : M.Reaches s ls tr t) (two : M.Reaches s ls tr' s') :
    tr = tr' ∧ t = s' := by
  have same := one.symm.trans two
  simpa only [Option.some.injEq, Traced.ok.injEq] using same

theorem exists_reaches (M : Machine σ ℓ ε φ) (s : σ) (ls : List ℓ)
    (test : List ε → σ → Bool) (passes : (M.run s ls).any (Traced.holds test) = true) :
    ∃ tr t, M.Reaches s ls tr t ∧ test tr t = true := by
  cases ran : M.run s ls with
  | none => simp [ran] at passes
  | some x =>
      cases x with
      | fault tr e => simp [ran, Traced.holds] at passes
      | ok tr t => exact ⟨tr, t, ran, by simpa [ran, Traced.holds] using passes⟩

/-- A run that goes wrong goes wrong with its last step. -/
theorem run_fault {tr : List ε} {e : φ} (run : M.run s ls = some (.fault tr e)) :
    ∃ pre l post first t last, ls = pre ++ l :: post ∧ M.Reaches s pre first t ∧
      M.step t l = some (.fault last e) ∧ tr = first ++ last := by
  induction ls generalizing s tr with
  | nil => simp [Machine.run] at run
  | cons l ls ih =>
      cases taken : M.step s l with
      | none => simp [Machine.run, taken] at run
      | some x =>
          cases x with
          | fault last e' =>
              simp only [Machine.run, taken, Option.some.injEq, Traced.fault.injEq] at run
              obtain ⟨rfl, rfl⟩ := run
              exact ⟨[], l, ls, [], s, last, rfl, reaches_nil.mpr ⟨rfl, rfl⟩, taken, rfl⟩
          | ok first s₁ =>
              rw [run_cons_ok taken, Option.map_eq_some_iff] at run
              obtain ⟨y, rest, shape⟩ := run
              cases y with
              | ok tr' t => cases shape
              | fault tr' e' =>
                  cases shape
                  obtain ⟨pre, l', post, mid, t, last, rfl, reach, wrong, rfl⟩ := ih rest
                  exact ⟨l :: pre, l', post, first ++ mid, t, last, rfl,
                    reaches_cons.mpr ⟨first, s₁, mid, taken, reach, rfl⟩, wrong,
                    (List.append_assoc first mid last).symm⟩

/-- Induction over a run, last step last. -/
theorem Reaches.induction {Q : List ℓ → List ε → σ → Prop} (start : Q [] [] s)
    (extend : ∀ {ls tr t l tr' t'}, M.Reaches s ls tr t → Q ls tr t →
      M.step t l = some (.ok tr' t') → Q (ls ++ [l]) (tr ++ tr') t')
    (reach : M.Reaches s ls tr t) : Q ls tr t := by
  induction ls using List.reverseRecOn generalizing tr t with
  | nil =>
      obtain ⟨rfl, rfl⟩ := reaches_nil.mp reach
      exact start
  | append_singleton ls l ih =>
      obtain ⟨first, s₁, rest, left, right, rfl⟩ := reaches_append.mp reach
      exact extend left (ih left) (reaches_single.mp right)

theorem Reaches.invariant (reach : M.Reaches s ls tr t) (start : I s)
    (keep : ∀ {s l tr s'}, I s → M.step s l = some (.ok tr s') → I s') : I t :=
  reach.induction (Q := fun _ _ t => I t) start (fun _ held taken => keep held taken)

theorem guarded_append :
    M.Guarded G s (ls ++ ms) ↔ M.Guarded G s ls ∧
      ∀ tr t, M.Reaches s ls tr t → M.Guarded G t ms := by
  induction ls generalizing s with
  | nil =>
      simp only [List.nil_append, Guarded, true_and, reaches_nil]
      constructor
      · rintro guarded _ _ ⟨rfl, rfl⟩
        exact guarded
      · intro guarded
        exact guarded [] s ⟨rfl, rfl⟩
  | cons l ls ih =>
      simp only [List.cons_append, Guarded, ih, reaches_cons]
      constructor
      · rintro ⟨here, later⟩
        refine ⟨⟨here, fun tr s' taken => (later tr s' taken).1⟩, ?_⟩
        rintro _ t ⟨first, s', rest, taken, reach, rfl⟩
        exact (later first s' taken).2 rest t reach
      · rintro ⟨⟨here, later⟩, beyond⟩
        refine ⟨here, fun tr s' taken => ⟨later tr s' taken, fun rest t reach => ?_⟩⟩
        exact beyond (tr ++ rest) t ⟨tr, s', rest, taken, reach, rfl⟩

theorem guarded_snoc :
    M.Guarded G s (ls ++ [l]) ↔ M.Guarded G s ls ∧ ∀ tr t, M.Reaches s ls tr t → G t l := by
  rw [guarded_append]
  simp only [Guarded, implies_true, and_true]

theorem guarded_of_checks {test : σ → ℓ → Bool} (sound : ∀ s l, test s l = true → G s l)
    (passes : M.checks test s ls = true) : M.Guarded G s ls := by
  induction ls generalizing s with
  | nil => trivial
  | cons l ls ih =>
      rw [checks, Bool.and_eq_true] at passes
      refine ⟨sound s l passes.1, fun tr s' taken => ?_⟩
      rw [taken] at passes
      exact ih passes.2

theorem Guarded.mono (guarded : M.Guarded G s ls) (weaker : ∀ s l, G s l → H s l) :
    M.Guarded H s ls := by
  induction ls generalizing s with
  | nil => trivial
  | cons l ls ih =>
      exact ⟨weaker s l guarded.1, fun tr s' taken => ih (guarded.2 tr s' taken)⟩

/-- Along a run that keeps an invariant, a guard may be exchanged for any that the
    invariant makes weaker. -/
theorem Guarded.imp_of_invariant (guarded : M.Guarded G s ls) (start : I s)
    (keep : ∀ {s l tr s'}, I s → G s l → M.step s l = some (.ok tr s') → I s')
    (weaker : ∀ {s l}, I s → G s l → H s l) : M.Guarded H s ls := by
  induction ls generalizing s with
  | nil => trivial
  | cons l ls ih =>
      refine ⟨weaker start guarded.1, fun tr s' taken => ?_⟩
      exact ih (guarded.2 tr s' taken) (keep start guarded.1 taken)

theorem Guarded.and (one : M.Guarded G s ls) (two : M.Guarded H s ls) :
    M.Guarded (fun s l => G s l ∧ H s l) s ls := by
  induction ls generalizing s with
  | nil => trivial
  | cons l ls ih =>
      exact ⟨⟨one.1, two.1⟩, fun tr s' taken => ih (one.2 tr s' taken) (two.2 tr s' taken)⟩

theorem Guarded.of_forall (all : ∀ l ∈ ls, ∀ s, G s l) : M.Guarded G s ls := by
  induction ls generalizing s with
  | nil => trivial
  | cons l ls ih =>
      exact ⟨all l List.mem_cons_self s,
        fun _ _ _ => ih (fun l' member => all l' (List.mem_cons_of_mem l member))⟩

theorem Reaches.guarded_induction {Q : List ε → σ → Prop} (reach : M.Reaches s ls tr t)
    (guarded : M.Guarded G s ls) (start : Q [] s)
    (keep : ∀ {tr s l tr' s'}, Q tr s → G s l → M.step s l = some (.ok tr' s') →
      Q (tr ++ tr') s') : Q tr t := by
  revert guarded
  refine reach.induction (Q := fun ls tr t => M.Guarded G s ls → Q tr t) (fun _ => start) ?_
  intro ls tr t l tr' t' left held taken guarded
  obtain ⟨before, here⟩ := guarded_snoc.mp guarded
  exact keep (held before) (here tr t left) taken

theorem Reaches.guarded_invariant (reach : M.Reaches s ls tr t) (guarded : M.Guarded G s ls)
    (start : I s) (keep : ∀ {s l tr s'}, I s → G s l → M.step s l = some (.ok tr s') → I s') :
    I t :=
  reach.guarded_induction (Q := fun _ t => I t) guarded start keep

/-- If every guarded step brings what is awaited or keeps a rank that the own labels lower, as
    many own labels as the rank bring it. -/
theorem Reaches.brings {E : ε → Prop} {own : ℓ → Bool} {rank : σ → Nat}
    (reach : M.Reaches s ls tr t) (guarded : M.Guarded G s ls) (start : I s)
    (next : ∀ {s l tr s'}, I s → G s l → M.step s l = some (.ok tr s') →
      (∃ e ∈ tr, E e) ∨ I s' ∧ rank s' + (if own l then 1 else 0) ≤ rank s) :
    (∃ e ∈ tr, E e) ∨ I t ∧ rank t + ls.countP own ≤ rank s := by
  revert guarded
  refine reach.induction (Q := fun ls tr t => M.Guarded G s ls →
    (∃ e ∈ tr, E e) ∨ I t ∧ rank t + ls.countP own ≤ rank s) (fun _ => .inr ⟨start, Nat.le_refl _⟩) ?_
  intro ls tr t l tr' t' left held taken guarded
  obtain ⟨before, here⟩ := guarded_snoc.mp guarded
  rcases held before with ⟨e, member, brought⟩ | ⟨kept, spent⟩
  · exact .inl ⟨e, List.mem_append_left _ member, brought⟩
  · rcases next kept (here tr t left) taken with ⟨e, member, brought⟩ | ⟨kept', lower⟩
    · exact .inl ⟨e, List.mem_append_right _ member, brought⟩
    · refine .inr ⟨kept', ?_⟩
      rw [List.countP_append, List.countP_singleton]
      omega

/-- A run is guarded all along and keeps `Q`, or it has left the guard once and has been
    in `B` ever since. -/
theorem Reaches.guarded_or_left {Q B : List ε → σ → Prop} (reach : M.Reaches s ls tr t)
    (start : Q [] s)
    (keep : ∀ {tr s l tr' s'}, Q tr s → G s l → M.step s l = some (.ok tr' s') →
      Q (tr ++ tr') s')
    (leave : ∀ {tr s l tr' s'}, Q tr s → ¬ G s l → M.step s l = some (.ok tr' s') →
      B (tr ++ tr') s')
    (stay : ∀ {tr s l tr' s'}, B tr s → M.step s l = some (.ok tr' s') → B (tr ++ tr') s') :
    M.Guarded G s ls ∧ Q tr t ∨ ¬ M.Guarded G s ls ∧ B tr t := by
  refine reach.induction (Q := fun ls tr t => M.Guarded G s ls ∧ Q tr t ∨
    ¬ M.Guarded G s ls ∧ B tr t) (.inl ⟨trivial, start⟩) ?_
  intro ls tr t l tr' t' left held taken
  rw [guarded_snoc]
  rcases held with ⟨guarded, good⟩ | ⟨unguarded, bad⟩
  · by_cases here : G t l
    · refine .inl ⟨⟨guarded, fun tr₂ t₂ again => ?_⟩, keep good here taken⟩
      obtain ⟨-, rfl⟩ := left.functional again
      exact here
    · exact .inr ⟨fun both => here (both.2 tr t left), leave good here taken⟩
  · exact .inr ⟨fun both => unguarded both.1, stay bad taken⟩

theorem Reaches.guarded_or_left_under {Q B : List ε → σ → Prop} (reach : M.Reaches s ls tr t)
    (under : M.Guarded H s ls) (start : Q [] s)
    (keep : ∀ {tr s l tr' s'}, Q tr s → H s l → G s l → M.step s l = some (.ok tr' s') →
      Q (tr ++ tr') s')
    (leave : ∀ {tr s l tr' s'}, Q tr s → H s l → ¬ G s l → M.step s l = some (.ok tr' s') →
      B (tr ++ tr') s')
    (stay : ∀ {tr s l tr' s'}, B tr s → H s l → M.step s l = some (.ok tr' s') →
      B (tr ++ tr') s') :
    M.Guarded G s ls ∧ Q tr t ∨ ¬ M.Guarded G s ls ∧ B tr t := by
  revert under
  refine reach.induction (Q := fun ls tr t => M.Guarded H s ls → M.Guarded G s ls ∧ Q tr t ∨
    ¬ M.Guarded G s ls ∧ B tr t) (fun _ => .inl ⟨trivial, start⟩) ?_
  intro ls tr t l tr' t' left held taken under
  obtain ⟨before, now⟩ := guarded_snoc.mp under
  have within := now tr t left
  rw [guarded_snoc]
  rcases held before with ⟨guarded, good⟩ | ⟨unguarded, bad⟩
  · by_cases here : G t l
    · refine .inl ⟨⟨guarded, fun tr₂ t₂ again => ?_⟩, keep good within here taken⟩
      obtain ⟨-, rfl⟩ := left.functional again
      exact here
    · exact .inr ⟨fun both => here (both.2 tr t left), leave good within here taken⟩
  · exact .inr ⟨fun both => unguarded both.1, stay bad within taken⟩

/-- If guarded steps from the states of an invariant never fault, guarded runs never
    do. -/
theorem Guarded.run_ok {x : Traced ε φ σ} (guarded : M.Guarded G s ls) (start : I s)
    (keep : ∀ {s l x}, I s → G s l → M.step s l = some x → ∃ tr s', x = .ok tr s' ∧ I s')
    (run : M.run s ls = some x) : ∃ tr t, x = .ok tr t := by
  induction ls generalizing s x with
  | nil =>
      simp only [Machine.run, Option.some.injEq] at run
      exact ⟨[], s, run.symm⟩
  | cons l ls ih =>
      cases taken : M.step s l with
      | none => simp [Machine.run, taken] at run
      | some y =>
          obtain ⟨first, s₁, rfl, inv⟩ := keep start guarded.1 taken
          rw [run_cons_ok taken, Option.map_eq_some_iff] at run
          obtain ⟨z, rest, rfl⟩ := run
          obtain ⟨tr, t, rfl⟩ := ih (guarded.2 first s₁ taken) inv rest
          exact ⟨first ++ tr, t, rfl⟩

/-- If, from the states of an invariant, a step reports only good events exactly
    when its label is guarded, then a whole run does. -/
theorem trace_forall_iff_guarded {Good : ε → Prop} {x : Traced ε φ σ} (start : I s)
    (exact_step : ∀ {s l x}, I s → M.step s l = some x → ((∀ e ∈ x.trace, Good e) ↔ G s l))
    (keep : ∀ {s l tr s'}, I s → G s l → M.step s l = some (.ok tr s') → I s')
    (no_fault : ∀ {s l tr e}, I s → G s l → M.step s l ≠ some (.fault tr e))
    (run : M.run s ls = some x) : (∀ e ∈ x.trace, Good e) ↔ M.Guarded G s ls := by
  induction ls generalizing s x with
  | nil =>
      simp only [Machine.run, Option.some.injEq] at run
      subst run
      simp [Guarded]
  | cons l ls ih =>
      cases taken : M.step s l with
      | none => simp [Machine.run, taken] at run
      | some y =>
          cases y with
          | fault first e =>
              simp only [Machine.run, taken, Option.some.injEq] at run
              subst run
              have unguarded : ¬ G s l := fun g => no_fault start g taken
              simp only [exact_step start taken, Guarded, unguarded, false_and]
          | ok first s₁ =>
              rw [run_cons_ok taken, Option.map_eq_some_iff] at run
              obtain ⟨y, rest, rfl⟩ := run
              have here := exact_step start taken
              simp only [Traced.trace_ok] at here
              simp only [Traced.trace_after, List.mem_append, or_imp, forall_and, here, Guarded]
              refine and_congr_right fun g => ?_
              rw [ih (keep start g taken) rest]
              constructor
              · intro later tr s' again
                rw [taken] at again
                cases again
                exact later
              · intro later
                exact later first s₁ taken

theorem Always.here (always : M.Always P s ls) : P s :=
  always [] ls [] s rfl (reaches_nil.mpr ⟨rfl, rfl⟩)

theorem always_nil : M.Always P s [] ↔ P s := by
  constructor
  · exact Always.here
  · intro held pre post tr s' split reach
    obtain ⟨rfl, rfl⟩ : pre = [] ∧ post = [] := by simpa using split.symm
    obtain ⟨rfl, rfl⟩ := reaches_nil.mp reach
    exact held

theorem always_cons (taken : M.step s l = some (.ok tr s')) :
    M.Always P s (l :: ls) ↔ P s ∧ M.Always P s' ls := by
  constructor
  · intro always
    refine ⟨always.here, ?_⟩
    rintro pre post rest t rfl reach
    exact always (l :: pre) post (tr ++ rest) t rfl
      (reaches_cons.mpr ⟨tr, s', rest, taken, reach, rfl⟩)
  · rintro ⟨held, later⟩ pre post rest t split reach
    cases pre with
    | nil =>
        obtain ⟨rfl, rfl⟩ := reaches_nil.mp reach
        exact held
    | cons l' pre =>
        rw [List.cons_append, List.cons.injEq] at split
        obtain ⟨rfl, rfl⟩ := split
        obtain ⟨first, s₁, tail, again, beyond, rfl⟩ := reaches_cons.mp reach
        rw [taken] at again
        cases again
        exact later pre post tail t rfl beyond

/-- If, from the states of an invariant, a step keeps `P` exactly when its label
    is guarded, then a schedule passes through `P` states only exactly when
    every one of its labels is guarded.  `H` is the assumption under which the
    labels can be taken at all. -/
theorem always_iff_guarded (start : I s) (held : P s) (admitted : M.Guarded H s ls)
    (exact_step : ∀ {s l}, I s → P s → H s l → ∃ tr s',
      M.step s l = some (.ok tr s') ∧ I s' ∧ (P s' ↔ G s l)) :
    M.Always P s ls ↔ M.Guarded G s ls := by
  induction ls generalizing s with
  | nil => simp [always_nil, held, Guarded]
  | cons l ls ih =>
      obtain ⟨tr, s', taken, inv, iff⟩ := exact_step start held admitted.1
      rw [always_cons taken]
      constructor
      · rintro ⟨-, later⟩
        refine ⟨iff.mp later.here, fun tr₂ s₂ again => ?_⟩
        rw [taken] at again
        cases again
        exact (ih inv later.here (admitted.2 tr s' taken)).mp later
      · rintro ⟨g, later⟩
        have next := iff.mpr g
        exact ⟨held, (ih inv next (admitted.2 tr s' taken)).mpr (later tr s' taken)⟩

end Machine

end KsoftPWM
