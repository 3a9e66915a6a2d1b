import Mathlib.Data.List.Basic

/-! # Replaying updates that each concern one place

A state is read at places, and every operation belongs to one place: it changes the
reading there, depending on nothing but the old reading there, and no other.  Then
the reading at a place after any sequence of operations is the one after the
operations of that place alone, in their order.
-/

namespace KsoftPWM

/-- The operations satisfying `good` are local: each acts on its own place only. -/
structure LocalOps {σ ο ι α : Type} (apply : σ → ο → σ) (read : σ → ι → α) (place : ο → ι)
    (good : ο → Prop) : Prop where
  frame : ∀ s o i, good o → place o ≠ i → read (apply s o) i = read s i
  depends : ∀ s s' o, good o → read s (place o) = read s' (place o) →
    read (apply s o) (place o) = read (apply s' o) (place o)

namespace LocalOps

variable {σ ο ι α : Type} [DecidableEq ι] {apply : σ → ο → σ} {read : σ → ι → α}
  {place : ο → ι} {good : ο → Prop}

theorem read_foldl (loc : LocalOps apply read place good) {i : ι} {ops : List ο}
    (all : ∀ o ∈ ops, good o) {s s' : σ} (same : read s i = read s' i) :
    read (ops.foldl apply s) i = read ((ops.filter (place · = i)).foldl apply s') i := by
  induction ops generalizing s s' with
  | nil => exact same
  | cons o ops ih =>
      have here := all o List.mem_cons_self
      have later := fun o' member => all o' (List.mem_cons_of_mem o member)
      by_cases mine : place o = i
      · subst mine
        simp only [List.foldl_cons, List.filter_cons, decide_true, ↓reduceIte]
        exact ih later (loc.depends s s' o here same)
      · simp only [List.foldl_cons, List.filter_cons, mine, decide_false, Bool.false_eq_true,
          ↓reduceIte]
        exact ih later ((loc.frame s o i here mine).trans same)

theorem read_foldl_congr (loc : LocalOps apply read place good) {i : ι} {ops ops' : List ο}
    (all : ∀ o ∈ ops, good o) (all' : ∀ o ∈ ops', good o) {s s' : σ}
    (same : read s i = read s' i)
    (order : ops.filter (place · = i) = ops'.filter (place · = i)) :
    read (ops.foldl apply s) i = read (ops'.foldl apply s') i := by
  rw [loc.read_foldl all same, order, ← loc.read_foldl all' rfl]

end LocalOps

/-- If each operation acts on the reading at its place, the reading there after a sequence
    is the initial one acted on by the operations of the place in their order. -/
theorem read_foldl_act {σ ο ι α : Type} [DecidableEq ι] {apply : σ → ο → σ} (read : σ → ι → α)
    (place : ο → ι) (act : ο → α → α)
    (frame : ∀ s o i, place o ≠ i → read (apply s o) i = read s i)
    (acts : ∀ s o, read (apply s o) (place o) = act o (read s (place o))) (ops : List ο) (s : σ)
    (i : ι) :
    read (ops.foldl apply s) i =
      (ops.filter (place · = i)).foldl (fun r o => act o r) (read s i) := by
  induction ops generalizing s with
  | nil => rfl
  | cons o ops ih =>
      rw [List.foldl_cons, ih]
      by_cases mine : place o = i
      · subst mine
        simp only [acts, List.filter_cons, decide_true, ↓reduceIte, List.foldl_cons]
      · simp only [frame s o i mine, List.filter_cons, mine, decide_false, Bool.false_eq_true,
          ↓reduceIte]

/-! ## Some of the operations

An update that is read, computed and written back loses what was written in between.  The
value is then that of some of the operations, each of them whole and in their order.
-/

/-- The value comes from some of the operations in their order. -/
def ComesFrom {ο α : Type} (apply : α → ο → α) (initial : α) (ops : List ο) (x : α) : Prop :=
  ∃ kept : List ο, kept.Sublist ops ∧ x = kept.foldl apply initial

section
variable {ο α : Type} {apply : α → ο → α} {initial x : α} {ops : List ο}

theorem comesFrom_initial (apply : α → ο → α) (initial : α) (ops : List ο) :
    ComesFrom apply initial ops initial :=
  ⟨[], List.nil_sublist ops, rfl⟩

theorem ComesFrom.append (here : ComesFrom apply initial ops x) (more : List ο) :
    ComesFrom apply initial (ops ++ more) x := by
  obtain ⟨kept, sub, rfl⟩ := here
  exact ⟨kept, sub.trans (List.sublist_append_left ops more), rfl⟩

/-- The value is that of the last operation on top of some of those before it, or it is the
    initial one and there has been none. -/
def EndsFrom {ο α : Type} (apply : α → ο → α) (initial : α) (ops : List ο) (x : α) : Prop :=
  ops = [] ∧ x = initial ∨
    ∃ before o y, ops = before ++ [o] ∧ ComesFrom apply initial before y ∧ x = apply y o

theorem EndsFrom.snoc (before : ComesFrom apply initial ops x) (o : ο) :
    EndsFrom apply initial (ops ++ [o]) (apply x o) :=
  .inr ⟨ops, o, x, rfl, before, rfl⟩

theorem EndsFrom.comesFrom (here : EndsFrom apply initial ops x) :
    ComesFrom apply initial ops x := by
  rcases here with ⟨rfl, rfl⟩ | ⟨before, o, y, rfl, ⟨kept, sub, rfl⟩, rfl⟩
  · exact comesFrom_initial apply x []
  · exact ⟨kept ++ [o], sub.append (List.Sublist.refl [o]), by simp⟩

end

end KsoftPWM
