import Mathlib.Data.List.Basic

/-! # Rows that are created once and written through the first match

A table grows at its end, and a write names a key and reaches the first row with that
key.  A row with an earlier row of the same key is shadowed and never written.  What a
row holds after a history is then the last write to its key since its creation, or
nothing if it is shadowed.
-/

namespace KsoftPWM

section
variable {α : Type} {p : α → Bool} {f : α → α} {l : List α}

/-- Change the first element that passes the test. -/
def updateFirst (p : α → Bool) (f : α → α) (l : List α) : List α :=
  match l.findIdx? p with
  | none => l
  | some i => l.modify i f

theorem updateFirst_getElem? (i : Nat) :
    (updateFirst p f l)[i]? = if l.findIdx? p = some i then l[i]?.map f else l[i]? := by
  unfold updateFirst
  cases found : l.findIdx? p with
  | none => simp
  | some j =>
      rw [List.getElem?_modify]
      by_cases same : j = i <;> simp [same]

theorem map_updateFirst {β : Type} {g : α → β} (keeps : ∀ a, g (f a) = g a) :
    (updateFirst p f l).map g = l.map g := by
  apply List.ext_getElem?
  intro i
  simp only [List.getElem?_map, updateFirst_getElem?]
  split
  · cases l[i]? <;> simp [keeps]
  · rfl

theorem updateFirst_map {β : Type} {g : α → β} {q : β → Bool} {h : β → β}
    (test : ∀ a, q (g a) = p a) (change : ∀ a, h (g a) = g (f a)) :
    updateFirst q h (l.map g) = (updateFirst p f l).map g := by
  have same : (l.map g).findIdx? q = l.findIdx? p := by
    rw [List.findIdx?_map]
    congr 1
    funext a
    exact test a
  apply List.ext_getElem?
  intro i
  simp only [updateFirst_getElem?, List.getElem?_map, same]
  split
  · cases l[i]? <;> simp [change]
  · rfl

theorem findIdx?_updateFirst {q : α → Bool} (unseen : ∀ a, q (f a) = q a) :
    (updateFirst p f l).findIdx? q = l.findIdx? q := by
  have tests := map_updateFirst (p := p) (l := l) (g := q) unseen
  rw [← Function.id_comp q, ← List.findIdx?_map, tests, List.findIdx?_map]

theorem forall_mem_updateFirst {Q : α → Prop} (all : ∀ a ∈ l, Q a) :
    (∀ a ∈ updateFirst p f l, Q a) ↔
      ∀ i a, l.findIdx? p = some i → l[i]? = some a → Q (f a) := by
  constructor
  · intro updated i a first here
    refine updated (f a) (List.mem_of_getElem? (i := i) ?_)
    rw [updateFirst_getElem?, if_pos first, here]
    rfl
  · intro changed a member
    obtain ⟨i, here⟩ := List.mem_iff_getElem?.mp member
    rw [updateFirst_getElem?] at here
    split at here
    · rename_i first
      obtain ⟨old, there, rfl⟩ := Option.map_eq_some_iff.mp here
      exact changed i old first there
    · exact all a (List.mem_of_getElem? here)

/-- If no key occurs twice, an update through the first match reaches every element
    with its key. -/
theorem updateFirst_reaches {κ : Type} [DecidableEq κ] (key : α → κ) {k : κ} {a : α}
    (distinct : (l.map key).Nodup) (member : a ∈ updateFirst (fun a => key a = k) f l)
    (same : key a = k) : ∃ b, a = f b := by
  obtain ⟨i, here⟩ := List.mem_iff_getElem?.mp member
  rw [updateFirst_getElem?] at here
  split at here
  · obtain ⟨b, -, rfl⟩ := Option.map_eq_some_iff.mp here
    exact ⟨b, rfl⟩
  · rename_i other
    obtain ⟨inside, rfl⟩ := List.getElem?_eq_some_iff.mp here
    refine absurd (List.findIdx?_eq_some_iff_getElem.mpr ⟨inside, by simpa using same, ?_⟩) other
    intro j below clash
    have equal : (l.map key)[j]? = (l.map key)[i]? := by
      simp only [List.getElem?_map, List.getElem?_eq_getElem inside,
        List.getElem?_eq_getElem (Nat.lt_trans below inside), Option.map_some, same,
        of_decide_eq_true clash]
    have length : j < (l.map key).length := by simpa using Nat.lt_trans below inside
    exact absurd ((List.getElem?_inj length distinct).mp equal) (Nat.ne_of_lt below)

end

inductive TableOp (ρ κ ν : Type) where
  | create (row : ρ)
  | write (key : κ) (value : ν)
  deriving Repr, DecidableEq

namespace TableOp

variable {ρ κ ν : Type} [DecidableEq κ] (key : ρ → κ)

/-- A row carries what was last written to it, if anything. -/
def apply (rows : List (ρ × Option ν)) : TableOp ρ κ ν → List (ρ × Option ν)
  | create row => rows ++ [(row, none)]
  | write k value => updateFirst (fun row => key row.1 = k) (fun row => (row.1, some value)) rows

/-- The table after a history. -/
def replay (ops : List (TableOp ρ κ ν)) : List (ρ × Option ν) := ops.foldl (apply key) []

def created (ops : List (TableOp ρ κ ν)) : List ρ :=
  ops.filterMap fun op =>
    match op with
    | create row => some row
    | write .. => none

/-- The last value written to a key. -/
def lastWrite (k : κ) (ops : List (TableOp ρ κ ν)) : Option ν :=
  (ops.filterMap fun op =>
    match op with
    | create _ => none
    | write k' value => if k' = k then some value else none).getLast?

variable {key} {rows : List (ρ × Option ν)} {ops before after : List (TableOp ρ κ ν)} {row : ρ}

theorem foldl_rows (key : ρ → κ) (rows : List (ρ × Option ν)) (ops : List (TableOp ρ κ ν)) :
    (ops.foldl (apply key) rows).map Prod.fst = rows.map Prod.fst ++ created ops := by
  induction ops generalizing rows with
  | nil => simp [created]
  | cons op ops ih =>
      rw [List.foldl_cons, ih]
      cases op with
      | create row => simp [apply, created]
      | write k value =>
          have keeps : (apply key rows (write k value)).map Prod.fst = rows.map Prod.fst :=
            map_updateFirst (fun _ => rfl)
          rw [keeps]
          rfl

theorem lastWrite_cons_write (k : κ) (value : ν) (k' : κ) :
    lastWrite k' (write k value :: ops : List (TableOp ρ κ ν)) =
      (lastWrite k' ops).or (if k = k' then some value else none) := by
  by_cases same : k = k'
  · simp [lastWrite, same, List.getLast?_cons, Option.or_some]
  · simp [lastWrite, same]

theorem findIdx?_eq_some_iff_unshadowed (key : ρ → κ) (k : κ) {i : Nat} {held : Option ν}
    (here : rows[i]? = some (row, held)) :
    rows.findIdx? (fun row => key row.1 = k) = some i ↔
      key row = k ∧ k ∉ (rows.take i).map fun row => key row.1 := by
  obtain ⟨inside, entry⟩ := List.getElem?_eq_some_iff.mp here
  rw [List.findIdx?_eq_some_iff_getElem]
  simp only [inside, exists_true_left, entry, decide_eq_true_eq, List.mem_map, not_exists, not_and]
  refine and_congr_right fun _ => ?_
  constructor
  · intro first r member same
    obtain ⟨j, below, rfl⟩ := List.mem_iff_getElem.mp member
    rw [List.length_take] at below
    rw [List.getElem_take] at same
    exact first j (by omega) same
  · intro none_ j below same
    exact none_ rows[j] (List.mem_take_iff_getElem.mpr ⟨j, by omega, rfl⟩) same

theorem foldl_row {i : Nat} {held : Option ν} (here : rows[i]? = some (row, held)) :
    (ops.foldl (apply key) rows)[i]? =
      some (row, if key row ∈ (rows.take i).map (fun row => key row.1) then held
        else (lastWrite (key row) ops).or held) := by
  induction ops generalizing rows held with
  | nil => simpa [lastWrite] using here
  | cons op ops ih =>
      rw [List.foldl_cons]
      cases op with
      | create new =>
          have inside := (List.getElem?_eq_some_iff.mp here).1
          have grown : (apply key rows (create new))[i]? = some (row, held) :=
            (List.getElem?_append_left inside).trans here
          rw [ih grown, apply, List.take_append_of_le_length (Nat.le_of_lt inside)]
          rfl
      | write k value =>
          have keys : (apply key rows (write k value)).map (fun row => key row.1) =
              rows.map (fun row => key row.1) :=
            map_updateFirst (fun _ => rfl)
          have shadows : ((apply key rows (write k value)).take i).map (fun row => key row.1) =
              (rows.take i).map (fun row => key row.1) := by
            rw [List.map_take, keys, List.map_take]
          have first := findIdx?_eq_some_iff_unshadowed key k here
          by_cases reached : key row = k ∧ k ∉ (rows.take i).map fun row => key row.1
          · have written : (apply key rows (write k value))[i]? = some (row, some value) := by
              rw [apply, updateFirst_getElem?, if_pos (first.mpr reached), here]
              rfl
            obtain ⟨rfl, unshadowed⟩ := reached
            rw [ih written, shadows, if_neg unshadowed, if_neg unshadowed, lastWrite_cons_write,
              if_pos rfl, Option.or_assoc]
            rfl
          · have kept : (apply key rows (write k value))[i]? = some (row, held) := by
              rw [apply, updateFirst_getElem?, if_neg (fun found => reached (first.mp found)), here]
            rw [ih kept, shadows]
            split
            · rfl
            · rename_i unshadowed
              have other : ¬ k = key row := by
                rintro rfl
                exact reached ⟨rfl, unshadowed⟩
              rw [lastWrite_cons_write, if_neg other, Option.or_none]

/-- A row holds the last write to its key since its creation, unless an earlier row
    has the key. -/
theorem replay_row (key : ρ → κ) (split : ops = before ++ create row :: after) :
    (replay key ops)[(created before).length]? =
      some (row, if key row ∈ (created before).map key then none else lastWrite (key row) after) := by
  subst split
  have rows : (replay key before).map Prod.fst = created before := by
    simpa [replay] using foldl_rows key [] before
  have length : (replay key before).length = (created before).length := by
    rw [← rows, List.length_map]
  have here : (apply key (replay key before) (create row))[(created before).length]? =
      some (row, none) := by
    rw [← length]
    exact List.getElem?_concat_length
  have earlier : (apply key (replay key before) (create row)).take (created before).length =
      replay key before := by
    rw [← length]
    exact List.take_left
  have keys : (replay key before).map (fun row => key row.1) = (created before).map key := by
    rw [← rows, List.map_map]
    rfl
  rw [replay, List.foldl_append, List.foldl_cons]
  change (after.foldl (apply key) (apply key (replay key before) (create row)))[_]? = _
  rw [foldl_row here, earlier, keys, Option.or_none]

end TableOp

end KsoftPWM
