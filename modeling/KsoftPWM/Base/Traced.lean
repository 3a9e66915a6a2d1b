import Mathlib.Data.List.Basic

/-! # Computations that report what they do

A `Traced` computation yields the events it performed, in order, and either a
value or the fault that stopped it.  The trace of a faulting computation ends
with the event that went wrong; nothing is said about what would come after.
-/

namespace KsoftPWM

inductive Traced (ε φ α : Type) where
  | ok (trace : List ε) (value : α)
  | fault (trace : List ε) (why : φ)
  deriving Repr, DecidableEq

namespace Traced

variable {ε ε' φ α β : Type}

def trace : Traced ε φ α → List ε
  | ok tr _ => tr
  | fault tr _ => tr

/-- The same computation, performed after events that have already happened. -/
def after (before : List ε) : Traced ε φ α → Traced ε φ α
  | ok tr a => ok (before ++ tr) a
  | fault tr e => fault (before ++ tr) e

protected def bind (x : Traced ε φ α) (f : α → Traced ε φ β) : Traced ε φ β :=
  match x with
  | ok tr a => (f a).after tr
  | fault tr e => fault tr e

instance : Monad (Traced ε φ) where
  pure a := ok [] a
  bind := Traced.bind

def emit (e : ε) : Traced ε φ Unit := ok [e] ()

/-- Relabel the events, leaving the result alone. -/
def tag (f : ε → ε') : Traced ε φ α → Traced ε' φ α
  | ok tr a => ok (tr.map f) a
  | fault tr e => fault (tr.map f) e

/-- Keep some of the events, relabelled, leaving the result alone. -/
def keep (f : ε → Option ε') : Traced ε φ α → Traced ε' φ α
  | ok tr a => ok (tr.filterMap f) a
  | fault tr e => fault (tr.filterMap f) e

/-- Relabel the fault, leaving the events and the value alone. -/
def mapFault {φ' : Type} (f : φ → φ') : Traced ε φ α → Traced ε φ' α
  | ok tr a => ok tr a
  | fault tr e => fault tr (f e)

def holds (test : List ε → α → Bool) : Traced ε φ α → Bool
  | ok tr a => test tr a
  | fault _ _ => false

@[simp] theorem pure_eq (a : α) : (pure a : Traced ε φ α) = ok [] a := rfl

@[simp] theorem ok_bind (tr : List ε) (a : α) (f : α → Traced ε φ β) :
    (ok tr a >>= f) = (f a).after tr := rfl

@[simp] theorem fault_bind (tr : List ε) (e : φ) (f : α → Traced ε φ β) :
    (fault tr e >>= f) = fault tr e := rfl

@[simp] theorem emit_eq (e : ε) : (emit e : Traced ε φ Unit) = ok [e] () := rfl

@[simp] theorem after_ok (before tr : List ε) (a : α) :
    (ok tr a : Traced ε φ α).after before = ok (before ++ tr) a := rfl

@[simp] theorem after_fault (before tr : List ε) (e : φ) :
    (fault tr e : Traced ε φ α).after before = fault (before ++ tr) e := rfl

theorem after_bind (before : List ε) (x : Traced ε φ α) (f : α → Traced ε φ β) :
    (x.after before >>= f) = (x >>= f).after before := by
  cases x with
  | fault tr e => rfl
  | ok tr a => cases next : f a <;> simp [next]

@[simp] theorem trace_ok (tr : List ε) (a : α) : (ok tr a : Traced ε φ α).trace = tr := rfl

@[simp] theorem trace_fault (tr : List ε) (e : φ) : (fault tr e : Traced ε φ α).trace = tr := rfl

@[simp] theorem trace_after (before : List ε) (x : Traced ε φ α) :
    (x.after before).trace = before ++ x.trace := by
  cases x <;> rfl

@[simp] theorem tag_ok (f : ε → ε') (tr : List ε) (a : α) :
    (ok tr a : Traced ε φ α).tag f = ok (tr.map f) a := rfl

@[simp] theorem tag_fault (f : ε → ε') (tr : List ε) (e : φ) :
    (fault tr e : Traced ε φ α).tag f = fault (tr.map f) e := rfl

@[simp] theorem mapFault_ok {φ' : Type} (f : φ → φ') (tr : List ε) (a : α) :
    (ok tr a : Traced ε φ α).mapFault f = ok tr a := rfl

@[simp] theorem after_nil (x : Traced ε φ α) : x.after [] = x := by
  cases x <;> rfl

@[simp] theorem keep_ok (f : ε → Option ε') (tr : List ε) (a : α) :
    (ok tr a : Traced ε φ α).keep f = ok (tr.filterMap f) a := rfl

theorem keep_after (f : ε → Option ε') (before : List ε) (x : Traced ε φ α) :
    (x.after before).keep f = (x.keep f).after (before.filterMap f) := by
  cases x <;> simp [keep]

theorem keep_bind (f : ε → Option ε') (x : Traced ε φ α) (g : α → Traced ε φ β) :
    (x >>= g).keep f = x.keep f >>= fun a => (g a).keep f := by
  cases x with
  | fault tr e => rfl
  | ok tr a => simp [keep_after]

theorem keep_tag {f : ε' → Option ε} {g : ε → ε'} (inverse : ∀ e, f (g e) = some e)
    (x : Traced ε φ α) : (x.tag g).keep f = x := by
  cases x <;> simp [tag, keep, List.filterMap_map, inverse]

theorem after_eq_ok {before tr : List ε} {x : Traced ε φ α} {a : α} :
    x.after before = ok tr a ↔ ∃ tail, x = ok tail a ∧ tr = before ++ tail := by
  cases x with
  | ok tail b =>
      simp only [after_ok, ok.injEq]
      constructor
      · rintro ⟨rfl, rfl⟩
        exact ⟨tail, ⟨rfl, rfl⟩, rfl⟩
      · rintro ⟨_, ⟨rfl, rfl⟩, rfl⟩
        exact ⟨rfl, rfl⟩
  | fault tail e => simp only [after_fault, reduceCtorEq, false_and, exists_false]

theorem tag_eq_ok {f : ε → ε'} {x : Traced ε φ α} {tr : List ε'} {a : α} :
    x.tag f = ok tr a ↔ ∃ raw, x = ok raw a ∧ tr = raw.map f := by
  cases x with
  | ok raw b =>
      simp only [tag_ok, ok.injEq]
      constructor
      · rintro ⟨rfl, rfl⟩
        exact ⟨raw, ⟨rfl, rfl⟩, rfl⟩
      · rintro ⟨_, ⟨rfl, rfl⟩, rfl⟩
        exact ⟨rfl, rfl⟩
  | fault raw e => simp only [tag_fault, reduceCtorEq, false_and, exists_false]

theorem bind_eq_ok {x : Traced ε φ α} {f : α → Traced ε φ β} {tr : List ε} {b : β} :
    (x >>= f) = ok tr b ↔ ∃ first a second, x = ok first a ∧ f a = ok second b ∧
      tr = first ++ second := by
  cases x with
  | ok first a =>
      rw [ok_bind, after_eq_ok]
      constructor
      · rintro ⟨second, run, rfl⟩
        exact ⟨first, a, second, rfl, run, rfl⟩
      · rintro ⟨_, _, second, same, run, rfl⟩
        cases same
        exact ⟨second, run, rfl⟩
  | fault first e =>
      simp only [fault_bind, reduceCtorEq, false_and, exists_false]

theorem mem_trace_bind {x : Traced ε φ α} {f : α → Traced ε φ β} {e : ε} :
    e ∈ (x >>= f).trace ↔ e ∈ x.trace ∨ ∃ tr a, x = ok tr a ∧ e ∈ (f a).trace := by
  cases x with
  | fault tr why => simp only [fault_bind, trace_fault, reduceCtorEq, false_and, exists_false,
      or_false]
  | ok tr a =>
      rw [ok_bind, trace_after, List.mem_append]
      constructor
      · rintro (before | later)
        · exact .inl before
        · exact .inr ⟨tr, a, rfl, later⟩
      · rintro (before | ⟨_, _, same, later⟩)
        · exact .inl before
        · cases same
          exact .inr later

theorem forall_trace_bind {P : ε → Prop} {x : Traced ε φ α} {f : α → Traced ε φ β}
    (first : ∀ e ∈ x.trace, P e) (second : ∀ a, ∀ e ∈ (f a).trace, P e) :
    ∀ e ∈ (x >>= f).trace, P e := by
  intro e member
  rcases mem_trace_bind.mp member with before | ⟨_, a, -, later⟩
  · exact first e before
  · exact second a e later

end Traced

end KsoftPWM
