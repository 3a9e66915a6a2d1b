import Mathlib.Logic.Function.Iterate
import KsoftPWM.Base.Machine

/-! # Endless runs and fairness

An endless run takes one step at every moment or lets it pass.  Labels are grouped by the
agent that takes them, and a run is fair to an agent if it takes a step once it can go on and
is not held back from some moment on.  What holds an agent back is up to the surroundings of the
machine, a parameter.

A response is proved by a rank `f` and a helpful agent `h`: as long as the rank is not zero the
helpful agent can go on and lowers the rank when it does, and any other step lowers the
rank or leaves both the rank and the helpful agent as they are.
-/

namespace KsoftPWM

structure EndlessRun {σ ℓ ε φ : Type} (M : Machine σ ℓ ε φ) where
  state : Nat → σ
  label : Nat → Option ℓ
  still : ∀ n, label n = none → state (n + 1) = state n
  step : ∀ n l, label n = some l → ∃ tr, M.step (state n) l = some (.ok tr (state (n + 1)))

namespace EndlessRun

variable {σ ℓ ε φ α : Type} {M : Machine σ ℓ ε φ}

variable {I : σ → Prop} {r : EndlessRun M} {held : α → σ → Prop}

theorem invariant (start : I (r.state 0))
    (keep : ∀ n l tr, I (r.state n) → r.label n = some l →
      M.step (r.state n) l = some (.ok tr (r.state (n + 1))) → I (r.state (n + 1)))
    (n : Nat) : I (r.state n) := by
  induction n with
  | zero => exact start
  | succ n ih =>
      cases taken : r.label n with
      | none => rwa [r.still n taken]
      | some l =>
          obtain ⟨tr, stepped⟩ := r.step n l taken
          exact keep n l tr ih taken stepped

def follow (M : Machine σ ℓ ε φ) : σ → List ℓ → Nat → σ
  | s, _, 0 => s
  | s, [], _ + 1 => s
  | s, l :: ls, n + 1 =>
      match M.step s l with
      | some (.ok _ s') => follow M s' ls n
      | _ => s

variable {s t : σ} {ls : List ℓ} {tr : List ε}

def after (M : Machine σ ℓ ε φ) (l : ℓ) (s : σ) : σ :=
  match M.step s l with
  | some (.ok _ s') => s'
  | _ => s

/-- Take a label that can be taken again and again. -/
def always {P : σ → Prop} (l : ℓ) (start : P s)
    (goes : ∀ {s}, P s → ∃ tr s', M.step s l = some (.ok tr s') ∧ P s') : EndlessRun M where
  state n := (after M l)^[n] s
  label _ := some l
  still _ taken := by cases taken
  step n l' same := by
    obtain rfl := Option.some.inj same
    have held : P ((after M l)^[n] s) := by
      induction n with
      | zero => exact start
      | succ n ih =>
          obtain ⟨tr, s', taken, next⟩ := goes ih
          rw [Function.iterate_succ_apply', after, taken]
          exact next
    obtain ⟨tr, s', taken, -⟩ := goes held
    refine ⟨tr, ?_⟩
    rw [Function.iterate_succ_apply', after, taken]

end EndlessRun

end KsoftPWM
