import KsoftPWM.Model.System

/-! # Whole requests

The same system with every request delivered in one step, as `Driver.ioctl` runs it.
The steps of the tasks and of module exit are those of `Sys.step`.  A whole request is
a request whose statements happen not to be interrupted, so whatever can be reached
with whole requests can be reached by the running system too.
-/

namespace KsoftPWM

namespace Sys

/-- Serve a request from its first statement to its return. -/
def serve (D : Driver) (s : Sys) (req : Request) (outcome : CreateOutcome) : Kernel Sys := do
  let (w, err) ← D.ioctl outcome s.world req
  Traced.emit (.ret err)
  pure { s with world := w }

def serialStep (D : Driver) (s : Sys) : Label → Option (Traced (Agent × Event) Fault Sys)
  | .request req outcome =>
      if s.call = none ∧ D.accepts s.exit then
        some ((s.serve D req outcome).tag (Agent.client, ·))
      else none
  | .statement => none
  | .task k swap => s.step D (.task k swap)
  | .exit => s.step D .exit

end Sys

/-- The system of a driver with whole requests. -/
def Driver.serial (D : Driver) : Machine Sys Label (Agent × Event) Fault := ⟨Sys.serialStep D⟩

/-- From its next statement on the request runs to its end without interruption. -/
def Completes (D : Driver) (s : Sys) (call : Call) (tr : List Event) (s' : Sys) : Prop :=
  ∃ n first s₁ rest, s.advance call = .ok first s₁ ∧
    D.system.Reaches s₁ (List.replicate n .statement) rest s' ∧
    tr.map (Agent.client, ·) = first.map (Agent.client, ·) ++ rest

section
variable {D : Driver} {s s' : Sys} {w w' : World} {call next : Call} {tr first rest : List Event}
  {err : Int} {args : InitArgs} {outcome : CreateOutcome} {pin duty : Int32}

theorem Completes.last (run : call.step s.world = .ok tr (w, .returned err)) :
    Completes D s call (tr ++ [.ret err]) { s with world := w, call := none } :=
  ⟨0, _, _, [], Sys.advance_returned run, Machine.reaches_nil.mpr ⟨rfl, rfl⟩, by simp⟩

theorem Completes.cons (run : call.step s.world = .ok first (w, next))
    (going : ∀ err, next ≠ .returned err)
    (later : Completes D { s with world := w, call := some next } next rest s') :
    Completes D s call (first ++ rest) s' := by
  obtain ⟨n, second, s₁, last, step, reach, shape⟩ := later
  refine ⟨n + 1, first, { s with world := w, call := some next },
    second.map (Agent.client, ·) ++ last, Sys.advance_next run going, ?_, ?_⟩
  · rw [List.replicate_succ, Machine.reaches_cons]
    refine ⟨second.map (Agent.client, ·), s₁, last, ?_, reach, rfl⟩
    simp only [Driver.system, Sys.step, Option.map_some, step, Traced.tag_ok]
  · rw [List.map_append, shape]

theorem completes_init {todo : List Stmt} (more : todo ≠ [])
    (run : runInit args outcome todo s.world = .ok tr (w', err)) :
    Completes D s (.init args outcome todo) (tr ++ [.ret err])
      { s with world := w', call := none } := by
  induction todo generalizing s tr with
  | nil => exact absurd rfl more
  | cons stmt rest ih =>
      obtain ⟨first, ⟨w, brk⟩, second, ran, done, rfl⟩ := Traced.bind_eq_ok.mp run
      cases brk with
      | some code =>
          cases done
          rw [List.append_nil]
          exact .last (Call.step_init_break ran)
      | none =>
          have step : (Call.init args outcome (stmt :: rest)).step s.world =
              .ok first (w, .resume args outcome rest) :=
            Call.step_init_next ran
          cases rest with
          | nil =>
              cases done
              rw [List.append_nil]
              exact .last step
          | cons stmt' rest =>
              have going : ∀ err, Call.resume args outcome (stmt' :: rest) ≠ .returned err := by
                intro err same
                cases same
              rw [List.append_assoc]
              exact .cons step going (ih (List.cons_ne_nil _ _) done)

theorem completes_update {pos : Nat}
    (run : s.world.setSlot pos (fun slot => { slot with dutyCycle := duty }) = .ok tr w') :
    Completes D s (.update pos duty) (tr ++ [.ret 0]) { s with world := w', call := none } := by
  refine .last ?_
  simp only [Call.step, run, Traced.ok_bind, Traced.pure_eq, Traced.after_ok, List.append_nil]

theorem completes_scan {n i : Nat} (loop : i + n = s.world.pwmPinCount)
    (run : (findPin pin s.world n i >>= fun found =>
      match found with
      | none => pure s.world
      | some pos => s.world.setSlot pos fun slot => { slot with dutyCycle := duty }) = .ok tr w') :
    Completes D s (.scan pin duty i) (tr ++ [.ret 0]) { s with world := w', call := none } := by
  induction n generalizing s i tr with
  | zero =>
      cases run
      exact .last (Call.step_scan_end (by omega))
  | succ n ih =>
      have more : i < s.world.pwmPinCount := by omega
      have inside : i < maxPwmNum := by
        by_contra outside
        simp [findPin, World.slot_full outside] at run
      have step : (Call.scan pin duty i).step s.world = .ok [.subscript .dutyArray i] (s.world,
          if s.world.dutyArray[i].pin = pin then .update i duty else .scan pin duty (i + 1)) :=
        Call.step_scan more inside
      by_cases found : s.world.dutyArray[i].pin = pin
      · simp only [findPin, World.slot_eq inside, Traced.ok_bind, found, ↓reduceIte,
          Traced.pure_eq, Traced.after_ok, List.append_nil] at run
        obtain ⟨tail, ran, rfl⟩ := Traced.after_eq_ok.mp run
        rw [if_pos found] at step
        rw [List.append_assoc]
        exact .cons step (fun _ same => by cases same) (completes_update ran)
      · simp only [findPin, World.slot_eq inside, Traced.ok_bind, found, ↓reduceIte,
          Traced.after_bind] at run
        obtain ⟨tail, ran, rfl⟩ := Traced.after_eq_ok.mp run
        rw [if_neg found] at step
        rw [List.append_assoc]
        exact .cons step (fun _ same => by cases same) (ih (by simpa using by omega) ran)

theorem completes_request {req : Request} (run : D.ioctl outcome s.world req = .ok tr (w', err)) :
    Completes D s (.start D outcome req) (tr ++ [.ret err])
      { s with world := w', call := none } := by
  cases req with
  | pinSet pin type =>
      obtain ⟨first, w, second, ran, done, rfl⟩ := Traced.bind_eq_ok.mp run
      cases done
      rw [List.append_nil]
      exact .last (Call.step_pinSet ran)
  | gpioSet pin status =>
      obtain ⟨first, w, second, ran, done, rfl⟩ := Traced.bind_eq_ok.mp run
      cases done
      rw [List.append_nil]
      exact .last (Call.step_gpioSet ran)
  | pwmInit args => exact completes_init (by cases D <;> simp [Driver.initCode]) run
  | pwmSet pin duty =>
      obtain ⟨first, w, second, ran, done, rfl⟩ := Traced.bind_eq_ok.mp run
      cases done
      rw [List.append_nil]
      exact completes_scan (Nat.zero_add _) ran

end

/-- A step with whole requests is a run of the system. -/
theorem serialStep_reaches {D : Driver} {s s' : Sys} {label : Label} {tr : List (Agent × Event)}
    (taken : s.serialStep D label = some (.ok tr s')) :
    ∃ n, D.system.Reaches s (label :: List.replicate n .statement) tr s' := by
  cases label with
  | statement => cases taken
  | task | exit => exact ⟨0, Machine.reaches_single.mpr taken⟩
  | request req outcome =>
      by_cases ready : s.call = none ∧ D.accepts s.exit
      · simp only [Sys.serialStep, ready, and_self, ↓reduceIte, Option.some.injEq] at taken
        obtain ⟨raw, served, rfl⟩ := Traced.tag_eq_ok.mp taken
        obtain ⟨first, ⟨w, err⟩, second, ran, done, rfl⟩ := Traced.bind_eq_ok.mp served
        cases done
        obtain ⟨n, opening, s₁, rest, step, reach, shape⟩ := completes_request ran
        refine ⟨n, Machine.reaches_cons.mpr ⟨opening.map (Agent.client, ·), s₁, rest, ?_, ?_, shape⟩⟩
        · simp only [Driver.system, Sys.step, ready, and_self, ↓reduceIte, step, Traced.tag_ok]
        · rw [ready.1]
          exact reach
      · simp [Sys.serialStep, ready] at taken

end KsoftPWM
