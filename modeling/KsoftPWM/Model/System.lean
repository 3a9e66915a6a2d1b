import KsoftPWM.Base.Machine
import KsoftPWM.Model.Ioctl
import KsoftPWM.Model.Task

/-! # The running system

The system interleaves the statements of the ioctl requests, the steps of all tasks
and the steps of module exit.  Requests are served one at a time here; what two
requests do to each other is a machine of its own.

A request enters with its first statement: what comes before, up to the switch,
touches nothing that is shared.  softPWM accepts no request once its exit has begun,
since an open file holds the module; xenoPWM accepts them until
`rtdm_dev_unregister`.
-/

namespace KsoftPWM

/-- A request in flight. -/
inductive Call where
  | init (args : InitArgs) (outcome : CreateOutcome) (todo : List Stmt)
  | pinSet (pin type : Int32)
  | gpioSet (pin status : Int32)
  /-- At the loop head of `PWM_SET`. -/
  | scan (pin duty : Int32) (i : Nat)
  /-- At `duty_array[pos].duty_cycle = tmp[1]`. -/
  | update (pos : Nat) (duty : Int32)
  | returned (err : Int)
  deriving Repr, DecidableEq

namespace Call

def start (D : Driver) (outcome : CreateOutcome) : Request → Call
  | .pinSet pin type => pinSet pin type
  | .gpioSet pin status => gpioSet pin status
  | .pwmInit args => init args outcome D.initCode
  | .pwmSet pin duty => scan pin duty 0

def resume (args : InitArgs) (outcome : CreateOutcome) : List Stmt → Call
  | [] => returned 0
  | stmt :: rest => init args outcome (stmt :: rest)

def step (w : World) : Call → Kernel (World × Call)
  | init _ _ [] => pure (w, returned 0)
  | init args outcome (stmt :: rest) => do
      match ← stmt.exec args outcome w with
      | (w', some err) => pure (w', returned err)
      | (w', none) => pure (w', .resume args outcome rest)
  | pinSet pin type => do
      let w' ← KsoftPWM.pinSet pin type w
      pure (w', returned 0)
  | gpioSet pin status => do
      let w' ← gpioStatus pin status w
      pure (w', returned 0)
  | scan pin duty i =>
      if i < w.pwmPinCount then do
        let slot ← w.slot i
        pure (w, if slot.pin = pin then update i duty else scan pin duty (i + 1))
      else pure (w, returned 0)
  | update pos duty => do
      let w' ← w.setSlot pos fun slot => { slot with dutyCycle := duty }
      pure (w', returned 0)
  | returned err => pure (w, returned err)

section
variable {w w' : World} {args : InitArgs} {outcome : CreateOutcome} {stmt : Stmt}
  {rest : List Stmt} {pin type status duty : Int32} {i pos : Nat} {tr : List Event} {err : Int}

theorem step_init_break (run : stmt.exec args outcome w = .ok tr (w', some err)) :
    (init args outcome (stmt :: rest)).step w = .ok tr (w', returned err) := by
  simp only [step, run, Traced.ok_bind, Traced.pure_eq, Traced.after_ok, List.append_nil]

theorem step_init_next (run : stmt.exec args outcome w = .ok tr (w', none)) :
    (init args outcome (stmt :: rest)).step w = .ok tr (w', .resume args outcome rest) := by
  simp only [step, run, Traced.ok_bind, Traced.pure_eq, Traced.after_ok, List.append_nil]

theorem step_pinSet (run : KsoftPWM.pinSet pin type w = .ok tr w') :
    (pinSet pin type).step w = .ok tr (w', returned 0) := by
  simp only [step, run, Traced.ok_bind, Traced.pure_eq, Traced.after_ok, List.append_nil]

theorem step_gpioSet (run : gpioStatus pin status w = .ok tr w') :
    (gpioSet pin status).step w = .ok tr (w', returned 0) := by
  simp only [step, run, Traced.ok_bind, Traced.pure_eq, Traced.after_ok, List.append_nil]

theorem step_scan (more : i < w.pwmPinCount) (inside : i < maxPwmNum) :
    (scan pin duty i).step w = .ok [.subscript .dutyArray i]
      (w, if w.dutyArray[i].pin = pin then update i duty else scan pin duty (i + 1)) := by
  simp only [step, more, ↓reduceIte, World.slot_eq inside, Traced.ok_bind, Traced.pure_eq,
    Traced.after_ok, List.append_nil]

theorem step_scan_end (done : ¬ i < w.pwmPinCount) :
    (scan pin duty i).step w = .ok [] (w, returned 0) := by
  simp only [step, done, ↓reduceIte, Traced.pure_eq]

theorem step_update (inside : pos < maxPwmNum) :
    (update pos duty).step w = .ok [.subscript .dutyArray pos, .subscript .dutyArray pos]
      ({ w with
          dutyArray := w.dutyArray.set pos ({ w.dutyArray[pos] with dutyCycle := duty }) },
        returned 0) := by
  simp only [step, World.setSlot_eq inside, Traced.ok_bind, Traced.pure_eq, Traced.after_ok,
    List.append_nil]

end

/-- The slots a request is still going to count. -/
def pending : Call → Nat
  | init _ _ todo => todo.count .incr
  | _ => 0

/-- What no statement of a request does: move a thread that is awake, or count more
    slots than the request has pending. -/
structure Frame (call : Call) (w w' : World) (next : Call) : Prop where
  count : w'.pwmPinCount + next.pending ≤ w.pwmPinCount + call.pending
  tasks : Grows w.tasks w'.tasks

theorem pending_start (D : Driver) (outcome : CreateOutcome) (req : Request) :
    (start D outcome req).pending = if req.isInit then 1 else 0 := by
  cases req with
  | pwmInit => cases D <;> simp [start, pending, Driver.initCode, Request.isInit]
  | pinSet | gpioSet | pwmSet => rfl

theorem pending_resume (args : InitArgs) (outcome : CreateOutcome) (rest : List Stmt) :
    (resume args outcome rest).pending = rest.count .incr := by
  cases rest <;> rfl

theorem onGpio_frame {w w' : World} {pin : Int32} {f : Int32 → Gpio → Traced Access Fault Gpio}
    {tr : List Event} (run : w.onGpio pin f = .ok tr w') :
    ∃ gpio, w' = { w with gpio := gpio } := by
  obtain ⟨first, gpio, second, -, done, -⟩ := Traced.bind_eq_ok.mp run
  cases done
  exact ⟨gpio, rfl⟩

theorem actOnPin_frame {w w' : World} {pin code : Int32}
    {zero one : Int32 → Gpio → Traced Access Fault Gpio} {tr : List Event}
    (run : actOnPin zero one pin code w = .ok tr w') : ∃ gpio, w' = { w with gpio := gpio } := by
  unfold actOnPin at run
  split at run
  · cases run
    exact ⟨w.gpio, rfl⟩
  · exact onGpio_frame run

theorem step_frame {call next : Call} {w w' : World} {tr : List Event}
    (run : call.step w = .ok tr (w', next)) : call.Frame w w' next := by
  cases call with
  | init args outcome todo =>
      cases todo with
      | nil =>
          cases run
          exact ⟨Nat.le_refl _, .refl _⟩
      | cons stmt rest =>
          obtain ⟨_, ⟨w₁, brk⟩, _, ran, done, -⟩ := Traced.bind_eq_ok.mp run
          have frame := Stmt.exec_frame ran
          have counted := frame.count
          have member : (stmt :: rest).count .incr = rest.count .incr +
              if stmt = .incr then 1 else 0 := by
            simp [List.count_cons]
          cases brk with
          | some err =>
              cases done
              refine ⟨?_, frame.tasks⟩
              simp only [pending]
              omega
          | none =>
              cases done
              refine ⟨?_, frame.tasks⟩
              rw [pending_resume]
              simp only [pending]
              omega
  | pinSet pin type =>
      obtain ⟨_, w₁, _, ran, done, -⟩ := Traced.bind_eq_ok.mp run
      rw [pinSet_eq] at ran
      obtain ⟨gpio, rfl⟩ := actOnPin_frame ran
      cases done
      exact ⟨Nat.le_refl _, .refl _⟩
  | gpioSet pin status =>
      obtain ⟨_, w₁, _, ran, done, -⟩ := Traced.bind_eq_ok.mp run
      rw [gpioStatus_eq] at ran
      obtain ⟨gpio, rfl⟩ := actOnPin_frame ran
      cases done
      exact ⟨Nat.le_refl _, .refl _⟩
  | scan pin duty i =>
      simp only [step] at run
      split at run
      · obtain ⟨_, slot, _, -, done, -⟩ := Traced.bind_eq_ok.mp run
        cases done
        refine ⟨?_, .refl _⟩
        split <;> exact Nat.le_refl _
      · cases run
        exact ⟨Nat.le_refl _, .refl _⟩
  | update pos duty =>
      obtain ⟨_, w₁, _, ran, done, -⟩ := Traced.bind_eq_ok.mp run
      obtain ⟨_, slot, _, -, ran, -⟩ := Traced.bind_eq_ok.mp ran
      obtain ⟨_, entries, _, -, ran, -⟩ := Traced.bind_eq_ok.mp ran
      cases ran
      cases done
      exact ⟨Nat.le_refl _, .refl _⟩
  | returned err =>
      cases run
      exact ⟨Nat.le_refl _, .refl _⟩

def onPin : Call → Bool
  | pinSet .. | gpioSet .. => true
  | _ => false

theorem step_gpio {call next : Call} {w w' : World} {tr : List Event} (other : call.onPin = false)
    (run : call.step w = .ok tr (w', next)) : w'.gpio = w.gpio ∧ next.onPin = false := by
  cases call with
  | pinSet | gpioSet => cases other
  | init args outcome todo =>
      cases todo with
      | nil =>
          cases run
          exact ⟨rfl, rfl⟩
      | cons stmt rest =>
          obtain ⟨_, ⟨w₁, brk⟩, _, ran, done, -⟩ := Traced.bind_eq_ok.mp run
          have gpio := (Stmt.exec_frame ran).gpio
          cases brk with
          | some err =>
              cases done
              exact ⟨gpio, rfl⟩
          | none =>
              cases done
              exact ⟨gpio, by cases rest <;> rfl⟩
  | scan pin duty i =>
      simp only [step] at run
      split at run
      · obtain ⟨_, slot, _, -, done, -⟩ := Traced.bind_eq_ok.mp run
        cases done
        refine ⟨rfl, ?_⟩
        split <;> rfl
      · cases run
        exact ⟨rfl, rfl⟩
  | update pos duty =>
      obtain ⟨_, w₁, _, ran, done, -⟩ := Traced.bind_eq_ok.mp run
      obtain ⟨_, slot, _, -, ran, -⟩ := Traced.bind_eq_ok.mp ran
      obtain ⟨_, entries, _, -, ran, -⟩ := Traced.bind_eq_ok.mp ran
      cases ran
      cases done
      exact ⟨rfl, rfl⟩
  | returned err =>
      cases run
      exact ⟨rfl, rfl⟩

def spawns : Call → Bool
  | init _ outcome (stmt :: _) => stmt.spawns outcome
  | _ => false

theorem step_tasks {call next : Call} {w w' : World} {tr : List Event}
    (run : call.step w = .ok tr (w', next)) :
    call.spawns = true ∧ (∃ name args pc, pc ≠ .returned ∧
        w'.tasks = (w.spawn name args pc).tasks) ∨
      call.spawns = false ∧ (w'.tasks = w.tasks ∨
        (∃ args outcome rest, call = .init args outcome (.wakeUp :: rest)) ∧
          ∃ k, w'.tasks = (w.wake k).tasks) := by
  cases call with
  | init args outcome todo =>
      cases todo with
      | nil =>
          cases run
          exact .inr ⟨rfl, .inl rfl⟩
      | cons stmt rest =>
          obtain ⟨_, ⟨w₁, brk⟩, _, ran, done, -⟩ := Traced.bind_eq_ok.mp run
          obtain rfl : w' = w₁ := by
            cases brk with
            | some err | none =>
                cases done
                rfl
          rcases Stmt.exec_tasks ran with ⟨spawns, name, pc, going, tasks⟩ | ⟨idle, tasks | ⟨rfl, tasks⟩⟩
          · exact .inl ⟨spawns, name, args, pc, going, tasks⟩
          · exact .inr ⟨idle, .inl tasks⟩
          · exact .inr ⟨idle, .inr ⟨⟨args, outcome, rest, rfl⟩, tasks⟩⟩
  | pinSet pin type =>
      obtain ⟨_, w₁, _, ran, done, -⟩ := Traced.bind_eq_ok.mp run
      rw [pinSet_eq] at ran
      obtain ⟨gpio, rfl⟩ := actOnPin_frame ran
      cases done
      exact .inr ⟨rfl, .inl rfl⟩
  | gpioSet pin status =>
      obtain ⟨_, w₁, _, ran, done, -⟩ := Traced.bind_eq_ok.mp run
      rw [gpioStatus_eq] at ran
      obtain ⟨gpio, rfl⟩ := actOnPin_frame ran
      cases done
      exact .inr ⟨rfl, .inl rfl⟩
  | scan pin duty i =>
      simp only [step] at run
      split at run
      · obtain ⟨_, slot, _, -, done, -⟩ := Traced.bind_eq_ok.mp run
        cases done
        exact .inr ⟨rfl, .inl rfl⟩
      · cases run
        exact .inr ⟨rfl, .inl rfl⟩
  | update pos duty =>
      obtain ⟨_, w₁, _, ran, done, -⟩ := Traced.bind_eq_ok.mp run
      obtain ⟨_, slot, _, -, ran, -⟩ := Traced.bind_eq_ok.mp ran
      obtain ⟨_, entries, _, -, ran, -⟩ := Traced.bind_eq_ok.mp ran
      cases ran
      cases done
      exact .inr ⟨rfl, .inl rfl⟩
  | returned err =>
      cases run
      exact .inr ⟨rfl, .inl rfl⟩

end Call

/-- Where module exit is. -/
inductive ExitPc where
  | idle
  /-- At the head of the loop over the task table. -/
  | loop (i : Nat)
  /-- Inside `kthread_stop` or `rtdm_task_destroy`, waiting for the thread. -/
  | join (i task : Nat)
  | tail (todo : List ExitStmt)
  deriving Repr, DecidableEq

def Driver.exitTail : Driver → List ExitStmt
  | .softPWM => [.iounmap, .unregisterChrdevRegion, .kfreeCdev]
  | .xenoPWM => [.iounmap, .rtdmDevUnregister]

/-- Whether a request can still be delivered. -/
def Driver.accepts : Driver → ExitPc → Bool
  | .softPWM, pc => pc == .idle
  | .xenoPWM, .tail todo => todo.contains .rtdmDevUnregister
  | .xenoPWM, _ => true

structure Sys where
  world : World
  call : Option Call
  exit : ExitPc

inductive Label where
  | request (req : Request) (outcome : CreateOutcome)
  | statement
  | task (k : Nat) (swap : Bool)
  | exit
  deriving Repr, DecidableEq

inductive Agent where
  | client
  | task (k : Nat)
  | exit
  deriving Repr, DecidableEq

namespace Sys

def load (gpio : Gpio) : Sys := ⟨World.load gpio, none, .idle⟩

/-- Run the next statement of a request and note its return. -/
def advance (s : Sys) (call : Call) : Kernel Sys := do
  let (w, next) ← call.step s.world
  match next with
  | .returned err =>
      Traced.emit (.ret err)
      pure { s with world := w, call := none }
  | next => pure { s with world := w, call := some next }

theorem advance_returned {s : Sys} {call : Call} {tr : List Event} {w : World} {err : Int}
    (run : call.step s.world = .ok tr (w, .returned err)) :
    s.advance call = .ok (tr ++ [.ret err]) { s with world := w, call := none } := by
  simp [advance, run]

theorem advance_next {s : Sys} {call next : Call} {tr : List Event} {w : World}
    (run : call.step s.world = .ok tr (w, next)) (going : ∀ err, next ≠ .returned err) :
    s.advance call = .ok tr { s with world := w, call := some next } := by
  cases next with
  | returned err => exact absurd rfl (going err)
  | init | pinSet | gpioSet | scan | update => simp [advance, run]

def pending (s : Sys) : Nat := s.call.elim 0 Call.pending

theorem advance_frame {s s' : Sys} {call : Call} {tr : List Event}
    (run : s.advance call = .ok tr s') :
    s'.exit = s.exit ∧
      s'.world.pwmPinCount + s'.pending ≤ s.world.pwmPinCount + call.pending ∧
      Grows s.world.tasks s'.world.tasks := by
  obtain ⟨_, ⟨w, next⟩, _, ran, done, -⟩ := Traced.bind_eq_ok.mp run
  have frame := Call.step_frame ran
  cases next with
  | returned err =>
      cases done
      exact ⟨rfl, frame.count, frame.tasks⟩
  | init | pinSet | gpioSet | scan | update =>
      cases done
      exact ⟨rfl, frame.count, frame.tasks⟩

/-- One step of module exit. -/
def exitStep (D : Driver) (s : Sys) : Option (Kernel Sys) :=
  match s.exit with
  | .idle => some (pure { s with exit := .loop 0 })
  | .loop i => some <|
      if i < s.world.pwmPinCount then do
        match ← subscript .taskTable s.world.taskTable i with
        | .thread k =>
            Traced.emit (.stop k)
            pure { s with world := s.world.requestStop k, exit := .join i k }
        | ref => .fault [] (.notAThread ref)
      else pure { s with exit := .tail D.exitTail }
  | .join i k =>
      if s.world.tasks[k]?.map (·.pc) = some .returned then
        some (pure { s with exit := .loop (i + 1) })
      else none
  | .tail [] => none
  | .tail (stmt :: rest) => some do
      Traced.emit (.exit stmt)
      pure { s with exit := .tail rest }

/-- Everything one step of module exit can do. -/
inductive ExitMove (D : Driver) (s : Sys) : Sys → List Event → Prop where
  | start : s.exit = .idle → ExitMove D s { s with exit := .loop 0 } []
  | stop {i k} : s.exit = .loop i → i < s.world.pwmPinCount →
      s.world.taskTable[i]? = some (.thread k) →
      ExitMove D s { s with world := s.world.requestStop k, exit := .join i k }
        [.subscript .taskTable i, .stop k]
  | leave {i} : s.exit = .loop i → ¬ i < s.world.pwmPinCount →
      ExitMove D s { s with exit := .tail D.exitTail } []
  | joined {i k} : s.exit = .join i k → s.world.tasks[k]?.map (·.pc) = some .returned →
      ExitMove D s { s with exit := .loop (i + 1) } []
  | tail {stmt rest} : s.exit = .tail (stmt :: rest) →
      ExitMove D s { s with exit := .tail rest } [.exit stmt]

theorem ExitMove.grows {D : Driver} {s s' : Sys} {tr : List Event} (move : ExitMove D s s' tr) :
    Grows s.world.tasks s'.world.tasks := by
  cases move with
  | stop => exact s.world.requestStop_grows _
  | start | leave | joined | tail => exact .refl _

/-- A step of module exit is one of its moves, if the loop finds a thread in every
    entry it visits. -/
theorem exitStep_move {D : Driver} {s : Sys} {x : Kernel Sys}
    (bound : s.world.pwmPinCount ≤ maxPwmNum)
    (threads : ∀ i < s.world.pwmPinCount, ∃ k, s.world.taskTable[i]? = some (.thread k))
    (taken : s.exitStep D = some x) : ∃ s' tr, ExitMove D s s' tr ∧ x = .ok tr s' := by
  cases at_ : s.exit with
  | idle =>
      simp only [exitStep, at_, Option.some.injEq] at taken
      exact ⟨_, _, .start at_, taken.symm⟩
  | loop i =>
      by_cases more : i < s.world.pwmPinCount
      · obtain ⟨k, thread⟩ := threads i more
        have inside : i < maxPwmNum := Nat.lt_of_lt_of_le more bound
        have entry : s.world.taskTable[i] = .thread k := by
          simpa [Vector.getElem?_eq_getElem inside] using thread
        simp [exitStep, at_, more, subscript_eq inside, entry] at taken
        exact ⟨_, _, .stop at_ more thread, taken.symm⟩
      · simp only [exitStep, at_, more, ↓reduceIte, Option.some.injEq] at taken
        exact ⟨_, _, .leave at_ more, taken.symm⟩
  | join i k =>
      by_cases returned : s.world.tasks[k]?.map (·.pc) = some .returned
      · simp only [exitStep, at_, returned, ↓reduceIte, Option.some.injEq] at taken
        exact ⟨_, _, .joined at_ returned, taken.symm⟩
      · simp [exitStep, at_, returned] at taken
  | tail todo =>
      cases todo with
      | nil => simp [exitStep, at_] at taken
      | cons stmt rest =>
          simp only [exitStep, at_, Option.some.injEq] at taken
          exact ⟨_, _, .tail at_, taken.symm⟩

def step (D : Driver) (s : Sys) : Label → Option (Traced (Agent × Event) Fault Sys)
  | .request req outcome =>
      if s.call = none ∧ D.accepts s.exit then
        some ((s.advance (.start D outcome req)).tag (Agent.client, ·))
      else none
  | .statement => s.call.map fun call => (s.advance call).tag (Agent.client, ·)
  | .task k swap => (D.pwmTask s.world k swap).map fun x =>
      (x.tag (Agent.task k, ·)) >>= fun w => pure { s with world := w }
  | .exit =>
      if s.call = none then (s.exitStep D).map (Traced.tag (Agent.exit, ·)) else none

inductive Taken (D : Driver) (s : Sys) : Label → Traced (Agent × Event) Fault Sys → Prop where
  | request {req outcome} : s.call = none → D.accepts s.exit →
      Taken D s (.request req outcome)
        ((s.advance (.start D outcome req)).tag (Agent.client, ·))
  | statement {call} : s.call = some call →
      Taken D s .statement ((s.advance call).tag (Agent.client, ·))
  | task {k swap x} : D.pwmTask s.world k swap = some x →
      Taken D s (.task k swap)
        ((x.tag (Agent.task k, ·)) >>= fun w => pure { s with world := w })
  | exit {x} : s.call = none → s.exitStep D = some x →
      Taken D s .exit (x.tag (Agent.exit, ·))

theorem step_taken {D : Driver} {s : Sys} {label : Label} {x : Traced (Agent × Event) Fault Sys}
    (taken : s.step D label = some x) : Taken D s label x := by
  cases label with
  | request req outcome =>
      by_cases ready : s.call = none ∧ D.accepts s.exit
      · simp only [step, ready, and_self, ↓reduceIte, Option.some.injEq] at taken
        exact taken ▸ .request ready.1 ready.2
      · simp [step, ready] at taken
  | statement =>
      obtain ⟨call, here, rfl⟩ := Option.map_eq_some_iff.mp taken
      exact .statement here
  | task k swap =>
      obtain ⟨y, stepped, rfl⟩ := Option.map_eq_some_iff.mp taken
      exact .task stepped
  | exit =>
      by_cases idle : s.call = none
      · simp only [step, idle, ↓reduceIte, Option.map_eq_some_iff] at taken
        obtain ⟨y, stepped, rfl⟩ := taken
        exact .exit idle stepped
      · simp [step, idle] at taken

end Sys

def Driver.system (D : Driver) : Machine Sys Label (Agent × Event) Fault := ⟨Sys.step D⟩

/-- The schedule of a `PWM_INIT` whose thread is created, run without interruption. -/
def Driver.openSchedule (D : Driver) (args : InitArgs) : List Label :=
  .request (.pwmInit args) .created :: List.replicate (D.initCode.length - 1) .statement

end KsoftPWM
