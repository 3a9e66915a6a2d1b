import KsoftPWM.Model.System

/-! # Requests of many clients

`pwm_ioctl` is an `unlocked_ioctl`, and `xeno_pwm_ioctl` takes no lock either: while the
request of one client is being served, others enter, run and return.  Any number of
clients is served here, each with at most one request in flight, and their statements
are interleaved with each other and with the steps of the tasks.

The statements are those of `Call`, with one exception.  `gpio_input` and `gpio_output`
read a register word, change it and write it back, and other accesses may come in
between, so such a request is served in two steps.

After its last access a request has nothing left but `break` and `return err`.  Its return
is noted in the step of that access: the order of the answers is the order of the last
accesses, and the handlers may leave in another one.
-/

namespace KsoftPWM

/-- The word `gpio_input` and `gpio_output` access for a pin. -/
def modeWord (pin : Int32) : Int := pin.toInt.tdiv 10

/-- The value they write back. -/
def modeValue (pin type : Int32) (old : BitVec 32) : BitVec 32 :=
  if type = 0 then old &&& ~~~(shl 7 (pin.toInt.tmod 10 * 3))
  else old ||| shl 1 (pin.toInt.tmod 10 * 3)

inductive ClientPc where
  | before (call : Call)
  /-- `gpio_input` or `gpio_output` has read its word and not written it back yet. -/
  | between (pin type : Int32) (old : BitVec 32)
  deriving Repr, DecidableEq

/-- Run the next statement, or the next half of `gpio_input` or `gpio_output`. -/
def ClientPc.step (w : World) : ClientPc → Kernel (World × ClientPc)
  | before (.pinSet pin type) =>
      if type ≠ 0 ∧ type ≠ 1 then pure (w, before (.returned 0))
      else do
        Traced.emit (.gpio pin (.load (modeWord pin)))
        pure (w, between pin type (w.gpio.words (modeWord pin)))
  | before call => do
      let (w', next) ← call.step w
      pure (w', before next)
  | between pin type old => do
      Traced.emit (.gpio pin (.store (modeWord pin) (modeValue pin type old)))
      pure ({ w with gpio := w.gpio.store (modeWord pin) (modeValue pin type old) },
        before (.returned 0))

/-- A request in flight, with the answer its thread creation is going to get. -/
structure Flight where
  req : Request
  outcome : CreateOutcome
  pc : ClientPc
  deriving Repr, DecidableEq

/-- A request that has run its last statement, and what it returns. -/
structure Answer where
  req : Request
  outcome : CreateOutcome
  err : Int
  deriving Repr, DecidableEq

inductive Occurrence where
  | entered (client : Nat) (req : Request)
  | event (e : Event)
  | returned (client : Nat) (answer : Answer)
  deriving Repr, DecidableEq

namespace Flight

/-- Where a request is after a statement, unless that was its last one. -/
def after (f : Flight) : ClientPc → Option Flight
  | .before (.returned _) => none
  | next => some { f with pc := next }

/-- What a request returns, if the statement was its last one. -/
def answered (f : Flight) (client : Nat) : ClientPc → List Occurrence
  | .before (.returned err) => [.returned client ⟨f.req, f.outcome, err⟩]
  | _ => []

end Flight

structure Concurrent where
  world : World
  flight : Nat → Option Flight

inductive Turn where
  | enter (client : Nat) (req : Request) (outcome : CreateOutcome)
  | statement (client : Nat)
  | task (k : Nat) (swap : Bool)
  deriving Repr, DecidableEq

namespace Concurrent

def load (gpio : Gpio) : Concurrent := ⟨World.load gpio, fun _ => none⟩

def put (s : Concurrent) (w : World) (client : Nat) (flight : Option Flight) : Concurrent :=
  ⟨w, Function.update s.flight client flight⟩

/-- A client runs its next statement, and its answer is noted with the last one. -/
def advance (s : Concurrent) (client : Nat) (f : Flight) : Traced Occurrence Fault Concurrent := do
  let (w, next) ← (f.pc.step s.world).tag Occurrence.event
  Traced.ok (f.answered client next) (s.put w client (f.after next))

def step (D : Driver) (s : Concurrent) : Turn → Option (Traced Occurrence Fault Concurrent)
  | .enter client req outcome =>
      if s.flight client = none then
        some (.ok [.entered client req]
          (s.put s.world client (some ⟨req, outcome, .before (.start D outcome req)⟩)))
      else none
  | .statement client => (s.flight client).map (s.advance client)
  | .task k swap => (D.pwmTask s.world k swap).map fun x =>
      (x.tag Occurrence.event) >>= fun w => pure { s with world := w }

end Concurrent

def Driver.concurrent (D : Driver) : Machine Concurrent Turn Occurrence Fault :=
  ⟨Concurrent.step D⟩

/-- The answers of a run, in the order of the last statements of the requests. -/
def answers (tr : List Occurrence) : List Answer :=
  tr.filterMap fun
    | .returned _ answer => some answer
    | _ => none

namespace Concurrent

variable {D : Driver} {s : Concurrent} {client : Nat} {f : Flight}

theorem advance_ok {raw : List Event} {w : World} {next : ClientPc}
    (run : f.pc.step s.world = .ok raw (w, next)) :
    s.advance client f =
      .ok (raw.map .event ++ f.answered client next) (s.put w client (f.after next)) := by
  simp [advance, run]

inductive Taken (D : Driver) (s : Concurrent) :
    Turn → Traced Occurrence Fault Concurrent → Prop where
  | enter {c req outcome} : s.flight c = none →
      Taken D s (.enter c req outcome) (.ok [.entered c req]
        (s.put s.world c (some ⟨req, outcome, .before (.start D outcome req)⟩)))
  | statement {c g} : s.flight c = some g → Taken D s (.statement c) (s.advance c g)
  | task {k swap x} : D.pwmTask s.world k swap = some x →
      Taken D s (.task k swap) ((x.tag Occurrence.event) >>= fun w => pure { s with world := w })

theorem step_taken {turn : Turn} {x : Traced Occurrence Fault Concurrent}
    (taken : s.step D turn = some x) : Taken D s turn x := by
  cases turn with
  | enter client req outcome =>
      by_cases idle : s.flight client = none
      · simp only [step, idle, ↓reduceIte, Option.some.injEq] at taken
        exact taken ▸ .enter idle
      · simp [step, idle] at taken
  | statement client =>
      obtain ⟨f, here, rfl⟩ := Option.map_eq_some_iff.mp taken
      exact .statement here
  | task k swap =>
      obtain ⟨y, stepped, rfl⟩ := Option.map_eq_some_iff.mp taken
      exact .task stepped

@[simp]
theorem put_world (w : World) (flight : Option Flight) : (s.put w client flight).world = w := rfl

theorem flight_put_self (w : World) (flight : Option Flight) :
    (s.put w client flight).flight client = flight :=
  Function.update_self _ _ _

theorem flight_put_other {c : Nat} (other : c ≠ client) (w : World) (flight : Option Flight) :
    (s.put w client flight).flight c = s.flight c :=
  Function.update_of_ne other _ _

end Concurrent

end KsoftPWM
