import KsoftPWM.Model.Concurrent

/-! # What the drivers are for

A panel is what a driver is meant to be: a row of channels, each of which turns its pin on and
off and looks at its duty cycle in between, and clients whose requests take effect at one
moment between their entry and their return.  A new channel starts before it is counted in,
and until it is counted no `PWM_SET` finds it; this is the only request that takes effect at
two moments.

The panel has no registers of its own.  `PIN_SET` and `GPIO_SET` have no effect in it: they
enter and return.
-/

namespace KsoftPWM

/-- What a channel was opened with, its duty cycle, and the level it gave its pin last. -/
structure Channel where
  args : InitArgs
  duty : Int32
  high : Bool
  deriving Repr, DecidableEq

inductive Stage where
  | waiting
  /-- The channel of a `PWM_INIT` runs and is not counted yet. -/
  | started
  | served (err : Int)
  deriving Repr, DecidableEq

structure PanelClient where
  req : Request
  outcome : CreateOutcome
  stage : Stage
  deriving Repr, DecidableEq

structure Panel where
  channels : List Channel
  counted : Nat
  clients : Nat → Option PanelClient

inductive PanelMove where
  | enter (client : Nat) (req : Request) (outcome : CreateOutcome)
  /-- The request of the client takes effect. -/
  | act (client : Nat)
  | leave (client : Nat)
  | toggle (k : Nat)
  | read (k : Nat)
  deriving Repr, DecidableEq

inductive PanelEvent where
  | entered (client : Nat) (req : Request)
  | returned (client : Nat) (answer : Answer)
  | driven (k : Nat) (pin : Int32) (level : Bool)
  | duty (k : Nat) (value : Int32)
  deriving Repr, DecidableEq

namespace Panel

def empty : Panel := ⟨[], 0, fun _ => none⟩

def put (p : Panel) (c : Nat) (client : Option PanelClient) : Panel :=
  { p with clients := Function.update p.clients c client }

/-- The first counted channel with the pin takes the duty cycle. -/
def write (p : Panel) (pin duty : Int32) : Panel :=
  match (p.channels.take p.counted).findIdx? fun ch => ch.args.pin = pin with
  | none => p
  | some k => { p with channels := p.channels.modify k fun ch => { ch with duty := duty } }

/-- What a request does when it takes effect, with the duty cycle of a new channel. -/
def act (initial : Int32) (p : Panel) : PanelClient → Option (Panel × Stage)
  | ⟨.pwmInit args, .created, .waiting⟩ =>
      some ({ p with channels := p.channels ++ [⟨args, initial, false⟩] }, .started)
  | ⟨.pwmInit _, .failed why, .waiting⟩ => some (p, .served why.value)
  | ⟨.pwmSet pin duty, _, .waiting⟩ => some (p.write pin duty, .served 0)
  | ⟨.pinSet .., _, .waiting⟩ | ⟨.gpioSet .., _, .waiting⟩ => some (p, .served 0)
  | ⟨_, _, .started⟩ => some ({ p with counted := p.counted + 1 }, .served 0)
  | ⟨_, _, .served _⟩ => none

def step (initial : Int32) (p : Panel) : PanelMove → Option (Traced PanelEvent Empty Panel)
  | .enter c req outcome =>
      if p.clients c = none then
        some (.ok [.entered c req] (p.put c (some ⟨req, outcome, .waiting⟩)))
      else none
  | .act c => do
      let client ← p.clients c
      let (p', stage) ← p.act initial client
      pure (.ok [] (p'.put c (some { client with stage := stage })))
  | .leave c =>
      match p.clients c with
      | some ⟨req, outcome, .served err⟩ =>
          some (.ok [.returned c ⟨req, outcome, err⟩] (p.put c none))
      | _ => none
  | .toggle k => p.channels[k]?.map fun ch =>
      .ok [.driven k ch.args.pin !ch.high]
        { p with channels := p.channels.modify k fun ch => { ch with high := !ch.high } }
  | .read k => p.channels[k]?.map fun ch => .ok [.duty k ch.duty] p

/-- A panel whose new channels have the given duty cycle. -/
def machine (initial : Int32) : Machine Panel PanelMove PanelEvent Empty := ⟨step initial⟩

end Panel

variable {p p' : Panel} {c k : Nat} {initial : Int32} {client : PanelClient} {stage : Stage} {err : Int}

/-! ## Moves of the panel -/

theorem Panel.reaches_act (here : p.clients c = some client)
    (acts : p.act initial client = some (p', stage)) :
    (Panel.machine initial).Reaches p [.act c] [] (p'.put c (some { client with stage := stage })) := by
  refine Machine.reaches_single.mpr ?_
  simp [Panel.machine, Panel.step, here, acts]

theorem Panel.reaches_return (here : p.clients c = some client)
    (acts : p.act initial client = some (p', .served err)) :
    (Panel.machine initial).Reaches p [.act c, .leave c]
      [.returned c ⟨client.req, client.outcome, err⟩] (p'.put c none) := by
  refine Machine.reaches_cons.mpr ⟨[], _, _, Machine.reaches_single.mp (reaches_act here acts), ?_, rfl⟩
  refine Machine.reaches_single.mpr ?_
  simp [Panel.machine, Panel.step, Panel.put]

theorem Panel.write_kept (p : Panel) (pin duty : Int32) :
    (p.write pin duty).clients = p.clients ∧ (p.write pin duty).counted = p.counted := by
  unfold Panel.write
  split <;> exact ⟨rfl, rfl⟩

theorem Panel.put_self (here : p.clients c = some client) : p.put c (some client) = p := by
  unfold Panel.put
  rw [← here, Function.update_eq_self]

/-! ## Channels alternate -/

def drives (k : Nat) (events : List PanelEvent) : List (Int32 × Bool) :=
  events.filterMap fun
    | .driven j pin level => if j = k then some (pin, level) else none
    | _ => none

def alternating (pin : Int32) (n : Nat) : List (Int32 × Bool) :=
  (List.range n).map fun i => (pin, i % 2 == 0)

theorem alternating_succ (pin : Int32) (n : Nat) :
    alternating pin (n + 1) = alternating pin n ++ [(pin, n % 2 == 0)] := by
  simp [alternating, List.range_succ]

/-- What a channel has driven so far, and the level that its number of drives leaves. -/
def Alternates (events : List PanelEvent) (p : Panel) : Prop :=
  (∀ k, p.channels[k]? = none → drives k events = []) ∧
  ∀ k ch, p.channels[k]? = some ch →
    ∃ n, drives k events = alternating ch.args.pin n ∧ ch.high = (n % 2 == 1)

theorem Alternates.still {events shown : List PanelEvent} (alternates : Alternates events p)
    (silent : ∀ k, drives k shown = [])
    (kept : ∀ k : Nat, p'.channels[k]? = none → p.channels[k]? = none)
    (same : ∀ (k : Nat) ch', p'.channels[k]? = some ch' →
      (∃ ch, p.channels[k]? = some ch ∧ ch'.args = ch.args ∧ ch'.high = ch.high) ∨
        p.channels[k]? = none ∧ ch'.high = false) : Alternates (events ++ shown) p' := by
  have before : ∀ k, drives k (events ++ shown) = drives k events := by
    intro k
    rw [drives, List.filterMap_append]
    exact (congrArg (drives k events ++ ·) (silent k)).trans (List.append_nil _)
  refine ⟨fun k absent => (before k).trans (alternates.1 k (kept k absent)), fun k ch' here' => ?_⟩
  rw [before]
  rcases same k ch' here' with ⟨ch, here, args, high⟩ | ⟨absent, low⟩
  · rw [args, high]
    exact alternates.2 k ch here
  · exact ⟨0, alternates.1 k absent, low⟩

/-- What a request may do to the channels when it takes effect. -/
theorem Panel.act_channels (acts : p.act initial client = some (p', stage)) :
    p'.channels = p.channels ∨ (∃ args, p'.channels = p.channels ++ [⟨args, initial, false⟩]) ∨
      ∃ k duty, p'.channels = p.channels.modify k fun ch => { ch with duty := duty } := by
  unfold Panel.act at acts
  split at acts <;> cases acts
  · exact .inr (.inl ⟨_, rfl⟩)
  · exact .inl rfl
  · unfold Panel.write
    split
    · exact .inl rfl
    · exact .inr (.inr ⟨_, _, rfl⟩)
  · exact .inl rfl
  · exact .inl rfl
  · exact .inl rfl

theorem Alternates.act {events : List PanelEvent} (alternates : Alternates events p)
    (acts : p.act initial client = some (p', stage)) : Alternates (events ++ []) p' := by
  refine alternates.still (fun _ => rfl) ?_ ?_
  · intro k absent
    rcases Panel.act_channels acts with same | ⟨args, more⟩ | ⟨j, duty, changed⟩
    · exact same ▸ absent
    · rw [more, List.getElem?_eq_none_iff, List.length_append] at absent
      exact List.getElem?_eq_none (by omega)
    · rw [changed, List.getElem?_eq_none_iff, List.length_modify] at absent
      exact List.getElem?_eq_none absent
  · intro k ch' here'
    rcases Panel.act_channels acts with same | ⟨args, more⟩ | ⟨j, duty, changed⟩
    · exact .inl ⟨ch', same ▸ here', rfl, rfl⟩
    · rw [more] at here'
      by_cases below : k < p.channels.length
      · rw [List.getElem?_append_left below] at here'
        exact .inl ⟨ch', here', rfl, rfl⟩
      · rw [List.getElem?_append_right (Nat.not_lt.mp below), List.getElem?_singleton] at here'
        refine .inr ⟨List.getElem?_eq_none (Nat.not_lt.mp below), ?_⟩
        split at here'
        · cases here'
          rfl
        · cases here'
    · rw [changed, List.getElem?_modify] at here'
      obtain ⟨ch, here, rfl⟩ := Option.map_eq_some_iff.mp here'
      exact .inl ⟨ch, here, by split <;> exact ⟨rfl, rfl⟩⟩

theorem Alternates.toggle {events : List PanelEvent} {ch : Channel}
    (alternates : Alternates events p) (here : p.channels[k]? = some ch) :
    Alternates (events ++ [.driven k ch.args.pin !ch.high])
      { p with channels := p.channels.modify k fun ch => { ch with high := !ch.high } } := by
  have others : ∀ j, k ≠ j →
      drives j (events ++ [.driven k ch.args.pin !ch.high]) = drives j events := by
    intro j other
    simp [drives, other]
  constructor
  · intro j absent
    have before : p.channels[j]? = none := by
      rw [List.getElem?_eq_none_iff, List.length_modify] at absent
      exact List.getElem?_eq_none absent
    have other : k ≠ j := by
      rintro rfl
      rw [here] at before
      cases before
    exact (others j other).trans (alternates.1 j before)
  · intro j ch' here'
    by_cases mine : k = j
    · subst mine
      obtain ⟨n, driven, high⟩ := alternates.2 k ch here
      have flipped : some { ch with high := !ch.high } = some ch' := by
        simpa [here] using here'
      obtain rfl := Option.some.inj flipped
      refine ⟨n + 1, ?_, ?_⟩
      · rw [alternating_succ, ← driven, drives, List.filterMap_append]
        rcases Nat.mod_two_eq_zero_or_one n with even | odd
        · simp [drives, high, even]
        · simp [drives, high, odd]
      · rcases Nat.mod_two_eq_zero_or_one n with even | odd
        · simp [high, even, Nat.add_mod]
        · simp [high, odd, Nat.add_mod]
    · rw [others j mine]
      rw [List.getElem?_modify_ne _ _ mine] at here'
      exact alternates.2 j ch' here'

theorem Alternates.step {events shown : List PanelEvent} {move : PanelMove}
    (alternates : Alternates events p)
    (taken : (Panel.machine initial).step p move = some (.ok shown p')) :
    Alternates (events ++ shown) p' := by
  have unmoved : ∀ {q : Panel}, q.channels = p.channels → (∀ k, drives k shown = []) →
      Alternates (events ++ shown) q := by
    intro q same silent
    exact alternates.still silent (fun k absent => same ▸ absent)
      (fun k ch here => .inl ⟨ch, same ▸ here, rfl, rfl⟩)
  cases move with
  | enter c req outcome =>
      simp only [Panel.machine, Panel.step] at taken
      split at taken
      · cases taken
        exact unmoved rfl (fun _ => rfl)
      · cases taken
  | act c =>
      obtain ⟨client, -, taken⟩ := Option.bind_eq_some_iff.mp taken
      obtain ⟨⟨p₁, stage⟩, acts, taken⟩ := Option.bind_eq_some_iff.mp taken
      cases taken
      have acted := alternates.act acts
      exact acted
  | leave c =>
      simp only [Panel.machine, Panel.step] at taken
      split at taken
      · cases taken
        exact unmoved rfl (fun _ => rfl)
      · cases taken
  | toggle k =>
      obtain ⟨ch, here, same⟩ := Option.map_eq_some_iff.mp taken
      cases same
      exact alternates.toggle here
  | read k =>
      obtain ⟨ch, here, same⟩ := Option.map_eq_some_iff.mp taken
      cases same
      exact unmoved rfl (fun _ => rfl)

end KsoftPWM
