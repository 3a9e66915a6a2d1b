import Mathlib.Data.List.Induction
import KsoftPWM.History
import KsoftPWM.Select

/-! # Sequences of pin-mode requests

What a client finds in the function-select fields after any sequence of `PIN_SET` requests.
Requests for other pins do not matter.  An `INPUT` decides the field of its pin; an `OUTPUT`
only sets the lowest of three bits, so it gives the output function only to a field whose
other two bits are clear, as they are after an `INPUT`.
-/

namespace KsoftPWM

/-! ## Each pin by itself -/

theorem pinSets_run (D : Driver) {s : Sys} (idle : s.call = none) (accepts : D.accepts s.exit = true)
    (outcome : CreateOutcome) (reqs : List PinRequest) :
    ∃ tr, D.serial.Reaches s (reqs.map fun r => .request r.request outcome) tr
      { s with world := { s.world with gpio := reqs.foldl Gpio.select s.world.gpio } } := by
  induction reqs generalizing s with
  | nil => exact ⟨[], Machine.reaches_nil.mpr ⟨rfl, rfl⟩⟩
  | cons r reqs ih =>
      obtain ⟨raw, served⟩ := ioctl_select D outcome r s.world
      obtain ⟨first, taken⟩ : ∃ first, D.serial.step s (.request r.request outcome) =
          some (.ok first { s with world := { s.world with gpio := s.world.gpio.select r } }) := by
        simp [Driver.serial, Sys.serialStep, idle, accepts, Sys.serve, served]
      obtain ⟨rest, reach⟩ := ih (s := { s with world := { s.world with
        gpio := s.world.gpio.select r } }) idle accepts
      exact ⟨first ++ rest, Machine.reaches_cons.mpr ⟨first, _, rest, taken, reach, rfl⟩⟩

/-- The field of a pin after a sequence of requests: its own requests act on it in their
    order. -/
theorem field_selects (g : Gpio) (reqs : List PinRequest) (p : Fin 54) :
    (reqs.foldl Gpio.select g).field p =
      (reqs.filter (·.pin = p)).foldl (fun f r => r.type.act f) (g.field p) :=
  read_foldl_act Gpio.field PinRequest.pin (fun r => r.type.act)
    (fun _ _ _ other => field_select_other other) field_select_self reqs g p

theorem getLsbD_selects (g : Gpio) (reqs : List PinRequest) {v : Int} {i : Nat}
    (outside : ∀ r ∈ reqs, v ≠ selectWord r.pin ∨ i / 3 ≠ selectPlace r.pin) :
    ((reqs.foldl Gpio.select g).words v).getLsbD i = (g.words v).getLsbD i := by
  induction reqs generalizing g with
  | nil => rfl
  | cons r reqs ih =>
      rw [List.foldl_cons, ih _ fun r' member => outside r' (List.mem_cons_of_mem r member)]
      exact getLsbD_select (outside r List.mem_cons_self)

/-- Whatever the registers hold, the field of each pin after a sequence of requests comes from
    its own initial contents and its own requests, requests for different pins commute, and
    nothing but the fields changes: not the top two bits of a word, and no other word. -/
theorem pin_modes_are_local (D : Driver) (s : Sys) (outcome : CreateOutcome)
    (idle : s.call = none) (accepts : D.accepts s.exit = true) (reqs : List PinRequest) :
    ∃ tr s', D.serial.Reaches s (reqs.map fun r => .request r.request outcome) tr s' ∧
      s' = { s with world := { s.world with gpio := s'.world.gpio } } ∧
      (∀ p, s'.world.gpio.field p =
        (reqs.filter (·.pin = p)).foldl (fun f r => r.type.act f) (s.world.gpio.field p)) ∧
      (∀ v i, 30 ≤ i → (s'.world.gpio.words v).getLsbD i = (s.world.gpio.words v).getLsbD i) ∧
      (∀ v, v < 0 ∨ 5 < v → s'.world.gpio.words v = s.world.gpio.words v) ∧
      ∀ (q r : PinRequest) tr₁ s₁ tr₂ s₂, q.pin ≠ r.pin →
        D.serial.Reaches s [.request q.request outcome, .request r.request outcome] tr₁ s₁ →
        D.serial.Reaches s [.request r.request outcome, .request q.request outcome] tr₂ s₂ →
        s₁ = s₂ := by
  obtain ⟨tr, reach⟩ := pinSets_run D idle accepts outcome reqs
  refine ⟨tr, _, reach, rfl, field_selects s.world.gpio reqs, ?_, ?_, ?_⟩
  · intro v i top
    refine getLsbD_selects s.world.gpio reqs fun r _ => .inr ?_
    have place := selectPlace_lt r.pin
    omega
  · intro v far
    apply BitVec.eq_of_getLsbD_eq
    intro i _
    refine getLsbD_selects s.world.gpio reqs fun r _ => .inl ?_
    have word := selectWord_range r.pin
    omega
  · intro q r tr₁ s₁ tr₂ s₂ other reach₁ reach₂
    obtain ⟨_, run₁⟩ := pinSets_run D idle accepts outcome [q, r]
    obtain ⟨_, run₂⟩ := pinSets_run D idle accepts outcome [r, q]
    obtain ⟨-, rfl⟩ := reach₁.functional run₁
    obtain ⟨-, rfl⟩ := reach₂.functional run₂
    simp only [List.foldl_cons, List.foldl_nil, select_comm other]

/-- Pins 16 and 17 share a word: each gets its own mode. -/
theorem pin_modes_are_local_two :
    ∃ tr s', Driver.softPWM.serial.Reaches (Sys.load .reset)
        [.request (.pinSet 16 1) .created, .request (.pinSet 17 0) .created] tr s' ∧
      s'.world.gpio.field 16 = 1 ∧ s'.world.gpio.field 17 = 0 := by
  obtain ⟨tr, s', reach, -, fields, -⟩ := pin_modes_are_local .softPWM (Sys.load .reset) .created
    rfl rfl [⟨16, .output⟩, ⟨17, .input⟩]
  refine ⟨tr, s', reach, ?_, ?_⟩
  · rw [fields]
    decide
  · rw [fields]
    decide

/-! ## The last request -/

def PinRequest.call (r : PinRequest) : UserCall := .pinMode (pinNumber r.pin) r.type.code

/-- The type of the last request for a pin. -/
def lastType (p : Fin 54) (reqs : List PinRequest) : Option PinType :=
  ((reqs.filter (·.pin = p)).getLast?).map PinRequest.type

/-- What the last request asks for: the input function, the output function, or nothing. -/
def wantedField (initial : BitVec 3) : Option PinType → BitVec 3
  | none => initial
  | some .input => 0b000
  | some .output => 0b001

theorem acts_output (own : List PinRequest) (f : BitVec 3) :
    own.foldl (fun f r => r.type.act f) f ||| 1 =
      if ∃ r ∈ own, r.type = .input then 1 else f ||| 1 := by
  induction own using List.reverseRecOn with
  | nil => simp
  | append_singleton own r ih =>
      rw [List.foldl_append, List.foldl_cons, List.foldl_nil]
      cases type : r.type with
      | input =>
          have cleared : ∃ r' ∈ own ++ [r], r'.type = .input := ⟨r, by simp, type⟩
          rw [if_pos cleared, PinType.act_input]
          rfl
      | output =>
          have same : (∃ r' ∈ own ++ [r], r'.type = .input) ↔ ∃ r' ∈ own, r'.type = .input := by
            simp [or_and_right, exists_or, type]
          simp only [same, ← ih, PinType.act_output, BitVec.or_assoc, BitVec.or_self]

/-- The requests of a pin leave what the last one wants, except that an `OUTPUT` is too weak
    for a field with upper bits that no `INPUT` has cleared. -/
theorem acts_wanted (own : List PinRequest) (f : BitVec 3) :
    own.foldl (fun f r => r.type.act f) f = wantedField f ((own.getLast?).map PinRequest.type) ↔
      ((own.getLast?).map PinRequest.type = some .output →
        (∃ r ∈ own, r.type = .input) ∨ f = 0 ∨ f = 1) := by
  induction own using List.reverseRecOn with
  | nil => simp [wantedField]
  | append_singleton own r _ =>
      rw [List.foldl_append, List.foldl_cons, List.foldl_nil, List.getLast?_concat, Option.map_some]
      cases type : r.type with
      | input => simp [wantedField]
      | output =>
          have same : (∃ r' ∈ own ++ [r], r'.type = .input) ↔ ∃ r' ∈ own, r'.type = .input := by
            simp [or_and_right, exists_or, type]
          have weak : ∀ f : BitVec 3, f ||| 1 = 1 ↔ f = 0 ∨ f = 1 := by decide
          rw [PinType.act_output, acts_output, same, forall_prop_of_true rfl]
          split
          · rename_i cleared
            exact iff_of_true rfl (.inl cleared)
          · rename_i kept
            rw [or_iff_right kept]
            exact weak f

variable {D : Driver} {rtdmClass : BitVec 8}

theorem pinModes_run (D : Driver) (rtdmClass : BitVec 8) (session : List Invocation)
    (reqs : List PinRequest) (calls : session.map Invocation.call = reqs.map PinRequest.call)
    (w : World) :
    ∃ tr, (D.user rtdmClass).Reaches w session tr
      { w with gpio := reqs.foldl Gpio.select w.gpio } := by
  induction session generalizing w reqs with
  | nil =>
      obtain rfl : reqs = [] := by simpa using calls.symm
      exact ⟨[], Machine.reaches_nil.mpr ⟨rfl, rfl⟩⟩
  | cons inv session ih =>
      cases reqs with
      | nil => simp at calls
      | cons r reqs =>
          obtain ⟨call, later⟩ := List.cons.inj calls
          obtain ⟨rest, reach⟩ := ih reqs later { w with gpio := w.gpio.select r }
          obtain ⟨raw, served⟩ := ioctl_select D inv.outcome r w
          have request : inv.call.request = r.request := congrArg UserCall.request call
          rw [← request] at served
          exact ⟨_, Machine.reaches_cons.mpr ⟨_, _, rest, user_step rtdmClass served, reach, rfl⟩⟩

/-- After any session of `pinMode` calls every field is as the last call for its pin wants it
    exactly if each pin whose last call was `OUTPUT` also had an `INPUT`, or had no upper bits
    set to begin with. -/
theorem last_pin_mode_wins_iff (D : Driver) (rtdmClass : BitVec 8) (w : World)
    (session : List Invocation) (reqs : List PinRequest)
    (calls : session.map Invocation.call = reqs.map PinRequest.call) :
    ∃ tr w', (D.user rtdmClass).Reaches w session tr w' ∧
      ((∀ p, w'.gpio.field p = wantedField (w.gpio.field p) (lastType p reqs)) ↔
        ∀ p, lastType p reqs = some .output →
          ⟨p, .input⟩ ∈ reqs ∨ w.gpio.field p = 0b000 ∨ w.gpio.field p = 0b001) := by
  obtain ⟨tr, reach⟩ := pinModes_run D rtdmClass session reqs calls w
  refine ⟨tr, _, reach, forall_congr' fun p => ?_⟩
  have cleared : (∃ r ∈ reqs.filter (·.pin = p), r.type = .input) ↔ ⟨p, .input⟩ ∈ reqs := by
    constructor
    · rintro ⟨⟨pin, type⟩, member, rfl⟩
      obtain ⟨there, rfl⟩ := by simpa using member
      exact there
    · intro member
      exact ⟨⟨p, .input⟩, by simpa using member, rfl⟩
  have own := acts_wanted (reqs.filter (·.pin = p)) (w.gpio.field p)
  rw [← field_selects, cleared] at own
  exact own

def PinRequest.invocation (r : PinRequest) : Invocation :=
  ⟨r.call, .created, ⟨fun _ => 0, 12⟩, 0, by decide⟩

def Gpio.withFunction (p : Fin 54) (f : BitVec 3) : Gpio :=
  { Gpio.reset with
    words := Function.update Gpio.reset.words (selectWord p) (f.setWidth 32 <<< (3 * selectPlace p)) }

/-- `INPUT` first, as in the test of the register access: pin 16 leaves its alternate
    function and becomes an output. -/
theorem last_pin_mode_wins_iff_input_first :
    ∃ tr w', (Driver.softPWM.user 0).Reaches (World.load (.withFunction 16 0b100))
        ([⟨16, .input⟩, ⟨16, .output⟩].map PinRequest.invocation) tr w' ∧
      w'.gpio.field 16 = 0b001 := by
  obtain ⟨tr, w', reach, wins⟩ := last_pin_mode_wins_iff .softPWM 0
    (World.load (.withFunction 16 0b100)) ([⟨16, .input⟩, ⟨16, .output⟩].map PinRequest.invocation)
    [⟨16, .input⟩, ⟨16, .output⟩] rfl
  refine ⟨tr, w', reach, wins.mpr (fun p last => .inl ?_) 16⟩
  have mine : p = 16 := by
    by_contra other
    have none : lastType p [⟨16, .input⟩, ⟨16, .output⟩] = none := by
      simp [lastType, Ne.symm other]
    simp [none] at last
  simp [mine]

theorem output_keeps_function (D : Driver) :
    ∃ tr w', (D.user 0).Reaches (World.load (.withFunction 16 0b100))
        [PinRequest.invocation ⟨16, .output⟩] tr w' ∧ w'.gpio.field 16 = 0b101 ∧
      w'.gpio.field 16 ≠ wantedField 0b100 (lastType 16 [⟨16, .output⟩]) := by
  obtain ⟨tr, reach⟩ := pinModes_run D 0 [PinRequest.invocation ⟨16, .output⟩] [⟨16, .output⟩] rfl
    (World.load (.withFunction 16 0b100))
  exact ⟨tr, _, reach, by decide, by decide⟩

/-- Without it `pinMode(16, OUTPUT)` turns the alternate function 100 into 101. -/
theorem output_alone_is_no_output :
    (∃ tr w', (Driver.softPWM.user 0).Reaches (World.load (.withFunction 16 0b100))
        [PinRequest.invocation ⟨16, .output⟩] tr w' ∧ w'.gpio.field 16 = 0b101 ∧
      w'.gpio.field 16 ≠ wantedField 0b100 (lastType 16 [⟨16, .output⟩])) ∧
    ∃ tr w', (Driver.xenoPWM.user 0).Reaches (World.load (.withFunction 16 0b100))
        [PinRequest.invocation ⟨16, .output⟩] tr w' ∧ w'.gpio.field 16 = 0b101 ∧
      w'.gpio.field 16 ≠ wantedField 0b100 (lastType 16 [⟨16, .output⟩]) :=
  ⟨output_keeps_function .softPWM, output_keeps_function .xenoPWM⟩

end KsoftPWM
