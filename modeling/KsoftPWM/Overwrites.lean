import KsoftPWM.Linear

/-! # Pin modes that overwrite each other

`gpio_input` and `gpio_output` of two clients that access the same register word at the same
time may overwrite each other.  Nothing worse happens: whatever the requests in flight and
however their statements are interleaved, every register word holds at every moment what
some of the pin-mode requests that have run their last statements, served whole in the order
of these, make of its initial contents, and the last one is always among them.  A request
that is lost is lost as a whole, and no field is ever mixed from several.

Nothing is assumed here about how many `PWM_INIT` requests are in flight.
-/

namespace KsoftPWM

abbrev Mode := Int32 × Int32

/-- The pin mode that a request sets in a word. -/
def Answer.mode (word : Int) (a : Answer) : Option Mode :=
  match a.req with
  | .pinSet pin type => if ValidType type ∧ modeWord pin = word then some (pin, type) else none
  | _ => none

/-- The pin modes that the requests set in a word, in the order of their last statements. -/
def modes (word : Int) (tr : List Occurrence) : List Mode := (answers tr).filterMap (·.mode word)

def applyMode (value : BitVec 32) (mode : Mode) : BitVec 32 := modeValue mode.1 mode.2 value

def Keeping (word : Int) : Prop := word ≠ 7 ∧ word ≠ 8 ∧ word ≠ 10 ∧ word ≠ 11

variable {D : Driver} {s s' : Concurrent} {w w' : World} {c : Nat} {f : Flight}
  {word : Int} {raw : List Event}

theorem storedWords_keeping {words : Int → BitVec 32} {value : BitVec 32} (keeps : Keeping word) :
    storedWords words word value word = value := by
  obtain ⟨seven, eight, ten, eleven⟩ := keeps
  simp [storedWords, seven, eight, ten, eleven]

/-! ## Statements -/

/-- Whether the request of a client sets a pin mode can be seen from where it is. -/
def Flight.Known : Flight → Prop
  | ⟨req, _, .before (.pinSet pin type)⟩ => req = .pinSet pin type
  | ⟨req, _, .between pin type _⟩ => req = .pinSet pin type ∧ ValidType type
  | ⟨req, _, .before _⟩ => ∀ pin type, req ≠ .pinSet pin type

theorem known_start (D : Driver) (req : Request) (outcome : CreateOutcome) :
    Flight.Known ⟨req, outcome, .before (.start D outcome req)⟩ := by
  cases req with
  | pinSet => rfl
  | gpioSet | pwmInit | pwmSet =>
      intro pin type same
      cases same

/-- No statement of a request but the second half of a pin mode changes a register word. -/
theorem call_words {call next : Call} (other : ∀ pin type, call ≠ .pinSet pin type)
    (run : call.step w = .ok raw (w', next)) :
    w'.gpio.words = w.gpio.words ∧ ∀ pin type, next ≠ .pinSet pin type := by
  cases call with
  | pinSet pin type => exact absurd rfl (other pin type)
  | gpioSet pin status =>
      obtain ⟨_, w₁, _, ran, done, -⟩ := Traced.bind_eq_ok.mp run
      obtain ⟨_, gpio, same, -, words⟩ := gpioStatus_words pin status w
      rw [same] at ran
      cases ran
      cases done
      exact ⟨words, nofun⟩
  | init | scan | update | returned =>
      obtain ⟨gpio, onPin⟩ := Call.step_gpio rfl run
      refine ⟨congrArg Gpio.words gpio, ?_⟩
      rintro pin type rfl
      cases onPin

/-- What a statement of a client can do to the register words. -/
inductive Flight.Modes (f : Flight) (w : World) : World → ClientPc → Prop where
  | load {pin type} : f.req = .pinSet pin type → ValidType type →
      Modes f w w (.between pin type (w.gpio.words (modeWord pin)))
  | store {pin type old} : f.req = .pinSet pin type → ValidType type →
      f.pc = .between pin type old →
      Modes f w { w with gpio := w.gpio.store (modeWord pin) (modeValue pin type old) }
        (.before (.returned 0))
  | ignore {pin type} : f.req = .pinSet pin type → ¬ ValidType type →
      Modes f w w (.before (.returned 0))
  | other {w' call} : (∀ pin type, f.req ≠ .pinSet pin type) →
      w'.gpio.words = w.gpio.words → (∀ pin type, call ≠ .pinSet pin type) →
      Modes f w w' (.before call)

theorem Flight.Known.modes {next : ClientPc} (known : f.Known)
    (run : f.pc.step w = .ok raw (w', next)) : f.Modes w w' next := by
  obtain ⟨req, outcome, pc⟩ := f
  cases pc with
  | between pin type old =>
      cases run
      exact .store known.1 known.2 rfl
  | before call =>
      by_cases mode : ∃ pin type, call = .pinSet pin type
      · obtain ⟨pin, type, rfl⟩ := mode
        by_cases valid : ValidType type
        · rw [step_load pin w valid] at run
          cases run
          exact .load known valid
        · rw [step_ignore pin w valid] at run
          cases run
          exact .ignore known valid
      · have other : ∀ pin type, call ≠ .pinSet pin type := fun pin type same =>
          mode ⟨pin, type, same⟩
        have known' : ∀ pin type, req ≠ .pinSet pin type := by
          cases call with
          | pinSet pin type => exact absurd rfl (other pin type)
          | init | gpioSet | scan | update | returned => exact known
        have stepped : ∃ call', call.step w = .ok raw (w', call') ∧ next = .before call' := by
          cases call with
          | pinSet pin type => exact absurd rfl (other pin type)
          | init | gpioSet | scan | update | returned =>
              obtain ⟨_, ⟨w₁, call'⟩, _, ran, done, rfl⟩ := Traced.bind_eq_ok.mp run
              cases done
              exact ⟨call', by simpa using ran, rfl⟩
        obtain ⟨call', ran, rfl⟩ := stepped
        obtain ⟨words, later⟩ := call_words other ran
        exact .other known' words later

/-! ## Runs -/

theorem modes_append (word : Int) (tr tr' : List Occurrence) :
    modes word (tr ++ tr') = modes word tr ++ modes word tr' := by
  simp only [modes, answers, List.filterMap_append]

theorem modes_events (word : Int) (raw : List Event) : modes word (raw.map .event) = [] := by
  induction raw with
  | nil => rfl
  | cons e raw ih => exact ih

theorem modes_returned (word : Int) (c : Nat) (a : Answer) :
    modes word [.returned c a] = (a.mode word).toList := by
  cases mode : a.mode word <;> simp [modes, answers, mode]

/-- A register word after a run: what is there comes from requests that are over, the last of
    them included, and so does what the requests in flight have read of it. -/
structure Kept (initial : BitVec 32) (word : Int) (tr : List Occurrence) (s : Concurrent) : Prop where
  known : ∀ c f, s.flight c = some f → f.Known
  value : EndsFrom applyMode initial (modes word tr) (s.world.gpio.words word)
  read : ∀ c f pin type old, s.flight c = some f → f.pc = .between pin type old →
    modeWord pin = word → ComesFrom applyMode initial (modes word tr) old

variable {initial : BitVec 32} {tr : List Occurrence}

theorem Kept.put {next : Option Flight} {more : List Occurrence} (kept : Kept initial word tr s)
    (value : EndsFrom applyMode initial (modes word (tr ++ more)) (w.gpio.words word))
    (mine : ∀ g, next = some g → g.Known ∧ ∀ pin type old, g.pc = .between pin type old →
      modeWord pin = word → ComesFrom applyMode initial (modes word tr) old) :
    Kept initial word (tr ++ more) (s.put w c next) where
  known := by
    intro c' f' there
    by_cases same : c' = c
    · subst same
      rw [Concurrent.flight_put_self] at there
      exact (mine f' there).1
    · rw [Concurrent.flight_put_other same] at there
      exact kept.known c' f' there
  value := value
  read := by
    intro c' f' pin type old there at_ here
    rw [modes_append]
    refine ComesFrom.append ?_ _
    by_cases same : c' = c
    · subst same
      rw [Concurrent.flight_put_self] at there
      exact (mine f' there).2 pin type old at_ here
    · rw [Concurrent.flight_put_other same] at there
      exact kept.read c' f' pin type old there at_ here

theorem Kept.same_value {more : List Occurrence} (kept : Kept initial word tr s)
    (nothing : modes word more = []) (words : w.gpio.words word = s.world.gpio.words word) :
    EndsFrom applyMode initial (modes word (tr ++ more)) (w.gpio.words word) := by
  rw [modes_append, nothing, List.append_nil, words]
  exact kept.value

theorem Kept.statement {next : ClientPc} (keeps : Keeping word) (kept : Kept initial word tr s)
    (here : s.flight c = some f) (moves : f.Modes s.world w next) :
    Kept initial word (tr ++ (raw.map .event ++ f.answered c next)) (s.put w c (f.after next)) := by
  obtain ⟨req, outcome, pc⟩ := f
  cases moves with
  | @load pin type same valid =>
      refine kept.put (kept.same_value ?_ rfl) ?_
      · rw [modes_append, modes_events]
        rfl
      · rintro g ⟨⟩
        refine ⟨⟨same, valid⟩, ?_⟩
        rintro _ _ _ ⟨⟩ rfl
        exact kept.value.comesFrom
  | @store pin type old same valid at_ =>
      obtain rfl : req = .pinSet pin type := same
      refine kept.put ?_ (by rintro g ⟨⟩)
      have added : modes word (raw.map .event ++ Flight.answered
          ⟨.pinSet pin type, outcome, pc⟩ c (.before (.returned 0))) =
          (if modeWord pin = word then some (pin, type) else none).toList := by
        rw [modes_append, modes_events, List.nil_append]
        refine (modes_returned word c _).trans ?_
        simp [Answer.mode, valid]
      rw [modes_append, added]
      simp only [words_store]
      by_cases mine : modeWord pin = word
      · subst mine
        rw [if_pos rfl, storedWords_keeping keeps]
        exact .snoc (kept.read c _ pin type old here at_ rfl) (pin, type)
      · rw [if_neg mine, storedWords_other (Ne.symm mine)]
        simpa using kept.value
  | @ignore pin type same invalid =>
      obtain rfl : req = .pinSet pin type := same
      refine kept.put (kept.same_value ?_ rfl) (by rintro g ⟨⟩)
      rw [modes_append, modes_events, List.nil_append]
      refine (modes_returned word c _).trans ?_
      simp [Answer.mode, invalid]
  | @other _ call other words later =>
      have nothing : modes word (raw.map .event ++
          Flight.answered ⟨req, outcome, pc⟩ c (.before call)) = [] := by
        rw [modes_append, modes_events, List.nil_append]
        cases call with
        | returned err =>
            refine (modes_returned word c _).trans ?_
            cases req with
            | pinSet pin type => exact absurd rfl (other pin type)
            | gpioSet | pwmInit | pwmSet => rfl
        | init | pinSet | gpioSet | scan | update => rfl
      refine kept.put (kept.same_value nothing (congrFun words word)) ?_
      cases call with
      | returned err => rintro g ⟨⟩
      | pinSet pin type => exact absurd rfl (later pin type)
      | init | gpioSet | scan | update =>
          rintro g ⟨⟩
          exact ⟨other, nofun⟩

theorem Kept.step {turn : Turn} {tr' : List Occurrence} (keeps : Keeping word)
    (kept : Kept initial word tr s) (taken : s.step D turn = some (.ok tr' s')) :
    Kept initial word (tr ++ tr') s' := by
  generalize shape : (Traced.ok tr' s' : Traced Occurrence Fault Concurrent) = x at taken
  cases Concurrent.step_taken taken with
  | @enter c req outcome idle =>
      cases shape
      refine kept.put (kept.same_value rfl rfl) ?_
      rintro g ⟨⟩
      refine ⟨known_start D req outcome, ?_⟩
      intro pin type old at_
      cases at_
  | @statement c f here =>
      obtain ⟨first, ⟨w, next⟩, second, ran, done, rfl⟩ := Traced.bind_eq_ok.mp shape.symm
      obtain ⟨raw, stepped, rfl⟩ := Traced.tag_eq_ok.mp ran
      cases done
      exact kept.statement keeps here ((kept.known c f here).modes stepped)
  | @task k swap y stepped =>
      obtain ⟨first, w, second, ran, done, rfl⟩ := Traced.bind_eq_ok.mp shape.symm
      obtain ⟨raw, rfl, rfl⟩ := Traced.tag_eq_ok.mp ran
      cases done
      have nothing : modes word (raw.map .event ++ []) = [] := by
        rw [List.append_nil, modes_events]
      have words := congrFun (pwmTask_words stepped) word
      refine ⟨kept.known, kept.same_value nothing words, fun c f pin type old here at_ mine => ?_⟩
      rw [modes_append, nothing, List.append_nil]
      exact kept.read c f pin type old here at_ mine

/-- Whatever the requests of any number of clients and however their statements are
    interleaved, every register word that keeps what is written to it holds what some of the
    pin-mode requests that have run their last statements make of its initial contents, whole
    and in the order of these, the one whose last statement came last always among them. -/
theorem pin_modes_lost_whole (D : Driver) (gpio : Gpio) (turns : List Turn)
    (tr : List Occurrence) (s : Concurrent) (word : Int) (keeps : Keeping word)
    (reach : D.concurrent.Reaches (.load gpio) turns tr s) :
    ∃ kept : List Mode, kept.Sublist (modes word tr) ∧
      kept.getLast? = (modes word tr).getLast? ∧
      s.world.gpio.words word = kept.foldl applyMode (gpio.words word) := by
  have start : Kept (gpio.words word) word [] (.load gpio) :=
    ⟨by rintro c f ⟨⟩, .inl ⟨rfl, rfl⟩, by rintro c f pin type old ⟨⟩⟩
  have kept : Kept (gpio.words word) word tr s :=
    reach.induction (Q := fun _ tr s => Kept (gpio.words word) word tr s) start
      (fun _ kept taken => kept.step keeps taken)
  rcases kept.value with ⟨none_, same⟩ | ⟨before, mode, old, split, ⟨some_, sub, rfl⟩, same⟩
  · exact ⟨[], by rw [none_], by rw [none_], same⟩
  · refine ⟨some_ ++ [mode], ?_, ?_, ?_⟩
    · rw [split]
      exact sub.append (.refl [mode])
    · rw [split]
      simp
    · rw [same, List.foldl_append]
      rfl

/-- Two clients set pins 16 and 17, whose fields share word 1.  The first to write is lost. -/
theorem pin_modes_lost_whole_first :
    ∃ tr s, Driver.softPWM.concurrent.Reaches (.load .reset)
        [.enter 0 (.pinSet 16 1) .created, .enter 1 (.pinSet 17 1) .created, .statement 0,
          .statement 1, .statement 0, .statement 1] tr s ∧
      modes 1 tr = [(16, 1), (17, 1)] ∧ s.world.gpio.words 1 = 2097152 ∧
      ∃ kept : List Mode, kept.Sublist [(16, 1), (17, 1)] ∧ kept.getLast? = some (17, 1) ∧
        s.world.gpio.words 1 = kept.foldl applyMode 0 := by
  obtain ⟨tr, s, reach, test⟩ := Machine.exists_reaches Driver.softPWM.concurrent (.load .reset)
    [.enter 0 (.pinSet 16 1) .created, .enter 1 (.pinSet 17 1) .created, .statement 0,
      .statement 1, .statement 0, .statement 1]
    (fun tr s => decide (modes 1 tr = [(16, 1), (17, 1)] ∧ s.world.gpio.words 1 = 2097152))
    (by decide)
  obtain ⟨both, value⟩ := of_decide_eq_true test
  obtain ⟨kept, sub, last, same⟩ := pin_modes_lost_whole .softPWM .reset _ tr s 1
    (by simp [Keeping]) reach
  rw [both] at sub last
  exact ⟨tr, s, reach, both, value, kept, sub, last, same⟩

end KsoftPWM
