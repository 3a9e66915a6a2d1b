import KsoftPWM.Concurrent

/-! # Overlapping requests take effect one after the other

A request takes effect with its last statement.  Run with many clients, a driver therefore
has at every moment the channels and the pin modes it would have if the requests that have
run their last statements by then had been served whole, one after the other, in the order
of these statements, and it has given the same answers.  What a request does after its last
statement is to return, which accesses nothing; so the order respects that of requests
that did not overlap.

The levels of the pins are left out: a new task may drive its pin before the `PWM_INIT`
that created it has counted its channel in.
-/

namespace KsoftPWM

/-- The driver with whole requests and nothing else; what is seen of a request is the
    value it returns. -/
def Driver.whole (D : Driver) : Machine World (Request × CreateOutcome) Int Fault where
  step w call := some <|
    match D.ioctl call.2 w call.1 with
    | .ok _ (w', err) => .ok [err] w'
    | .fault _ e => .fault [] e

/-- What a store does to the words of the register block: the set and clear registers keep
    nothing. -/
def storedWords (words : Int → BitVec 32) (word : Int) (value : BitVec 32) : Int → BitVec 32 :=
  if word = 7 ∨ word = 8 ∨ word = 10 ∨ word = 11 then words else Function.update words word value

def Request.onWords (words : Int → BitVec 32) : Request → Int → BitVec 32
  | .pinSet pin type =>
      if ValidType type then
        storedWords words (modeWord pin) (modeValue pin type (words (modeWord pin)))
      else words
  | _ => words

def Request.error : Request → CreateOutcome → Int
  | .pwmInit _, .failed why => why.value
  | _, _ => 0

variable {D : Driver} {s s' : Concurrent} {w w' : World} {c : Nat} {f : Flight}
  {req : Request} {outcome : CreateOutcome} {P : Prop}

theorem words_store (g : Gpio) (word : Int) (value : BitVec 32) :
    (g.store word value).words = storedWords g.words word value := by
  unfold Gpio.store storedWords
  by_cases seven : word = 7
  · simp [seven, Gpio.drive]
  · by_cases eight : word = 8
    · simp [eight, Gpio.drive]
    · by_cases ten : word = 10
      · simp [ten, Gpio.drive]
      · by_cases eleven : word = 11
        · simp [eleven, Gpio.drive]
        · simp [seven, eight, ten, eleven]

theorem storedWords_other {words : Int → BitVec 32} {word v : Int} (other : v ≠ word)
    (value : BitVec 32) : storedWords words word value v = words v := by
  unfold storedWords
  split
  · rfl
  · exact Function.update_of_ne other _ _

/-! ## Whole requests -/

theorem pinSet_words (pin type : Int32) (w : World) :
    ∃ tr gpio, pinSet pin type w = .ok tr { w with gpio := gpio } ∧
      gpio.words = (Request.pinSet pin type).onWords w.gpio.words := by
  by_cases valid : ValidType type
  · obtain ⟨value, gpio, run, rfl, rfl⟩ := pinSet_accesses pin w valid
    refine ⟨_, _, run, ?_⟩
    simp only [Request.onWords, valid, ↓reduceIte]
    exact words_store _ _ _
  · refine ⟨[], w.gpio, pinSet_invalid valid, ?_⟩
    simp only [Request.onWords, valid, ↓reduceIte]

theorem ioctl_effect (D : Driver) (req : Request) (outcome : CreateOutcome)
    (bound : w.pwmPinCount ≤ maxPwmNum) (room : req.isInit = true → w.pwmPinCount < maxPwmNum) :
    ∃ tr w', D.ioctl outcome w req = .ok tr (w', req.error outcome) ∧
      w'.channels = req.onChannels D outcome w.channels ∧
      w'.gpio.words = req.onWords w.gpio.words := by
  obtain ⟨tr, w', err, run, -, channels⟩ := ioctl_channels D req outcome bound room
  suffices rest : err = req.error outcome ∧ w'.gpio.words = req.onWords w.gpio.words by
    obtain ⟨rfl, words⟩ := rest
    exact ⟨tr, w', run, channels, words⟩
  cases req with
  | pinSet pin type =>
      obtain ⟨first, gpio, ran, words⟩ := pinSet_words pin type w
      simp [Driver.ioctl, ran] at run
      obtain ⟨-, rfl, rfl⟩ := run
      exact ⟨rfl, words⟩
  | gpioSet pin status =>
      obtain ⟨first, gpio, ran, -, words⟩ := gpioStatus_words pin status w
      simp [Driver.ioctl, ran] at run
      obtain ⟨-, rfl, rfl⟩ := run
      exact ⟨rfl, words⟩
  | pwmInit args =>
      cases outcome with
      | created =>
          obtain ⟨_, ran⟩ := ioctl_created D args (room rfl)
          rw [ran] at run
          cases run
          exact ⟨rfl, rfl⟩
      | failed why =>
          obtain ⟨_, ran⟩ := ioctl_failed D args why (room rfl)
          rw [ran] at run
          cases run
          exact ⟨rfl, by cases D <;> rfl⟩
  | pwmSet pin duty =>
      cases found : w.find pin with
      | none =>
          obtain ⟨_, ran⟩ := ioctl_unknown D outcome duty bound found
          rw [ran] at run
          cases run
          exact ⟨rfl, rfl⟩
      | some pos =>
          obtain ⟨_, ran⟩ := ioctl_found D outcome duty bound found
          rw [ran] at run
          cases run
          exact ⟨rfl, rfl⟩

theorem ioctl_settled {tr : List Event} {err : Int} (settled : w.tables.Settled)
    (run : D.ioctl outcome w req = .ok tr (w', err)) : w'.tables.Settled := by
  have taken : Sys.serialStep D ⟨w, none, .idle⟩ (.request req outcome) =
      some (.ok ((tr ++ [Event.ret err]).map (Agent.client, ·)) ⟨w', none, .idle⟩) := by
    have accepts : D.accepts .idle = true := by cases D <;> rfl
    simp [Sys.serialStep, accepts, Sys.serve, run]
  exact (serialStep_inv (s := ⟨w, none, .idle⟩) settled (serialStep_admits taken) taken).settled rfl

/-! ## Statements of a request in flight -/

/-- The words that have been read and not written back still hold what was read. -/
def Concurrent.Fresh (s : Concurrent) : Prop :=
  ∀ c f pin type old, s.flight c = some f → f.pc = .between pin type old →
    s.world.gpio.words (modeWord pin) = old

theorem channels_exec {args : InitArgs} {stmt : Stmt} {tr : List Event} {brk : Option Int}
    (run : stmt.exec args outcome w = .ok tr (w', brk)) (notLast : stmt ≠ .incr) :
    w'.channels = w.channels := by
  have frame := Stmt.exec_frame run
  have count : w'.pwmPinCount = w.pwmPinCount := by simpa [notLast] using frame.count
  apply List.ext_getElem?
  intro i
  by_cases below : i < w.pwmPinCount
  · rw [getElem?_channels below, getElem?_channels (count ▸ below)]
    exact frame.slots i (Nat.ne_of_lt below)
  · rw [World.channels, World.channels, List.getElem?_take, List.getElem?_take, count, if_neg below,
      if_neg below]

theorem channels_counted {slot : Dutycycle} (held : w.dutyArray[w.pwmPinCount]? = some slot) :
    ({ w with pwmPinCount := w.pwmPinCount + 1 } : World).channels = w.channels ++ [slot] := by
  simp only [World.channels]
  rw [List.take_add_one, Vector.getElem?_toList, held]
  rfl

/-- Before its last statement a request has done nothing that is kept and seen. -/
theorem Flight.Moves.hidden {next : ClientPc} (moves : f.Moves D w w' next)
    (going : ∀ err, next ≠ .before (.returned err)) :
    w'.channels = w.channels ∧ w'.gpio.words = w.gpio.words := by
  cases moves with
  | load | pass | found => exact ⟨rfl, rfl⟩
  | opens _ _ run last =>
      exact ⟨channels_exec run last, congrArg Gpio.words (Stmt.exec_frame run).gpio⟩
  | store | ignore | drive | counts | absent | update => exact absurd rfl (going 0)
  | @breaks _ why => exact absurd rfl (going why.value)

/-- With its last statement a request does to the channels all that it does when it is served
    whole. -/
theorem Flight.Moves.commits {err : Int} (moves : f.Moves D w w' (.before (.returned err))) :
    err = f.req.error f.outcome ∧ (f.req.isInit = true → w.pwmPinCount < maxPwmNum) ∧
      w'.channels = f.req.onChannels D f.outcome w.channels := by
  obtain ⟨req, outcome, pc⟩ := f
  cases moves with
  | store same | ignore same | drive same =>
      obtain rfl := same
      exact ⟨rfl, nofun, rfl⟩
  | counts same created room held =>
      obtain rfl := same
      obtain rfl := created
      exact ⟨rfl, fun _ => room, channels_counted held⟩
  | breaks same failed room run last =>
      obtain rfl := same
      obtain rfl := failed
      exact ⟨rfl, fun _ => room, channels_exec run last⟩
  | @absent pin _ same unknown =>
      obtain rfl := same
      refine ⟨rfl, nofun, ?_⟩
      have index : w.channels.findIdx? (fun slot => slot.pin = pin) = none := unknown
      simp only [Request.onChannels, updateFirst, index]
  | update found same =>
      obtain rfl := same
      exact ⟨rfl, nofun, channels_withDuty found⟩

/-- And to the register words, if the word it has read still holds what it has read. -/
theorem Flight.Moves.commits_words {err : Int} (moves : f.Moves D w w' (.before (.returned err)))
    (fresh : ∀ pin type old, f.pc = .between pin type old → w.gpio.words (modeWord pin) = old) :
    w'.gpio.words = f.req.onWords w.gpio.words := by
  obtain ⟨req, outcome, pc⟩ := f
  cases moves with
  | store same valid at_ =>
      obtain rfl := same
      simp only [Request.onWords, valid, ↓reduceIte, ← fresh _ _ _ at_]
      exact words_store _ _ _
  | ignore same invalid =>
      obtain rfl := same
      simp only [Request.onWords, invalid, ↓reduceIte]
  | drive same words =>
      obtain rfl := same
      exact words
  | breaks same _ _ run =>
      obtain rfl := same
      exact congrArg Gpio.words (Stmt.exec_frame run).gpio
  | counts same | absent same | update _ same =>
      obtain rfl := same
      rfl

theorem Concurrent.Fresh.put {next : Option Flight} (fresh : s.Fresh)
    (others : ∀ c' f' pin type old, c' ≠ c → s.flight c' = some f' →
      f'.pc = .between pin type old → w.gpio.words (modeWord pin) = s.world.gpio.words (modeWord pin))
    (mine : ∀ g pin type old, next = some g → g.pc = .between pin type old →
      w.gpio.words (modeWord pin) = old) :
    (s.put w c next).Fresh := by
  intro c' f' pin type old there at_
  by_cases same : c' = c
  · subst same
    rw [Concurrent.flight_put_self] at there
    exact mine f' pin type old there at_
  · rw [Concurrent.flight_put_other same] at there
    exact (others c' f' pin type old same there at_).trans (fresh c' f' pin type old there at_)

theorem Concurrent.Fresh.moves {next : ClientPc} (fresh : s.Fresh) (here : s.flight c = some f)
    (unbroken : Unbroken s (.statement c)) (moves : f.Moves D s.world w next) :
    (s.put w c (f.after next)).Fresh := by
  cases moves with
  | @store pin type old same valid at_ =>
      refine fresh.put (fun c' f' pin' type' old' other there at' => ?_) (by rintro _ _ _ _ ⟨⟩)
      have apart := unbroken c' f f' pin type old pin' type' old' other here at_ there at'
      rw [words_store]
      exact storedWords_other (Ne.symm apart) _
  | load =>
      refine fresh.put (fun _ _ _ _ _ _ _ _ => rfl) ?_
      rintro _ _ _ _ ⟨⟩ ⟨⟩
      rfl
  | drive _ words =>
      exact fresh.put (fun _ _ _ _ _ _ _ _ => congrFun words _) (by rintro _ _ _ _ ⟨⟩)
  | opens _ _ run | breaks _ _ _ run =>
      have gpio := congrArg Gpio.words (Stmt.exec_frame run).gpio
      exact fresh.put (fun _ _ _ _ _ _ _ _ => congrFun gpio _) (by rintro _ _ _ _ ⟨⟩ ⟨⟩)
  | ignore | counts | pass | found | absent | update =>
      exact fresh.put (fun _ _ _ _ _ _ _ _ => rfl) (by rintro _ _ _ _ ⟨⟩ ⟨⟩)

theorem Concurrent.Fresh.next {turn : Turn} {tr : List Occurrence} (fresh : s.Fresh)
    (unbroken : Unbroken s turn) (step : Concurrent.Step D s turn tr s') : s'.Fresh := by
  cases step with
  | @enter c req outcome idle =>
      refine fresh.put (fun _ _ _ _ _ _ _ _ => rfl) ?_
      rintro _ _ _ _ ⟨⟩ ⟨⟩
  | statement here moves => exact fresh.moves here unbroken moves
  | task tables words =>
      intro c f pin type old there at_
      exact (congrFun words _).trans (fresh c f pin type old there at_)

/-! ## Runs -/

def Occurrence.call : Occurrence → Option (Request × CreateOutcome)
  | .returned _ answer => some (answer.req, answer.outcome)
  | _ => none

def Occurrence.err : Occurrence → Option Int
  | .returned _ answer => some answer.err
  | _ => none

/-- The world of a driver that serves whole requests has the same channels as one with many
    clients, and, as far as `P` holds, the same register words. -/
structure SameBoard (P : Prop) (s : Concurrent) (w : World) : Prop where
  settled : w.tables.Settled
  channels : w.channels = s.world.channels
  words : P → w.gpio.words = s.world.gpio.words

theorem SameBoard.count (same : SameBoard P s w) (inv : s.Inv D) :
    w.pwmPinCount = s.world.pwmPinCount := by
  have lengths := congrArg List.length same.channels
  rwa [length_channels same.settled.bound, length_channels inv.established.bound] at lengths

theorem events_hidden (raw : List Event) : ∀ e ∈ raw.map Occurrence.event,
    e.call = none ∧ e.err = none := by
  intro e member
  obtain ⟨_, -, rfl⟩ := List.mem_map.mp member
  exact ⟨rfl, rfl⟩

/-- The last statement of a request is followed by the whole request. -/
theorem SameBoard.returns {err : Int} {raw : List Event} (same : SameBoard P s w)
    (inv : s.Inv D) (fresh : P → s.Fresh) (here : s.flight c = some f)
    (moves : f.Moves D s.world w' (.before (.returned err))) :
    D.whole.Follows (SameBoard P) Occurrence.call Occurrence.err some w
      (raw.map .event ++ [.returned c ⟨f.req, f.outcome, err⟩]) (s.put w' c none) := by
  obtain ⟨rfl, room, channels⟩ := moves.commits
  have count := same.count inv
  obtain ⟨tr, w₁, run, channels₁, words₁⟩ := ioctl_effect D f.req f.outcome same.settled.bound
    (fun init => count ▸ room init)
  have labels : (raw.map Occurrence.event).filterMap Occurrence.call = [] :=
    List.filterMap_eq_nil_iff.mpr fun e member => (events_hidden raw e member).1
  have shown : (raw.map Occurrence.event).filterMap Occurrence.err = [] :=
    List.filterMap_eq_nil_iff.mpr fun e member => (events_hidden raw e member).2
  refine ⟨[f.req.error f.outcome], w₁, ?_, ?_, ioctl_settled same.settled run, ?_, ?_⟩
  · rw [List.filterMap_append, labels]
    refine Machine.reaches_single.mpr ?_
    simp only [Driver.whole, run]
  · rw [List.filterMap_append, shown]
    rfl
  · rw [channels₁, same.channels]
    exact channels.symm
  · intro unbroken
    rw [words₁, same.words unbroken]
    exact (moves.commits_words fun pin type old => fresh unbroken c f pin type old here).symm

/-- Every step is followed: by the whole request if it is a return, by nothing otherwise. -/
theorem SameBoard.step {turn : Turn} {tr : List Occurrence} (same : SameBoard P s w)
    (inv : s.Inv D) (fresh : P → s.Fresh) (step : Concurrent.Step D s turn tr s') :
    D.whole.Follows (SameBoard P) Occurrence.call Occurrence.err some w tr s' := by
  cases step with
  | enter idle =>
      refine .still ?_ ⟨same.settled, same.channels, same.words⟩
      simp [Occurrence.call, Occurrence.err]
  | @statement c f w₁ next raw here moves =>
      by_cases back : ∃ err, next = .before (.returned err)
      · obtain ⟨err, rfl⟩ := back
        exact same.returns inv fresh here moves
      · have going : ∀ err, next ≠ .before (.returned err) := fun err at_ => back ⟨err, at_⟩
        obtain ⟨channels, words⟩ := moves.hidden going
        have silent : f.answered c next = [] := by
          unfold Flight.answered
          split
          · exact absurd rfl (going _)
          · rfl
        rw [silent, List.append_nil]
        exact .still (events_hidden raw)
          ⟨same.settled, same.channels.trans channels.symm,
            fun unbroken => (same.words unbroken).trans words.symm⟩
  | @task k swap w₁ raw tables words =>
      exact .still (events_hidden raw) ⟨same.settled,
        same.channels.trans (channels_of_tables tables).symm,
        fun unbroken => (same.words unbroken).trans words.symm⟩

theorem filterMap_call (tr : List Occurrence) :
    tr.filterMap Occurrence.call = (answers tr).map fun a => (a.req, a.outcome) := by
  induction tr with
  | nil => rfl
  | cons e tr ih => cases e <;> simp [answers, Occurrence.call] at ih ⊢ <;> exact ih

theorem filterMap_err (tr : List Occurrence) :
    tr.filterMap Occurrence.err = (answers tr).map (·.err) := by
  induction tr with
  | nil => rfl
  | cons e tr ih => cases e <;> simp [answers, Occurrence.err] at ih ⊢ <;> exact ih

theorem established_owner {i : Nat} {w₁ w₂ : World} (est₁ : w₁.tables.Established)
    (est₂ : w₂.tables.Established) (same : w₁.channels = w₂.channels)
    (below₁ : i < w₁.pwmPinCount) (below₂ : i < w₂.pwmPinCount) :
    w₁.taskTable[i]? = w₂.taskTable[i]? ∧
      w₁.tasks[i]?.map (·.creator) = w₂.tasks[i]?.map (·.creator) := by
  obtain ⟨slot₁, creator₁, held₁, mine₁, serves₁, ref₁⟩ := est₁.owned i below₁
  obtain ⟨slot₂, creator₂, held₂, mine₂, serves₂, ref₂⟩ := est₂.owned i below₂
  refine ⟨ref₁.trans ref₂.symm, ?_⟩
  have slots : some slot₁ = some slot₂ := calc
    some slot₁ = w₁.channels[i]? := ((getElem?_channels below₁).trans held₁).symm
    _ = w₂.channels[i]? := by rw [same]
    _ = some slot₂ := (getElem?_channels below₂).trans held₂
  have creators : creator₁ = creator₂ := by
    obtain rfl := Option.some.inj slots
    obtain ⟨pin₁, min₁, max₁⟩ := serves₁
    obtain ⟨pin₂, min₂, max₂⟩ := serves₂
    cases creator₁
    cases creator₂
    simp_all
  have read : ∀ {w : World} {creator}, w.tables.owners[i]? = some ⟨i, creator, true⟩ →
      w.tasks[i]?.map (·.creator) = some creator := by
    intro w creator mine
    have owner : (w.tasks[i]?).map Task.owner = some ⟨i, creator, true⟩ := by
      simpa [World.tables] using mine
    obtain ⟨t, here, owns⟩ := Option.map_eq_some_iff.mp owner
    rw [here]
    exact congrArg (some ∘ Owner.creator) owns
  rw [read mine₁, read mine₂, creators]

/-- Any number of clients may have requests in flight at once, as long as at most one of them
    is a `PWM_INIT`: the channels, their threads and all answers so far are those of the
    requests that have run their last statements, served whole in the order of these.  If also
    no pin-mode request writes a register word that another one has read and not yet written,
    the same is true of the register words. -/
theorem overlapping_requests_serialize (D : Driver) (gpio : Gpio) (turns : List Turn)
    (tr : List Occurrence) (s : Concurrent)
    (reach : D.concurrent.Reaches (.load gpio) turns tr s)
    (one : D.concurrent.Guarded OneInit (.load gpio) turns) :
    ∃ w, D.whole.Reaches (World.load gpio) ((answers tr).map fun a => (a.req, a.outcome))
        ((answers tr).map (·.err)) w ∧
      w.channels = s.world.channels ∧ w.pwmPinCount = s.world.pwmPinCount ∧
      (∀ i < s.world.pwmPinCount, w.taskTable[i]? = s.world.taskTable[i]? ∧
        w.tasks[i]?.map (·.creator) = s.world.tasks[i]?.map (·.creator)) ∧
      (D.concurrent.Guarded Unbroken (.load gpio) turns →
        w.gpio.words = s.world.gpio.words) := by
  have inv := Concurrent.inv_of_reaches reach one
  let P := D.concurrent.Guarded Unbroken (.load gpio) turns
  have guards : D.concurrent.Guarded (fun s turn => OneInit s turn ∧ (P → Unbroken s turn))
      (.load gpio) turns := by
    by_cases unbroken : P
    · exact (one.and unbroken).mono fun _ _ both => ⟨both.1, fun _ => both.2⟩
    · exact one.mono fun _ _ one => ⟨one, fun held => absurd held unbroken⟩
  have start : (Concurrent.load gpio).Inv D ∧ (P → (Concurrent.load gpio).Fresh) :=
    ⟨Concurrent.load_inv D gpio, fun _ c f pin type old here => by cases here⟩
  have same : SameBoard P (.load gpio) (World.load gpio) :=
    ⟨Tables.load_settled gpio, rfl, fun _ => rfl⟩
  obtain ⟨errs, w, whole, shown, last⟩ := reach.followed (N := D.whole)
    (I := fun s => s.Inv D ∧ (P → s.Fresh)) (R := SameBoard P) guards start same
    (fun inv guard taken =>
      have step := inv.1.taken_ok taken
      ⟨inv.1.next guard.1 step, fun held => (inv.2 held).next (guard.2 held) step⟩)
    (fun inv _ same taken => same.step inv.1 inv.2 (inv.1.taken_ok taken))
  rw [filterMap_call] at whole
  rw [List.filterMap_some, filterMap_err] at shown
  have count := last.count inv
  refine ⟨w, shown ▸ whole, last.channels, count, fun i below => ?_, last.words⟩
  exact established_owner last.settled.toEstablished inv.established last.channels
    (count ▸ below) below

theorem unbroken_of_one_setter {gpio : Gpio} {turns : List Turn} {n : Nat}
    (one : D.concurrent.Guarded OneInit (.load gpio) turns)
    (only : ∀ c pin type outcome, .enter c (.pinSet pin type) outcome ∈ turns → c = n) :
    D.concurrent.Guarded Unbroken (.load gpio) turns := by
  have entering : D.concurrent.Guarded (fun _ turn => ∀ c pin type outcome,
      turn = .enter c (.pinSet pin type) outcome → c = n) (.load gpio) turns :=
    .of_forall fun turn member _ c pin type outcome same => only c pin type outcome (same ▸ member)
  refine (one.and entering).imp_of_invariant (I := fun s => s.Inv D ∧
    ∀ c f pin type, s.flight c = some f → f.req = .pinSet pin type → c = n)
    ⟨Concurrent.load_inv D gpio, by rintro c f pin type ⟨⟩⟩ ?_ ?_
  · rintro s turn tr s' ⟨inv, owned⟩ ⟨one, entering⟩ taken
    have step := inv.taken_ok taken
    refine ⟨inv.next one step, fun c f pin type there req => ?_⟩
    cases step with
    | @enter c' req' outcome idle =>
        by_cases same : c = c'
        · subst same
          rw [Concurrent.flight_put_self, Option.some.injEq] at there
          obtain rfl := there
          exact entering c pin type outcome (by rw [← req])
        · rw [Concurrent.flight_put_other same] at there
          exact owned c f pin type there req
    | @statement c' f' w next raw here moves =>
        by_cases same : c = c'
        · subst same
          rw [Concurrent.flight_put_self] at there
          refine owned c f' pin type here ?_
          unfold Flight.after at there
          split at there
          · cases there
          · cases there
            exact req
        · rw [Concurrent.flight_put_other same] at there
          exact owned c f pin type there req
    | task => exact owned c f pin type there req
  · rintro s turn ⟨inv, owned⟩ -
    cases turn with
    | enter | task => trivial
    | statement client =>
        intro c f f' pin type old pin' type' old' other here at_ there at'
        have mine : ∀ {c f pin type old}, s.flight c = some f → f.pc = .between pin type old →
            c = n := by
          intro c f pin type old here at_
          obtain ⟨req, outcome, pc⟩ := f
          obtain rfl : pc = .between pin type old := at_
          exact owned c _ pin type here (inv.sound c _ here).1
        exact absurd ((mine there at').trans (mine here at_).symm) other

/-- Three clients at once: a pin mode whose store comes after a whole `PWM_INIT`, and a
    `PWM_SET` that enters before the channel is counted and finds it; its task has run
    before. -/
def threeClients : List Turn :=
  .enter 0 (.pwmInit ⟨16, 0, 100⟩) .created ::
    ([.enter 1 (.pinSet 17 1) .created, .statement 1] ++ List.replicate 8 (.statement 0) ++
      [.task 0 false, .enter 2 (.pwmSet 16 40) .created, .statement 0, .statement 2,
        .statement 1, .statement 2])

theorem overlapping_requests_serialize_three :
    ∃ tr s w, Driver.softPWM.concurrent.Reaches (.load .reset) threeClients tr s ∧
      answers tr = [⟨.pwmInit ⟨16, 0, 100⟩, .created, 0⟩, ⟨.pinSet 17 1, .created, 0⟩,
        ⟨.pwmSet 16 40, .created, 0⟩] ∧
      Driver.softPWM.whole.Reaches (World.load .reset) [(.pwmInit ⟨16, 0, 100⟩, .created),
        (.pinSet 17 1, .created), (.pwmSet 16 40, .created)] [0, 0, 0] w ∧
      w.channels = s.world.channels ∧ s.world.channels = [⟨16, 40, 0, 100⟩] ∧
      w.gpio.words = s.world.gpio.words ∧ s.world.gpio.words 1 = 2097152 := by
  obtain ⟨tr, s, reach, test⟩ := Machine.exists_reaches Driver.softPWM.concurrent (.load .reset)
    threeClients (fun tr s => decide (answers tr = [⟨.pwmInit ⟨16, 0, 100⟩, .created, 0⟩,
      ⟨.pinSet 17 1, .created, 0⟩, ⟨.pwmSet 16 40, .created, 0⟩] ∧
      s.world.channels = [⟨16, 40, 0, 100⟩] ∧ s.world.gpio.words 1 = 2097152)) (by decide)
  have one : Driver.softPWM.concurrent.Guarded OneInit (.load .reset) threeClients :=
    oneInit_first (by simp)
  obtain ⟨w, whole, channels, -, -, words⟩ := overlapping_requests_serialize .softPWM .reset
    threeClients tr s reach one
  obtain ⟨served, shown, word⟩ := of_decide_eq_true test
  rw [served] at whole
  exact ⟨tr, s, w, reach, served, whole, channels, shown,
    words (unbroken_of_one_setter (n := 1) one (by simp +contextual [threeClients])), word⟩

end KsoftPWM
