import KsoftPWM.Pulsing
import KsoftPWM.Refinement

/-! # One driver in the place of the other

The two drivers open a channel with different statements, in another order, and their tasks
take different steps between two drives of a pin.  No client can tell: whatever one driver does
with many clients, the other one can do too, with the same requests entering and returning in
the same order with the same answers, and with the same loads and stores of the same registers by
the same clients and tasks in between, for channels of the same pins, minima and maxima.  Only
the duty cycle that nobody has set yet is another one.
-/

namespace KsoftPWM

inductive Outside where
  | entered (client : Nat) (req : Request)
  | returned (client : Nat) (answer : Answer)
  | client (c : Nat) (pin : Int32) (access : Access)
  | task (k : Nat) (pin : Int32) (access : Access)
  deriving Repr, DecidableEq

/-- Requests enter and return, and the registers are accessed by clients and by tasks. -/
def outside : Turn × Occurrence → Option Outside
  | (_, .entered c req) => some (.entered c req)
  | (_, .returned c answer) => some (.returned c answer)
  | (.statement c, .event (.gpio pin access)) => some (.client c pin access)
  | (.task k _, .event (.gpio pin access)) => some (.task k pin access)
  | _ => none

def Flight.shown (f : Flight) (c : Nat) (raw : List Event) (next : ClientPc) : List Outside :=
  (raw.map Occurrence.event ++ f.answered c next).filterMap fun e => outside (.statement c, e)

/-- The channels differ at most in a duty cycle that was never set. -/
structure Channel.Alike (D D' : Driver) (ch ch' : Channel) : Prop where
  args : ch'.args = ch.args
  high : ch'.high = ch.high
  duty : ch'.duty = ch.duty ∨ ch.duty = D.creationDuty ∧ ch'.duty = D'.creationDuty

/-- The two drivers have the same registers and channels that are alike. -/
structure World.Twins (D D' : Driver) (w w' : World) : Prop where
  gpio : w'.gpio = w.gpio
  count : w'.pwmPinCount = w.pwmPinCount
  channels : ∀ k, Option.Rel (Channel.Alike D D') (w.running k) (w'.running k)

/-- A request in the other driver.  A `PWM_INIT` is still to be begun there until its thread
    runs here, and then it has only the counting left. -/
def Flight.twin (D' : Driver) (started : Bool) (f : Flight) : Flight :=
  match f.req with
  | .pwmInit args =>
      { f with pc := .before (.init args f.outcome (if started then [.incr] else D'.initCode)) }
  | _ => f

structure Concurrent.Live (D : Driver) (s : Concurrent) : Prop where
  inv : s.Inv D
  going : s.world.Going

structure Twins (D D' : Driver) (s s' : Concurrent) : Prop where
  left : s.Live D
  right : s'.Live D'
  worlds : World.Twins D D' s.world s'.world
  flights : ∀ c, s'.flight c = (s.flight c).map (·.twin D' s.world.started)

variable {D D' : Driver} {s s' : Concurrent} {w w' : World} {c k : Nat} {f : Flight}
  {args : InitArgs} {outcome : CreateOutcome}

/-! ## Channels that are alike -/

theorem World.Twins.started (twins : World.Twins D D' w w') : w'.started = w.started := by
  have rel := twins.channels w.pwmPinCount
  rw [World.started, World.started, twins.count]
  generalize w.running w.pwmPinCount = x at rel
  generalize w'.running w.pwmPinCount = y at rel
  cases rel <;> rfl

theorem World.Twins.pin (twins : World.Twins D D' w w') (est : w.tables.Established)
    (est' : w'.tables.Established) (below : k < w.pwmPinCount) (inside : k < maxPwmNum) :
    w'.dutyArray[k].pin = w.dutyArray[k].pin := by
  obtain ⟨t, slot, here, awake, held, pin, -⟩ := est.task below
  obtain ⟨t', slot', here', awake', held', pin', -⟩ := est'.task (twins.count ▸ below)
  have rel := twins.channels k
  rw [World.running_awake here awake held, World.running_awake here' awake' held'] at rel
  cases rel with
  | some alike =>
      have creator : t'.creator = t.creator := alike.args
      rw [Vector.getElem?_eq_getElem inside, Option.some.injEq] at held held'
      rw [held, held', pin', creator, pin]

theorem running_withDuty {pos : Nat} (inside : pos < maxPwmNum) (duty : Int32) (k : Nat) :
    (w.withDuty pos inside duty).running k =
      if pos = k then (w.running k).map ({ · with duty := duty }) else w.running k := by
  by_cases same : pos = k
  · subst same
    rw [if_pos rfl, World.running, World.running, World.withDuty, Vector.getElem?_set_self inside,
      Vector.getElem?_eq_getElem inside]
    cases w.tasks[pos]? with
    | none => rfl
    | some t =>
        by_cases asleep : t.pc = .asleep
        · simp [asleep]
        · simp [asleep]
  · rw [if_neg same, World.running, World.running, World.withDuty, Vector.getElem?_set_ne inside same]

theorem World.Twins.withDuty {pos : Nat} (twins : World.Twins D D' w w') (inside : pos < maxPwmNum)
    (duty : Int32) : World.Twins D D' (w.withDuty pos inside duty) (w'.withDuty pos inside duty) where
  gpio := twins.gpio
  count := twins.count
  channels := by
    intro k
    have rel := twins.channels k
    rw [running_withDuty, running_withDuty]
    split
    · generalize w.running k = x at rel ⊢
      generalize w'.running k = y at rel ⊢
      cases rel with
      | none => exact .none
      | some alike => exact .some ⟨alike.args, alike.high, .inl rfl⟩
    · exact rel

theorem World.Twins.withGpio (twins : World.Twins D D' w w') (gpio : Gpio) :
    World.Twins D D' { w with gpio := gpio } { w' with gpio := gpio } :=
  ⟨rfl, twins.count, twins.channels⟩

/-! ## The other driver goes on -/

theorem World.Going.client {pc next : ClientPc} {raw : List Event} (going : w.Going)
    (run : pc.step w = .ok raw (w', next)) : w'.Going := by
  cases pc with
  | between =>
      cases run
      exact ⟨going.unstopped, going.running⟩
  | before call =>
      cases call with
      | pinSet pin type =>
          by_cases valid : ValidType type
          · rw [step_load pin w valid] at run
            cases run
            exact going
          · rw [step_ignore pin w valid] at run
            cases run
            exact going
      | init | gpioSet | scan | update | returned =>
          obtain ⟨_, ⟨w₁, next₁⟩, _, ran, done, -⟩ := Traced.bind_eq_ok.mp run
          cases done
          exact going.call ran

theorem Concurrent.Live.task {swap : Bool} {raw : List Event} (live : s.Live D)
    (stepped : D.pwmTask s.world k swap = some (.ok raw w)) :
    ∃ t slot pc level, s.world.tasks[k]? = some t ∧ t.pc ≠ .asleep ∧
      s.world.dutyArray[k]? = some slot ∧ slot.pin = t.creator.pin ∧
      D.Move slot k false swap t.pc pc raw level ∧ w = (s.world.driven slot.pin level).jump k pc := by
  obtain ⟨t, here, awake, -⟩ := Driver.pwmTask_some stepped
  have placed := live.inv.placed here
  obtain rfl : t.pos = k := placed.pos
  obtain ⟨slot, held, pin, -⟩ := placed.serves (bne_iff_ne.mpr awake)
  obtain ⟨inside, entry⟩ := Vector.getElem?_eq_some_iff.mp held
  change s.world.dutyArray[t.pos] = slot at entry
  obtain ⟨pc, _, level, move, same⟩ := Driver.pwmTask_move here inside stepped
  rw [entry, live.going.unstopped t (List.mem_of_getElem? here)] at move
  rw [entry] at same
  cases same
  exact ⟨t, slot, pc, level, here, awake, held, pin, move, rfl⟩

theorem Concurrent.Live.next {turn : Turn} {ltr : List (Turn × Occurrence)} (live : s.Live D)
    (one : OneInit s turn) (taken : D.concurrent.labelled.step s turn = some (.ok ltr s')) :
    s'.Live D := by
  obtain ⟨tr, stepped, -⟩ := Machine.labelled_step.mp taken
  refine ⟨live.inv.next one (live.inv.taken_ok stepped), ?_⟩
  generalize shape : (Traced.ok tr s' : Traced Occurrence Fault Concurrent) = x at stepped
  cases Concurrent.step_taken stepped with
  | enter idle =>
      cases shape
      exact live.going
  | @statement c f here =>
      obtain ⟨_, ⟨w, next⟩, _, ran, done, -⟩ := Traced.bind_eq_ok.mp shape.symm
      obtain ⟨raw, run, -⟩ := Traced.tag_eq_ok.mp ran
      cases done
      exact live.going.client run
  | @task k swap y moved =>
      obtain ⟨_, w, _, ran, done, rfl⟩ := Traced.bind_eq_ok.mp shape.symm
      obtain ⟨raw, rfl, rfl⟩ := Traced.tag_eq_ok.mp ran
      cases done
      obtain ⟨t, slot, pc, level, here, -, -, -, move, rfl⟩ := live.task moved
      exact live.going.jump slot.pin level here move.not_returned

def Driver.Shows (D : Driver) (s : Concurrent) (shown : List Outside) (s' : Concurrent) : Prop :=
  D.concurrent.labelled.Plays OneInit outside s shown s'

theorem Driver.Shows.live {shown : List Outside} (shows : D.Shows s shown s') (live : s.Live D) :
    s'.Live D :=
  Machine.Plays.invariant shows live (fun live one taken => live.next one taken)

theorem Driver.shows_statement {raw : List Event} {next : ClientPc} (D : Driver)
    (here : s.flight c = some f) (run : f.pc.step s.world = .ok raw (w, next)) :
    D.Shows s (f.shown c raw next) (s.put w c (f.after next)) := by
  have taken : D.concurrent.labelled.step s (.statement c) = some (.ok
      ((raw.map Occurrence.event ++ f.answered c next).map (Turn.statement c, ·))
      (s.put w c (f.after next))) := by
    refine Machine.labelled_step.mpr ⟨_, ?_, rfl⟩
    simp [Driver.concurrent, Concurrent.step, here, Concurrent.advance_ok run]
  have shows : D.Shows s _ _ := Machine.Plays.step taken trivial
  rwa [List.filterMap_map] at shows

theorem Flight.shown_silent {raw : List Event} (silent : ∀ e ∈ raw, e.Silent) (f : Flight)
    (c : Nat) (next : ClientPc) :
    f.shown c raw next = (f.answered c next).filterMap fun e => outside (.statement c, e) := by
  have hidden : raw.filterMap ((fun e => outside (Turn.statement c, e)) ∘ .event) = [] := by
    refine List.filterMap_eq_nil_iff.mpr fun e member => ?_
    cases e with
    | gpio pin access => exact absurd rfl (silent _ member pin access)
    | subscript | duty | sleep | stop | exit | ret => rfl
  rw [Flight.shown, List.filterMap_append, List.filterMap_map, hidden, List.nil_append]

theorem init_silent {todo : List Stmt} {raw : List Event} {next : ClientPc}
    (run : (ClientPc.before (.init args outcome todo)).step w = .ok raw (w', next)) :
    ∀ e ∈ raw, e.Silent := by
  have silent : ∀ e ∈ ((Call.init args outcome todo).step w).trace, e.Silent := by
    cases todo with
    | nil => simp [Call.step]
    | cons stmt rest =>
        refine Traced.forall_trace_bind (exec_silent args outcome w stmt) fun r => ?_
        obtain ⟨_, brk⟩ := r
        cases brk <;> simp
  obtain ⟨first, r, second, ran, done, rfl⟩ := Traced.bind_eq_ok.mp run
  cases done
  rw [List.append_nil]
  simpa [ran] using silent

/-! ## Requests in step

Every request but `PWM_INIT` runs the same statements in both drivers. -/

theorem Flight.twin_other (other : f.req.isInit = false) (started : Bool) :
    f.twin D' started = f := by
  unfold Flight.twin
  split
  · rename_i same
    rw [same] at other
    cases other
  · rfl

theorem Flight.twin_req (started : Bool) : (f.twin D' started).req = f.req := by
  unfold Flight.twin
  split <;> rfl

theorem gpioStatus_twin (pin status : Int32) (same : w'.gpio = w.gpio) :
    ∃ tr gpio, gpioStatus pin status w = .ok tr { w with gpio := gpio } ∧
      gpioStatus pin status w' = .ok tr { w' with gpio := gpio } := by
  unfold gpioStatus
  split
  · exact ⟨[], w.gpio, rfl, by rw [← same]; rfl⟩
  · split
    · exact ⟨_, _, World.onGpio_gpioClr w pin, same ▸ World.onGpio_gpioClr w' pin⟩
    · exact ⟨_, _, World.onGpio_gpioSet w pin, same ▸ World.onGpio_gpioSet w' pin⟩

/-- A statement of both, with the same events. -/
structure InStep (D D' : Driver) (f : Flight) (w w' w₁ w₁' : World) (raw : List Event)
    (next : ClientPc) : Prop where
  here : f.pc.step w = .ok raw (w₁, next)
  there : f.pc.step w' = .ok raw (w₁', next)
  worlds : World.Twins D D' w₁ w₁'
  started : w₁.started = w.started

theorem Flight.Sound.inStep (sound : f.Sound D w.tables) (other : f.req.isInit = false)
    (est : w.tables.Established) (est' : w'.tables.Established) (twins : World.Twins D D' w w') :
    ∃ w₁ w₁' raw next, InStep D D' f w w' w₁ w₁' raw next := by
  obtain ⟨req, outcome, pc⟩ := f
  cases pc with
  | between pin type old =>
      refine ⟨_, _, _, _, rfl, rfl, ?_, started_eq rfl rfl⟩
      rw [twins.gpio]
      exact twins.withGpio _
  | before call =>
      cases call with
      | init args outcome' todo =>
          obtain ⟨rfl, -⟩ := sound
          cases other
      | returned => exact sound.elim
      | pinSet pin type =>
          by_cases valid : ValidType type
          · have loads := step_load pin w' valid
            rw [twins.gpio] at loads
            exact ⟨w, w', _, _, step_load pin w valid, loads, twins, rfl⟩
          · exact ⟨w, w', _, _, step_ignore pin w valid, step_ignore pin w' valid, twins, rfl⟩
      | gpioSet pin status =>
          obtain ⟨tr, gpio, run, run'⟩ := gpioStatus_twin pin status twins.gpio
          exact ⟨_, _, tr, .before (.returned 0), by simp [ClientPc.step, Call.step_gpioSet run],
            by simp [ClientPc.step, Call.step_gpioSet run'], twins.withGpio gpio, started_eq rfl rfl⟩
      | scan pin duty i =>
          by_cases more : i < w.pwmPinCount
          · have inside : i < maxPwmNum := Nat.lt_of_lt_of_le more est.bound
            have looks : ∀ v : World, i < v.pwmPinCount → (ClientPc.before (.scan pin duty i)).step v =
                .ok [.subscript .dutyArray i] (v, .before (if v.dutyArray[i].pin = pin
                  then .update i duty else .scan pin duty (i + 1))) := by
              intro v short
              simp [ClientPc.step, Call.step_scan short inside]
            have there := looks w' (twins.count ▸ more)
            rw [twins.pin est est' more inside] at there
            exact ⟨w, w', _, _, looks w more, there, twins, rfl⟩
          · exact ⟨w, w', [], .before (.returned 0), by simp [ClientPc.step, Call.step_scan_end more],
              by simp [ClientPc.step, Call.step_scan_end (twins.count ▸ more)], twins, rfl⟩
      | update pos duty =>
          obtain ⟨pin, slot, -, below, -⟩ := sound
          have inside : pos < maxPwmNum := Nat.lt_of_lt_of_le below est.bound
          have updates : ∀ v : World, (ClientPc.before (.update pos duty)).step v =
              .ok [.subscript .dutyArray pos, .subscript .dutyArray pos]
                (v.withDuty pos inside duty, .before (.returned 0)) := by
            intro v
            simp [ClientPc.step, Call.step_update inside, World.withDuty]
          exact ⟨_, _, _, _, updates w, updates w', twins.withDuty inside duty, started_eq rfl rfl⟩

theorem Twins.put {next next' : Option Flight} (twins : Twins D D' s s')
    (left : (s.put w c next).Live D) (right : (s'.put w' c next').Live D')
    (worlds : World.Twins D D' w w') (mine : next' = next.map (·.twin D' w.started))
    (others : ∀ c' f', c' ≠ c → s.flight c' = some f' →
      f'.twin D' w.started = f'.twin D' s.world.started) :
    Twins D D' (s.put w c next) (s'.put w' c next') where
  left := left
  right := right
  worlds := worlds
  flights := by
    intro c'
    by_cases same : c' = c
    · subst same
      rw [Concurrent.flight_put_self, Concurrent.flight_put_self]
      exact mine
    · rw [Concurrent.flight_put_other same, Concurrent.flight_put_other same, twins.flights c']
      cases there : s.flight c' with
      | none => rfl
      | some f' => exact congrArg some (others c' f' same there).symm

theorem Twins.inStep {raw : List Event} {next : ClientPc} (twins : Twins D D' s s')
    (here : s.flight c = some f) (other : f.req.isInit = false)
    (run : f.pc.step s.world = .ok raw (w, next)) :
    ∃ s₁, D'.Shows s' (f.shown c raw next) s₁ ∧ Twins D D' (s.put w c (f.after next)) s₁ := by
  have there : s'.flight c = some f := by
    rw [twins.flights c, here, Option.map_some, f.twin_other other]
  obtain ⟨w₁, w', raw', next', run₁, run', worlds, started⟩ :=
    (twins.left.inv.sound c f here).inStep other twins.left.inv.established
      twins.right.inv.established twins.worlds
  cases run.symm.trans run₁
  have shows := D'.shows_statement there run'
  refine ⟨_, shows, twins.put ((D.shows_statement here run).live twins.left)
    (shows.live twins.right) worlds ?_ ?_⟩
  · cases after : f.after next with
    | none => rfl
    | some g =>
        have kept : g.req = f.req := by
          unfold Flight.after at after
          split at after
          · cases after
          · cases after
            rfl
        rw [Option.map_some, g.twin_other (kept ▸ other)]
  · intro c' f' _ _
    rw [started]

/-! ## Opening a channel

Where one driver has woken the thread of a `PWM_INIT`, the other one runs all of its statements
but the counting, and where one has failed the other one runs until it fails. -/

theorem World.Opened.trans {w₁ : World} {before newest : Option Channel}
    (first : World.Opened w w₁ before) (second : World.Opened w₁ w' newest) :
    World.Opened w w' newest where
  gpio := second.gpio.trans first.gpio
  count := second.count.trans first.count
  others := fun k other => (second.others k (first.count ▸ other)).trans (first.others k other)
  newest := first.count ▸ second.newest

theorem Concurrent.put_put {w₁ : World} (next next' : Option Flight) :
    (s.put w₁ c next).put w c next' = s.put w c next' := by
  simp [Concurrent.put]

/-- Once the thread runs only the counting is left. -/
theorem Tables.Opening.last {todo : List Stmt} (opening : w.tables.Opening D args outcome todo)
    (more : todo ≠ []) {ch : Channel} (shown : w.running w.pwmPinCount = some ch) :
    todo = [.incr] := by
  obtain ⟨t, slot, here, awake, -⟩ := World.running_eq_some shown
  obtain ⟨-, -, spawned, -, woken⟩ := opening.newest_task here (Nat.lt_irrefl _)
  exact (code_woken opening.code spawned (woken awake)).resolve_right more

/-- A `PWM_INIT` comes to its counting, or fails and returns. -/
inductive Concurrent.OpensUp (D : Driver) (s : Concurrent) (c : Nat) (args : InitArgs) :
    CreateOutcome → Prop where
  | starts {w : World} : D.Shows s []
        (s.put w c (some ⟨.pwmInit args, .created, .before (.init args .created [.incr])⟩)) →
      s.world.Opened w (some ⟨args, D.creationDuty, false⟩) → OpensUp D s c args .created
  | fails {w : World} {why : Errno} :
      D.Shows s [.returned c ⟨.pwmInit args, .failed why, why.value⟩] (s.put w c none) →
      s.world.Opened w none → OpensUp D s c args (.failed why)

theorem Concurrent.OpensUp.after {w₁ : World} {next : Option Flight}
    (ends : (s.put w₁ c next).OpensUp D c args outcome) (first : D.Shows s [] (s.put w₁ c next))
    (opened : s.world.Opened w₁ none) : s.OpensUp D c args outcome := by
  cases ends with
  | starts later changed =>
      rw [Concurrent.put_put] at later
      exact .starts (first.trans later) (opened.trans changed)
  | fails later changed =>
      rw [Concurrent.put_put] at later
      exact .fails (first.trans later) (opened.trans changed)

theorem Concurrent.Live.opensUp {todo : List Stmt} (live : s.Live D)
    (here : s.flight c = some ⟨.pwmInit args, outcome, .before (.init args outcome todo)⟩)
    (unstarted : s.world.started = false) : s.OpensUp D c args outcome := by
  -- the statements that are left, until the thread runs or its creation has failed
  induction todo generalizing s with
  | nil =>
      obtain ⟨-, -, more, -⟩ := live.inv.sound c _ here
      exact absurd rfl more
  | cons stmt rest ih =>
      obtain ⟨-, -, -, opening, keeps⟩ := live.inv.sound c _ here
      have quiet : s.world.running s.world.pwmPinCount = none := by
        simpa [World.started] using unstarted
      obtain ⟨tr, w, brk, run, -, progress⟩ := opening.advances
      have frame := Stmt.exec_frame run
      cases brk with
      | some err =>
          obtain ⟨why, rfl, rfl⟩ := opening.breaks run
          have settled : w.tables.Settled := progress
          have last : stmt ≠ .incr := by
            rintro rfl
            cases run
          have step : (ClientPc.before (.init args (.failed why) (stmt :: rest))).step s.world =
              .ok tr (w, .before (.returned why.value)) := by
            simp [ClientPc.step, Call.step_init_break run]
          have shows := D.shows_statement here step
          rw [Flight.shown_silent (init_silent step)] at shows
          exact .fails shows (live.inv.opened_breaks here rfl rfl run last settled)
      | none =>
          by_cases last : stmt = .incr
          · subst last
            obtain rfl := code_incr opening.code
            rw [opening.incr.started_newest] at unstarted
            cases unstarted
          · have more := code_more opening.code last
            have opening' : w.tables.Opening D args outcome rest := by
              obtain ⟨next, later, rfl⟩ := List.exists_cons_of_ne_nil more
              exact progress
            have keeps' := Call.Keeps.stmt opening more keeps run
            obtain ⟨count, others, newest⟩ := opens_running opening run last opening' keeps'
            have step : (ClientPc.before (.init args outcome (stmt :: rest))).step s.world =
                .ok tr (w, .before (.init args outcome rest)) := by
              obtain ⟨next, later, rfl⟩ := List.exists_cons_of_ne_nil more
              simp [ClientPc.step, Call.step_init_next run, Call.resume]
            have shows := D.shows_statement here step
            rw [Flight.shown_silent (init_silent step)] at shows
            rcases newest with same | ⟨rfl, -, now⟩
            · have still : w.running s.world.pwmPinCount = none := same.trans quiet
              refine (ih (shows.live live) (Concurrent.flight_put_self _ _) ?_).after shows
                ⟨frame.gpio, count, others, still⟩
              rw [Concurrent.put_world, World.started, count, still]
              rfl
            · obtain rfl := opening'.last more (count ▸ now)
              exact .starts shows ⟨frame.gpio, count, others, now⟩

theorem World.Twins.opened {w₁ w₁' : World} {x x' : Option Channel} (twins : World.Twins D D' w w')
    (one : World.Opened w w₁ x) (two : World.Opened w' w₁' x')
    (alike : Option.Rel (Channel.Alike D D') x x') : World.Twins D D' w₁ w₁' where
  gpio := by rw [two.gpio, one.gpio, twins.gpio]
  count := by rw [two.count, one.count, twins.count]
  channels := by
    intro k
    by_cases newest : k = w.pwmPinCount
    · have there := two.newest
      rw [twins.count, ← newest] at there
      rw [newest, one.newest, ← newest, there]
      exact alike
    · rw [one.others k newest, two.others k (twins.count ▸ newest)]
      exact twins.channels k

theorem Concurrent.put_self (s : Concurrent) (c : Nat) : s.put s.world c (s.flight c) = s := by
  simp [Concurrent.put]

/-- A statement of a `PWM_INIT`: the other driver waits until the thread runs, and then opens the
    whole channel. -/
theorem Twins.init {raw : List Event} {next : ClientPc} (twins : Twins D D' s s')
    (here : s.flight c = some f) (init : f.req.isInit = true)
    (stepped : f.pc.step s.world = .ok raw (w, next)) (moves : f.Moves D s.world w next) :
    ∃ s₁, D'.Shows s' (f.shown c raw next) s₁ ∧ Twins D D' (s.put w c (f.after next)) s₁ := by
  have left := (D.shows_statement here stepped).live twins.left
  have silent : ∀ e ∈ raw, e.Silent := by
    obtain ⟨args, outcome, todo, rfl, -⟩ := (twins.left.inv.sound c f here).opening init
    exact init_silent stepped
  rw [f.shown_silent silent]
  have there : s'.flight c = some (f.twin D' s.world.started) := by
    rw [twins.flights c, here]
    rfl
  have others : ∀ c' f', c' ≠ c → s.flight c' = some f' →
      f'.twin D' w.started = f'.twin D' s.world.started := by
    intro c' f' other flies
    have none_ := twins.left.inv.alone_init here init c' f' other flies
    rw [f'.twin_other none_, f'.twin_other none_]
  obtain ⟨req, outcome, pc⟩ := f
  cases moves with
  | load same | store same | ignore same | drive same | pass same | found same | absent same
  | update _ same =>
      rw [same] at init
      cases init
  | @opens args rest tr w' stmt same opening run last more opening' keeps =>
      obtain rfl : req = .pwmInit args := same
      have frame := Stmt.exec_frame run
      obtain ⟨count, elsewhere, unchanged | ⟨created, before, after⟩⟩ :=
        opens_running opening run last opening' keeps
      · have opened : s.world.Opened w (s.world.running s.world.pwmPinCount) :=
          ⟨frame.gpio, count, elsewhere, unchanged⟩
        have alike := twins.worlds.channels s.world.pwmPinCount
        have started : w.started = s.world.started := by
          rw [World.started, count, unchanged, World.started]
        have still : World.Opened s'.world s'.world (s'.world.running s.world.pwmPinCount) :=
          ⟨rfl, rfl, fun _ _ => rfl, by rw [twins.worlds.count]⟩
        have worlds := twins.worlds.opened opened still alike
        have waits : Twins D D' (s.put w c _) (s'.put s'.world c (s'.flight c)) :=
          twins.put left ((s'.put_self c).symm ▸ twins.right) worlds (by rw [there, started]; rfl) others
        rw [s'.put_self c] at waits
        exact ⟨s', .refl s', waits⟩
      · obtain rfl : outcome = .created := created
        have opened : s.world.Opened w (some ⟨args, D.creationDuty, false⟩) :=
          ⟨frame.gpio, count, elsewhere, after⟩
        have unstarted : s.world.started = false := by rw [World.started, before]; rfl
        have started : w.started = true := by rw [World.started, count, after]; rfl
        rw [unstarted] at there
        cases twins.right.opensUp there (twins.worlds.started.trans unstarted) with
        | starts shows changed =>
            refine ⟨_, shows, twins.put left (shows.live twins.right) (twins.worlds.opened opened changed
              (.some ⟨rfl, rfl, .inr ⟨rfl, rfl⟩⟩)) ?_ others⟩
            rw [started]
            rfl
  | @counts args same created room held settled =>
      obtain rfl : req = .pwmInit args := same
      rw [settled.started_newest] at there
      have shows := D'.shows_statement there (show (ClientPc.before (.init args outcome [.incr])).step
        s'.world = .ok [] ({ s'.world with pwmPinCount := s'.world.pwmPinCount + 1 },
          .before (.returned 0)) from rfl)
      exact ⟨_, shows, twins.put left (shows.live twins.right)
        ⟨twins.worlds.gpio, congrArg (· + 1) twins.worlds.count, twins.worlds.channels⟩ rfl others⟩
  | @breaks args why tr w' stmt same failed room run last settled =>
      obtain rfl : req = .pwmInit args := same
      obtain rfl : outcome = .failed why := failed
      have opened := twins.left.inv.opened_breaks here init rfl run last settled
      have unstarted : s.world.started = false := by
        rw [World.started, twins.left.inv.not_started here init rfl _ (Nat.lt_irrefl _)]
        rfl
      rw [unstarted] at there
      cases twins.right.opensUp there (twins.worlds.started.trans unstarted) with
      | fails shows changed =>
          exact ⟨_, shows, twins.put left (shows.live twins.right)
            (twins.worlds.opened opened changed .none) rfl others⟩

/-! ## Tasks

A task of the other driver runs until it drives its pin, too. -/

theorem Driver.shows_task {swap : Bool} {raw : List Event}
    (stepped : D.pwmTask s.world k swap = some (.ok raw w)) :
    D.Shows s ((raw.map Occurrence.event).filterMap fun e => outside (.task k swap, e))
      { s with world := w } := by
  have taken : D.concurrent.labelled.step s (.task k swap) = some (.ok
      ((raw.map Occurrence.event).map (Turn.task k swap, ·)) { s with world := w }) := by
    refine Machine.labelled_step.mpr ⟨_, ?_, rfl⟩
    simp [Driver.concurrent, Concurrent.step, stepped]
  have shows : D.Shows s _ _ := Machine.Plays.step taken trivial
  rwa [List.filterMap_map] at shows

theorem Driver.Move.shows_outside {slot : Dutycycle} {pos : Nat} {stop swap : Bool} {pc pc' : TaskPc}
    {raw : List Event} {level : Option Bool} (k : Nat)
    (move : D.Move slot pos stop swap pc pc' raw level) :
    let shown := (raw.map Occurrence.event).filterMap fun e => outside (.task k swap, e)
    (∃ l, level = some l ∧ decide pc.High = !l ∧
      shown = [.task k slot.pin (driveStore slot.pin l)]) ∨ level = none ∧ shown = [] := by
  cases move with
  | set => exact .inl ⟨true, rfl, rfl, rfl⟩
  | clr => exact .inl ⟨false, rfl, rfl, rfl⟩
  | entry | halt | goOn | eval | sleep => exact .inr ⟨rfl, rfl⟩

theorem stores_of_creator {t : Task} {slot : Dutycycle} (pin : slot.pin = t.creator.pin) (l : Bool) :
    [Outside.task k slot.pin (driveStore slot.pin l)] =
      [.task k t.creator.pin (driveStore t.creator.pin l)] := by
  rw [pin]

theorem Driver.Move.level_of_driving {slot : Dutycycle} {pos : Nat} {stop swap l : Bool}
    {pc pc' : TaskPc} {raw : List Event} {level : Option Bool} (at_ : pc = .driving l)
    (move : D.Move slot pos stop swap pc pc' raw level) : level = some l := by
  cases l with
  | true | false =>
      subst at_
      cases move
      rfl

structure World.Drove (w w' : World) (k : Nat) (ch : Channel) (l : Bool) : Prop where
  gpio : w'.gpio = (w.driven ch.args.pin (some l)).gpio
  count : w'.pwmPinCount = w.pwmPinCount
  channels : ∀ j, w'.running j = if k = j then some { ch with high := l } else w.running j

theorem World.drove_of_move {t : Task} {slot : Dutycycle} {pc : TaskPc} {pos : Nat} {stop swap : Bool}
    {raw : List Event} {level : Option Bool} (here : w.tasks[k]? = some t)
    (held : w.dutyArray[k]? = some slot) (pin : slot.pin = t.creator.pin)
    (move : D.Move slot pos stop swap t.pc pc raw level) :
    ∀ l, level = some l → World.Drove w ((w.driven slot.pin level).jump k pc) k
      ⟨t.creator, slot.dutyCycle, t.pc.High⟩ l := by
  rintro l rfl
  have high : decide pc.High = l := Bool.eq_iff_iff.mpr (by simpa using move.high)
  refine ⟨by rw [pin]; rfl, rfl, fun j => ?_⟩
  rw [running_moved here held move.awake, high]

theorem World.running_still {t : Task} {slot : Dutycycle} {pc : TaskPc} {pos : Nat} {stop swap : Bool}
    {raw : List Event} (here : w.tasks[k]? = some t) (awake : t.pc ≠ .asleep)
    (held : w.dutyArray[k]? = some slot) (move : D.Move slot pos stop swap t.pc pc raw none) (j : Nat) :
    ((w.driven slot.pin none).jump k pc).running j = w.running j := by
  rw [running_moved here held move.awake]
  split
  · rename_i mine
    rw [← mine, World.running_awake here awake held]
    simp [show pc.High ↔ t.pc.High from move.high]
  · rfl

theorem Concurrent.Live.drives {ch : Channel} {l : Bool} (live : s.Live D)
    (shown : s.world.running k = some ch) (low : ch.high = !l) :
    ∃ w, D.Shows s [.task k ch.args.pin (driveStore ch.args.pin l)] { s with world := w } ∧
      s.world.Drove w k ch l := by
  -- the steps the task takes before
  induction rank : (s.world.tasks[k]?.elim 0 (·.pc.untilDrive D l)) using Nat.strongRecOn
      generalizing s with
  | ind n ih =>
      obtain ⟨t, slot, here, awake, held, same⟩ := World.running_eq_some shown
      have pos : t.pos = k := (live.inv.placed here).pos
      have inside : t.pos < maxPwmNum := pos ▸ (live.inv.placed here).inside
      have going := live.going.running k t here
      obtain ⟨raw, w, stepped⟩ := pwmTask_enabled (D := D) here inside awake going
      have shows := Driver.shows_task stepped
      obtain ⟨t', slot', pc, level, here', -, held', pin, move, rfl⟩ := live.task stepped
      obtain rfl : t = t' := Option.some.inj (here.symm.trans here')
      obtain rfl : slot = slot' := Option.some.inj (held.symm.trans held')
      rcases move.shows_outside k with ⟨l', rfl, was, drove⟩ | ⟨rfl, silent⟩
      · subst same
        obtain rfl : l' = l := by
          rw [show decide t.pc.High = !l from low] at was
          simpa using was.symm
        rw [drove.trans (stores_of_creator pin l')] at shows
        exact ⟨_, shows, World.drove_of_move here held pin move l' rfl⟩
      · rw [silent] at shows
        have away : t.pc.untilDrive D l ≠ 0 := by
          intro zero
          cases move.level_of_driving (untilDrive_eq_zero awake going zero)
        have nearer : pc.untilDrive D l < n := by
          rw [← rank, here]
          exact move.untilDrive_lt l away
        have still := World.running_still here awake held move
        obtain ⟨w, later, drove⟩ := ih _ nearer (shows.live live) ((still k).trans shown)
          (by rw [tasks_moved here]; rfl)
        refine ⟨w, shows.trans later, drove.gpio, drove.count, fun j => ?_⟩
        rw [drove.channels, still]

theorem Twins.world (twins : Twins D D' s s') (left : Concurrent.Live D { s with world := w })
    (right : Concurrent.Live D' { s' with world := w' }) (worlds : World.Twins D D' w w')
    (started : w.started = s.world.started) :
    Twins D D' { s with world := w } { s' with world := w' } where
  left := left
  right := right
  worlds := worlds
  flights := by
    intro c
    rw [started]
    exact twins.flights c

theorem World.Drove.started {ch : Channel} {l : Bool} (drove : w.Drove w' k ch l)
    (shown : w.running k = some ch) : w'.started = w.started := by
  rw [World.started, drove.count, drove.channels, World.started]
  split
  · rename_i mine
    rw [← mine, shown]
    rfl
  · rfl

theorem World.Twins.drove {w₁ w₁' : World} {ch ch' : Channel} {l : Bool}
    (twins : World.Twins D D' w w') (one : w.Drove w₁ k ch l) (two : w'.Drove w₁' k ch' l)
    (alike : Channel.Alike D D' ch ch') : World.Twins D D' w₁ w₁' where
  gpio := by
    rw [two.gpio, one.gpio, alike.args]
    simp only [World.driven, twins.gpio]
  count := by rw [two.count, one.count, twins.count]
  channels := by
    intro j
    rw [one.channels, two.channels]
    split
    · exact .some ⟨alike.args, rfl, alike.duty⟩
    · exact twins.channels j

theorem Twins.task {swap : Bool} {raw : List Event} (twins : Twins D D' s s')
    (stepped : D.pwmTask s.world k swap = some (.ok raw w)) :
    ∃ s₁, D'.Shows s' ((raw.map Occurrence.event).filterMap fun e => outside (.task k swap, e)) s₁ ∧
      Twins D D' { s with world := w } s₁ := by
  have left := (Driver.shows_task stepped).live twins.left
  obtain ⟨t, slot, pc, level, here, awake, held, pin, move, rfl⟩ := twins.left.task stepped
  have shown := World.running_awake here awake held
  rcases move.shows_outside k with ⟨l, rfl, was, drives⟩ | ⟨rfl, silent⟩
  · have one := World.drove_of_move here held pin move l rfl
    have rel := twins.worlds.channels k
    rw [shown] at rel
    generalize there : s'.world.running k = x at rel
    cases rel with
    | @some _ ch' alike =>
        obtain ⟨w', shows, two⟩ := twins.right.drives there (alike.high.trans was)
        rw [alike.args] at shows
        rw [drives.trans (stores_of_creator pin l)]
        exact ⟨_, shows, twins.world left (shows.live twins.right) (twins.worlds.drove one two alike)
          (one.started shown)⟩
  · rw [silent]
    have still := World.running_still here awake held move
    have worlds : World.Twins D D' ((s.world.driven slot.pin none).jump k pc) s'.world :=
      ⟨twins.worlds.gpio, twins.worlds.count, fun j => still j ▸ twins.worlds.channels j⟩
    refine ⟨s', .refl s', twins.world left twins.right worlds ?_⟩
    rw [World.started, still]
    rfl

/-! ## Entering -/

theorem Twins.oneInit {turn : Turn} (twins : Twins D D' s s') (one : OneInit s turn) :
    OneInit s' turn := by
  cases turn with
  | statement | task => trivial
  | enter c req outcome =>
      cases req with
      | pinSet | gpioSet | pwmSet => trivial
      | pwmInit args =>
          refine ⟨twins.worlds.count.symm ▸ one.1, fun c' f' there => ?_⟩
          rw [twins.flights c'] at there
          obtain ⟨f, here, rfl⟩ := Option.map_eq_some_iff.mp there
          rw [Flight.twin_req]
          exact one.2 c' f here

theorem Twins.enter {req : Request} (twins : Twins D D' s s') (idle : s.flight c = none)
    (one : OneInit s (.enter c req outcome)) :
    ∃ s₁, D'.Shows s' [.entered c req] s₁ ∧
      Twins D D' (s.put s.world c (some ⟨req, outcome, .before (.start D outcome req)⟩)) s₁ := by
  have enters : ∀ {D : Driver} {s : Concurrent}, s.flight c = none →
      OneInit s (.enter c req outcome) →
        D.Shows s [.entered c req]
          (s.put s.world c (some ⟨req, outcome, .before (.start D outcome req)⟩)) := by
    intro D s idle one
    have taken : D.concurrent.labelled.step s (.enter c req outcome) = some (.ok
        ([.entered c req].map (Turn.enter c req outcome, ·))
        (s.put s.world c (some ⟨req, outcome, .before (.start D outcome req)⟩))) := by
      refine Machine.labelled_step.mpr ⟨_, ?_, rfl⟩
      simp [Driver.concurrent, Concurrent.step, idle]
    exact Machine.Plays.step taken one
  have idle' : s'.flight c = none := by rw [twins.flights c, idle]; rfl
  have shows : D'.Shows s' [.entered c req] _ := enters idle' (twins.oneInit one)
  refine ⟨_, shows, twins.put ((enters idle one).live twins.left) (shows.live twins.right)
    twins.worlds ?_ (fun _ _ _ _ => rfl)⟩
  cases req with
  | pinSet | gpioSet | pwmSet => rfl
  | pwmInit args =>
      have unstarted : s.world.started = false := by
        rw [World.started, (twins.left.inv.settled one.2).running_beyond (Nat.le_refl _)]
        rfl
      rw [unstarted]
      rfl

/-! ## Runs -/

theorem Twins.step {turn : Turn} {ltr : List (Turn × Occurrence)} {s₁ : Concurrent}
    (twins : Twins D D' s s') (one : OneInit s turn)
    (taken : D.concurrent.labelled.step s turn = some (.ok ltr s₁)) :
    ∃ s₁', D'.Shows s' (ltr.filterMap outside) s₁' ∧ Twins D D' s₁ s₁' := by
  obtain ⟨tr, stepped, rfl⟩ := Machine.labelled_step.mp taken
  rw [List.filterMap_map]
  generalize shape : (Traced.ok tr s₁ : Traced Occurrence Fault Concurrent) = x at stepped
  cases Concurrent.step_taken stepped with
  | enter idle =>
      cases shape
      exact twins.enter idle one
  | @statement c f here =>
      have inv := twins.left.inv
      obtain ⟨raw, w, next, run, -, moves⟩ := (inv.sound c f here).moves inv.established.bound
      rw [Concurrent.advance_ok run] at shape
      cases shape
      cases init : f.req.isInit with
      | true => exact twins.init here init run moves
      | false => exact twins.inStep here init run
  | @task k swap y moved =>
      obtain ⟨_, w, _, ran, done, rfl⟩ := Traced.bind_eq_ok.mp shape.symm
      obtain ⟨raw, rfl, rfl⟩ := Traced.tag_eq_ok.mp ran
      cases done
      rw [List.append_nil]
      exact twins.task moved

end KsoftPWM
