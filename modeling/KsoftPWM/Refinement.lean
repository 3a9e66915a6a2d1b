import KsoftPWM.Base.Simulation
import KsoftPWM.Linear
import KsoftPWM.Panel
import KsoftPWM.Unload

/-! # The drivers refine the panel

Every run of a driver with many clients is a run of the panel.  The requests enter and return
in it in the same order with the same answers, and the tasks drive the same pins and read the
same duty cycles at the same moments.
-/

namespace KsoftPWM

/-! ## What a driver shows of itself -/

instance : DecidablePred TaskPc.High
  | .eval .high _ => .isTrue trivial
  | .clr => .isTrue trivial
  | .eval .low _ | .asleep | .entry | .loopHead | .set | .returned => .isFalse id

namespace World

/-- The channel of a thread that has been woken. -/
def running (w : World) (k : Nat) : Option Channel := do
  let t ← w.tasks[k]?
  let slot ← w.dutyArray[k]?
  if t.pc = .asleep then none else some ⟨t.creator, slot.dutyCycle, t.pc.High⟩

/-- The slot at `pwm_pin_count` has a thread that runs. -/
def started (w : World) : Bool := (w.running w.pwmPinCount).isSome

end World

def Flight.client (f : Flight) (w : World) : PanelClient :=
  ⟨f.req, f.outcome, if f.req.isInit = true ∧ w.started = true then .started else .waiting⟩

/-- What the panel shows of an event, given whose turn it was: the requests as they enter and
    return, and what the tasks store and read. -/
def visible : Turn × Occurrence → Option PanelEvent
  | (_, .entered c req) => some (.entered c req)
  | (_, .returned c answer) => some (.returned c answer)
  | (.task k _, .event (.gpio pin access)) =>
      if access = driveStore pin true then some (.driven k pin true)
      else if access = driveStore pin false then some (.driven k pin false)
      else none
  | (.task k _, .event (.duty value)) => some (.duty k value)
  | _ => none

/-- The panel shows the state of the driver. -/
structure Mirrors (s : Concurrent) (p : Panel) : Prop where
  channels : ∀ k, p.channels[k]? = s.world.running k
  counted : p.counted = s.world.pwmPinCount
  clients : ∀ c, p.clients c = (s.flight c).map (·.client s.world)

variable {D : Driver} {s s' : Concurrent} {p p' : Panel} {w w' : World} {c k : Nat} {f : Flight}
  {t : Task} {args : InitArgs} {outcome : CreateOutcome} {stmt : Stmt} {rest todo : List Stmt}
  {tr : List Event} {brk : Option Int} {err : Int}

namespace World

theorem running_absent (absent : w.tasks[k]? = none) : w.running k = none := by
  simp [running, absent]

theorem running_asleep (here : w.tasks[k]? = some t) (asleep : t.pc = .asleep) :
    w.running k = none := by
  cases held : w.dutyArray[k]? <;> simp [running, here, asleep, held]

theorem running_awake {slot : Dutycycle} (here : w.tasks[k]? = some t) (awake : t.pc ≠ .asleep)
    (held : w.dutyArray[k]? = some slot) :
    w.running k = some ⟨t.creator, slot.dutyCycle, t.pc.High⟩ := by
  simp [running, here, held, awake]

theorem running_eq_some {ch : Channel} (shown : w.running k = some ch) :
    ∃ t slot, w.tasks[k]? = some t ∧ t.pc ≠ .asleep ∧ w.dutyArray[k]? = some slot ∧
      ch = ⟨t.creator, slot.dutyCycle, t.pc.High⟩ := by
  obtain ⟨t, here, shown⟩ := Option.bind_eq_some_iff.mp shown
  obtain ⟨slot, held, shown⟩ := Option.bind_eq_some_iff.mp shown
  split at shown
  · cases shown
  · rename_i awake
    exact ⟨t, slot, here, awake, held, (Option.some.inj shown).symm⟩

/-- Nothing changes for a channel while its thread does not move and its slot stays. -/
theorem running_grows (grows : Grows w.tasks w'.tasks) (here : w.tasks[k]? = some t)
    (awake : t.pc ≠ .asleep) (slots : w'.dutyArray[k]? = w.dutyArray[k]?) :
    w'.running k = w.running k := by
  obtain ⟨t', here', creator, pc⟩ := grows.awake here awake
  simp [running, here, here', slots, creator, pc]

end World

/-! ## Slots and their channels -/

theorem Tables.Established.task (est : w.tables.Established) (below : k < w.pwmPinCount) :
    ∃ t slot, w.tasks[k]? = some t ∧ t.pc ≠ .asleep ∧ w.dutyArray[k]? = some slot ∧
      slot.Serves t.creator := by
  obtain ⟨slot, creator, held, mine, serves, -⟩ := est.owned k below
  have owner : w.tasks[k]?.map Task.owner = some ⟨k, creator, true⟩ := by
    simpa [World.tables] using mine
  obtain ⟨t, here, owns⟩ := Option.map_eq_some_iff.mp owner
  have made : t.creator = creator := congrArg Owner.creator owns
  have woken : (t.pc != .asleep) = true := congrArg Owner.awake owns
  exact ⟨t, slot, here, by simpa using woken, held, made ▸ serves⟩

theorem Tables.Settled.running_beyond (settled : w.tables.Settled) (beyond : w.pwmPinCount ≤ k) :
    w.running k = none :=
  World.running_absent (List.getElem?_eq_none (settled.threads ▸ beyond))

theorem Tables.Opening.newest_task (opening : w.tables.Opening D args outcome todo)
    (here : w.tasks[k]? = some t) (beyond : ¬ k < w.pwmPinCount) :
    k = w.pwmPinCount ∧ outcome = .created ∧ D.creates ∉ todo ∧ t.creator = args ∧
      (t.pc ≠ .asleep → .wakeUp ∉ todo) := by
  have owner : w.tables.owners[k]? = some t.owner := by simp [World.tables, here]
  obtain ⟨newest, created, spawned, owns⟩ := opening.newest owner beyond
  refine ⟨newest, created, spawned, congrArg Owner.creator owns, fun awake => ?_⟩
  have flag : (t.pc != .asleep) = !todo.contains .wakeUp := congrArg Owner.awake owns
  simpa [bne_iff_ne.mpr awake] using flag

theorem Tables.Opening.running_beyond (opening : w.tables.Opening D args outcome todo)
    (beyond : w.pwmPinCount < k) : w.running k = none := by
  cases here : w.tasks[k]? with
  | none => exact World.running_absent here
  | some t =>
      obtain ⟨rfl, -⟩ := opening.newest_task here (by omega)
      exact absurd beyond (Nat.lt_irrefl _)

theorem exec_running_below (est : w.tables.Established) (below : k < w.pwmPinCount)
    (run : stmt.exec args outcome w = .ok tr (w', brk)) : w'.running k = w.running k := by
  have frame := Stmt.exec_frame run
  obtain ⟨t, slot, here, awake, -⟩ := est.task below
  exact World.running_grows frame.tasks here awake (frame.slots k (Nat.ne_of_lt below))

theorem opens_running (opening : w.tables.Opening D args outcome (stmt :: rest))
    (run : stmt.exec args outcome w = .ok tr (w', brk)) (last : stmt ≠ .incr)
    (opening' : w'.tables.Opening D args outcome rest)
    (keeps : (Call.init args outcome rest).Keeps D (fun _ => True) w'.tables) :
    w'.pwmPinCount = w.pwmPinCount ∧ (∀ k, k ≠ w.pwmPinCount → w'.running k = w.running k) ∧
      (w'.running w.pwmPinCount = w.running w.pwmPinCount ∨
        outcome = .created ∧ w.running w.pwmPinCount = none ∧
          w'.running w.pwmPinCount = some ⟨args, D.creationDuty, false⟩) := by
  have frame := Stmt.exec_frame run
  have count : w'.pwmPinCount = w.pwmPinCount := by simpa [last] using frame.count
  refine ⟨count, fun k other => ?_, ?_⟩
  · rcases Nat.lt_or_gt_of_ne other with below | beyond
    · exact exec_running_below opening.toEstablished below run
    · rw [opening.running_beyond beyond, opening'.running_beyond (count ▸ beyond)]
  · cases before : w.running w.pwmPinCount with
    | some ch =>
        -- a thread that runs has nothing but the counting before it
        obtain ⟨t, slot, here, awake, -⟩ := World.running_eq_some before
        obtain ⟨-, -, spawned, -, woken⟩ := opening.newest_task here (Nat.lt_irrefl _)
        rcases code_woken opening.code spawned (woken awake) with same | same
        · exact absurd (List.cons.inj same).1 last
        · cases same
    | none =>
        cases after : w'.running w.pwmPinCount with
        | none => exact .inl rfl
        | some ch =>
            obtain ⟨t, slot, here, awake, held, rfl⟩ := World.running_eq_some after
            rw [← count] at here held
            obtain ⟨-, created, spawned, rfl, woken⟩ := opening'.newest_task here (Nat.lt_irrefl _)
            obtain ⟨-, -, -, wrote⟩ := code_written opening'.code spawned (woken awake)
            have duty : slot.dutyCycle = D.creationDuty := by
              simpa [World.tables, held] using keeps.2 wrote
            have low : ¬ t.pc.High := by
              intro high
              rw [count] at here
              cases old : w.tasks[w.pwmPinCount]? with
              | none => rcases frame.tasks.fresh _ t old here with pc | pc <;> simp [pc, TaskPc.High] at high
              | some t₀ =>
                  obtain ⟨t₁, there, -, pc⟩ := frame.tasks.kept _ t₀ old
                  obtain rfl := Option.some.inj (here.symm.trans there)
                  rcases pc with same | ⟨-, woke⟩
                  · rw [World.running_awake old (same ▸ awake)
                      (Vector.getElem?_eq_getElem opening.room)] at before
                    cases before
                  · simp [woke, TaskPc.High] at high
            exact .inr ⟨created, rfl, by simp [duty, low]⟩

/-! ## Requests -/

theorem Flight.client_of_started (same : w'.started = w.started) : f.client w' = f.client w := by
  simp only [client, same]

theorem Flight.client_other (other : f.req.isInit = false) (w : World) :
    f.client w = ⟨f.req, f.outcome, .waiting⟩ := by
  simp [client, other]

theorem Mirrors.put {next : Option Flight} (mirrors : Mirrors s p) (kept : p'.clients = p.clients)
    (channels : ∀ k, p'.channels[k]? = w.running k) (counted : p'.counted = w.pwmPinCount)
    (others : ∀ c' f', c' ≠ c → s.flight c' = some f' → f'.client w = f'.client s.world) :
    Mirrors (s.put w c next) (p'.put c (next.map (·.client w))) where
  channels := channels
  counted := counted
  clients := by
    intro c'
    by_cases mine : c' = c
    · subst mine
      rw [Concurrent.flight_put_self]
      exact Function.update_self _ _ _
    · rw [Concurrent.flight_put_other mine]
      refine (Function.update_of_ne mine _ _).trans ?_
      rw [kept, mirrors.clients c']
      cases there : s.flight c' with
      | none => rfl
      | some f' => exact congrArg some (others c' f' mine there).symm

/-- The panel answers a step with moves that show the same. -/
def Answered (D : Driver) (p : Panel) (shown : List PanelEvent) (s' : Concurrent) : Prop :=
  ∃ moves p', (Panel.machine D.creationDuty).Reaches p moves shown p' ∧ Mirrors s' p'

theorem Mirrors.returns (mirrors : Mirrors s p) (here : s.flight c = some f)
    (acts : p.act D.creationDuty (f.client s.world) = some (p', .served err))
    (kept : p'.clients = p.clients) (channels : ∀ k, p'.channels[k]? = w.running k)
    (counted : p'.counted = w.pwmPinCount)
    (others : ∀ c' f', c' ≠ c → s.flight c' = some f' → f'.client w = f'.client s.world) :
    Answered D p [.returned c ⟨f.req, f.outcome, err⟩] (s.put w c none) := by
  have there : p.clients c = some (f.client s.world) := by rw [mirrors.clients c, here]; rfl
  exact ⟨_, _, Panel.reaches_return there acts, mirrors.put kept channels counted others⟩

/-- Which channels run is a matter of the threads alone. -/
theorem started_eq (count : w'.pwmPinCount = w.pwmPinCount) (tasks : w'.tasks = w.tasks) :
    w'.started = w.started := by
  unfold World.started World.running
  rw [count, tasks]
  cases w.tasks[w.pwmPinCount]? with
  | none => rfl
  | some t =>
      by_cases inside : w.pwmPinCount < maxPwmNum
      · rw [Vector.getElem?_eq_getElem inside, Vector.getElem?_eq_getElem inside]
        by_cases asleep : t.pc = .asleep <;> simp [asleep]
      · rw [Vector.getElem?_eq_none (Nat.not_lt.mp inside), Vector.getElem?_eq_none (Nat.not_lt.mp inside)]

theorem Mirrors.pins (mirrors : Mirrors s p) (est : s.world.tables.Established) :
    (p.channels.take p.counted).map (·.args.pin) = s.world.channels.map (·.pin) := by
  apply List.ext_getElem?
  intro k
  rw [List.getElem?_map, List.getElem?_map, List.getElem?_take, mirrors.counted, mirrors.channels]
  by_cases below : k < s.world.pwmPinCount
  · obtain ⟨t, slot, here, awake, held, pin, -⟩ := est.task below
    rw [if_pos below, World.running_awake here awake held, getElem?_channels below, held]
    simp [pin]
  · rw [if_neg below, World.channels, List.getElem?_take, if_neg below]
    rfl

theorem Mirrors.find (mirrors : Mirrors s p) (est : s.world.tables.Established) (pin : Int32) :
    ((p.channels.take p.counted).findIdx? fun ch => ch.args.pin = pin) = s.world.find pin := by
  have pins := mirrors.pins est
  have index := congrArg (List.findIdx? fun q => decide (q = pin)) pins
  rw [List.findIdx?_map, List.findIdx?_map] at index
  exact index

theorem Mirrors.write {pin duty : Int32} {pos : Nat} (mirrors : Mirrors s p)
    (est : s.world.tables.Established) (found : s.world.find pin = some pos) (k : Nat) :
    (p.write pin duty).channels[k]? =
      (s.world.withDuty pos (find_inside found).2 duty).running k := by
  obtain ⟨below, inside⟩ := find_inside found
  have index := (mirrors.find est pin).trans found
  simp only [Panel.write, index]
  by_cases same : pos = k
  · subst same
    obtain ⟨t, slot, here, awake, held, -⟩ := est.task below
    have after := World.running_awake (w := s.world.withDuty pos inside duty) here awake
      (Vector.getElem?_set_self inside)
    rw [List.getElem?_modify_eq, mirrors.channels, World.running_awake here awake held, after]
    rfl
  · rw [List.getElem?_modify_ne _ _ same, mirrors.channels]
    simp only [World.running, World.withDuty, Vector.getElem?_set_ne inside same]

theorem Concurrent.Inv.not_started (inv : s.Inv D) (here : s.flight c = some f)
    (init : f.req.isInit = true) {why : Errno} (failed : f.outcome = .failed why) (k : Nat)
    (beyond : ¬ k < s.world.pwmPinCount) : s.world.running k = none := by
  obtain ⟨args, outcome, todo, rfl, -, opening, -⟩ := (inv.sound c f here).opening init
  cases there : s.world.tasks[k]? with
  | none => exact World.running_absent there
  | some t =>
      obtain ⟨-, rfl, -⟩ := opening.newest_task there beyond
      cases failed

theorem Mirrors.append {ch : Channel} (mirrors : Mirrors s p) (est : s.world.tables.Established)
    (unstarted : s.world.running s.world.pwmPinCount = none) (k : Nat) :
    (p.channels ++ [ch])[k]? = if k = s.world.pwmPinCount then some ch else s.world.running k := by
  have short : p.channels.length ≤ s.world.pwmPinCount :=
    List.getElem?_eq_none_iff.mp ((mirrors.channels _).trans unstarted)
  have long : s.world.pwmPinCount ≤ p.channels.length := by
    by_contra shorter
    obtain ⟨t, slot, here, awake, held, -⟩ := est.task (Nat.lt_of_not_le shorter)
    have last := mirrors.channels p.channels.length
    rw [List.getElem?_eq_none (Nat.le_refl _), World.running_awake here awake held] at last
    cases last
  have length : p.channels.length = s.world.pwmPinCount := Nat.le_antisymm short long
  by_cases newest : k = s.world.pwmPinCount
  · rw [if_pos newest, newest, ← length, List.getElem?_concat_length]
  · rw [if_neg newest, ← mirrors.channels]
    by_cases below : k < p.channels.length
    · exact List.getElem?_append_left below
    · rw [List.getElem?_eq_none (by simp; omega), List.getElem?_eq_none (Nat.not_lt.mp below)]

/-- Nothing of the other clients shows while a `PWM_INIT` is in flight. -/
theorem Concurrent.Inv.others_same (inv : s.Inv D) (here : s.flight c = some f)
    (init : f.req.isInit = true) (w : World) :
    ∀ c' f', c' ≠ c → s.flight c' = some f' → f'.client w = f'.client s.world := by
  intro c' f' other there
  have none_ := inv.alone_init here init c' f' other there
  rw [f'.client_other none_, f'.client_other none_]

/-- What opening a slot changes to be seen: nothing but its channel. -/
structure World.Opened (w w' : World) (newest : Option Channel) : Prop where
  gpio : w'.gpio = w.gpio
  count : w'.pwmPinCount = w.pwmPinCount
  others : ∀ k, k ≠ w.pwmPinCount → w'.running k = w.running k
  newest : w'.running w.pwmPinCount = newest

theorem World.Opened.still (opened : w.Opened w' (w.running w.pwmPinCount)) (k : Nat) :
    w'.running k = w.running k := by
  by_cases newest : k = w.pwmPinCount
  · rw [newest, opened.newest]
  · exact opened.others k newest

theorem World.Opened.started {newest : Option Channel} (opened : w.Opened w' newest) :
    w'.started = newest.isSome := by
  rw [World.started, opened.count, opened.newest]

theorem Concurrent.Inv.opened_breaks {why : Errno} (inv : s.Inv D)
    (here : s.flight c = some f) (init : f.req.isInit = true) (failed : f.outcome = .failed why)
    (run : stmt.exec args f.outcome s.world = .ok tr (w, some why.value)) (last : stmt ≠ .incr)
    (settled : w.tables.Settled) : s.world.Opened w none := by
  have frame := Stmt.exec_frame run
  have count : w.pwmPinCount = s.world.pwmPinCount := by simpa [last] using frame.count
  refine ⟨frame.gpio, count, fun k other => ?_, settled.running_beyond (Nat.le_of_eq count)⟩
  by_cases below : k < s.world.pwmPinCount
  · exact exec_running_below inv.established below run
  · rw [inv.not_started here init failed k below, settled.running_beyond (by omega)]

theorem Tables.Settled.started_newest
    (settled : Tables.Settled { w.tables with pwmPinCount := w.pwmPinCount + 1 }) :
    w.started = true := by
  obtain ⟨t, slot, task, awake, entry, -⟩ :=
    settled.toEstablished.task (w := { w with pwmPinCount := w.pwmPinCount + 1 })
      (Nat.lt_succ_self _)
  have shown : w.running w.pwmPinCount = some _ := World.running_awake task awake entry
  rw [World.started, shown]
  rfl

theorem Mirrors.silent {g : Flight} (mirrors : Mirrors s p) (here : s.flight c = some f)
    (same : g.client w = f.client s.world) (channels : ∀ k, w.running k = s.world.running k)
    (count : w.pwmPinCount = s.world.pwmPinCount)
    (others : ∀ c' f', c' ≠ c → s.flight c' = some f' → f'.client w = f'.client s.world) :
    Answered D p [] (s.put w c (some g)) := by
  have there : p.clients c = some (f.client s.world) := by rw [mirrors.clients c, here]; rfl
  refine ⟨[], p, Machine.reaches_nil.mpr ⟨rfl, rfl⟩, ?_⟩
  rw [← Panel.put_self there, ← same]
  exact mirrors.put rfl (fun k => (mirrors.channels k).trans (channels k).symm)
    (mirrors.counted.trans count.symm) others

theorem Mirrors.passes {gpio : Gpio} (mirrors : Mirrors s p) (here : s.flight c = some f)
    (other : f.req.isInit = false) (acts : ∀ outcome,
      p.act D.creationDuty ⟨f.req, outcome, .waiting⟩ = some (p, .served err)) :
    Answered D p [.returned c ⟨f.req, f.outcome, err⟩]
      (s.put { s.world with gpio := gpio } c none) := by
  refine mirrors.returns here ?_ rfl mirrors.channels mirrors.counted
    (fun _ f' _ _ => f'.client_of_started rfl)
  rw [f.client_other other]
  exact acts f.outcome

theorem Mirrors.absent {pin duty : Int32} (mirrors : Mirrors s p) (est : s.world.tables.Established)
    (here : s.flight c = some f) (same : f.req = .pwmSet pin duty) (unknown : s.world.find pin = none) :
    Answered D p [.returned c ⟨f.req, f.outcome, 0⟩] (s.put s.world c none) := by
  have index := (mirrors.find est pin).trans unknown
  refine mirrors.passes here (by rw [same]; rfl) fun outcome => ?_
  rw [same]
  simp [Panel.act, Panel.write, index]

theorem Mirrors.update {pin duty : Int32} {pos : Nat} (mirrors : Mirrors s p)
    (est : s.world.tables.Established) (here : s.flight c = some f)
    (same : f.req = .pwmSet pin duty) (found : s.world.find pin = some pos) :
    Answered D p [.returned c ⟨f.req, f.outcome, 0⟩]
      (s.put (s.world.withDuty pos (find_inside found).2 duty) c none) := by
  obtain ⟨kept, counted⟩ := p.write_kept pin duty
  refine mirrors.returns here ?_ kept (mirrors.write est found) (counted.trans mirrors.counted)
    (fun _ f' _ _ => f'.client_of_started (started_eq rfl rfl))
  rw [f.client_other (by rw [same]; rfl), same]
  rfl

theorem Mirrors.breaks {why : Errno} (mirrors : Mirrors s p) (inv : s.Inv D)
    (here : s.flight c = some f) (same : f.req = .pwmInit args) (failed : f.outcome = .failed why)
    (opened : s.world.Opened w none) :
    Answered D p [.returned c ⟨f.req, f.outcome, why.value⟩] (s.put w c none) := by
  have init : f.req.isInit = true := by rw [same]; rfl
  have none_ := inv.not_started here init failed _ (Nat.lt_irrefl _)
  have unstarted : s.world.started = false := by
    rw [World.started, none_]
    rfl
  refine mirrors.returns here ?_ rfl (fun k => ?_) (mirrors.counted.trans opened.count.symm)
    (inv.others_same here init w)
  · simp [Flight.client, unstarted, same, failed, Panel.act]
  · rw [← none_] at opened
    rw [mirrors.channels, opened.still k]

theorem Mirrors.counts (mirrors : Mirrors s p) (inv : s.Inv D) (here : s.flight c = some f)
    (init : f.req.isInit = true)
    (settled : Tables.Settled { s.world.tables with pwmPinCount := s.world.pwmPinCount + 1 }) :
    Answered D p [.returned c ⟨f.req, f.outcome, 0⟩]
      (s.put { s.world with pwmPinCount := s.world.pwmPinCount + 1 } c none) := by
  have acts : p.act D.creationDuty (f.client s.world) =
      some ({ p with counted := p.counted + 1 }, .served 0) := by
    simp [Flight.client, settled.started_newest, init, Panel.act]
  exact mirrors.returns here acts rfl mirrors.channels (congrArg (· + 1) mirrors.counted)
    (inv.others_same here init _)

theorem Mirrors.opens {g : Flight} (mirrors : Mirrors s p) (inv : s.Inv D)
    (here : s.flight c = some f) (same : f.req = .pwmInit args) (created : f.outcome = .created)
    (next : g.req = f.req ∧ g.outcome = f.outcome)
    (before : s.world.running s.world.pwmPinCount = none)
    (opened : s.world.Opened w (some ⟨args, D.creationDuty, false⟩)) :
    Answered D p [] (s.put w c (some g)) := by
  have there : p.clients c = some (f.client s.world) := by rw [mirrors.clients c, here]; rfl
  have unstarted : s.world.started = false := by rw [World.started, before]; rfl
  have waits : f.client s.world = ⟨.pwmInit args, .created, .waiting⟩ := by
    simp [Flight.client, unstarted, same, created]
  have starts : g.client w = ⟨.pwmInit args, .created, .started⟩ := by
    simp [Flight.client, opened.started, next, same, created, Request.isInit]
  refine ⟨_, _, Panel.reaches_act there (by rw [waits]; rfl), ?_⟩
  rw [waits, ← starts]
  refine mirrors.put rfl (fun k => ?_) (mirrors.counted.trans opened.count.symm)
    (inv.others_same here (by rw [same]; rfl) w)
  rw [mirrors.append inv.established before]
  by_cases newest : k = s.world.pwmPinCount
  · rw [if_pos newest, newest, opened.newest]
  · rw [if_neg newest, opened.others k newest]

/-- A statement of a client. -/
theorem Mirrors.moves {next : ClientPc} (mirrors : Mirrors s p) (inv : s.Inv D)
    (here : s.flight c = some f) (moves : f.Moves D s.world w next) :
    Answered D p ((f.answered c next).filterMap fun e => visible (.statement c, e))
      (s.put w c (f.after next)) := by
  have est := inv.established
  cases moves with
  | load | pass | found =>
      exact mirrors.silent here rfl (fun _ => rfl) rfl (fun _ _ _ _ => rfl)
  | store same | ignore same | drive same =>
      exact mirrors.passes here (by rw [same]; rfl) fun _ => by rw [same]; rfl
  | absent same unknown => exact mirrors.absent est here same unknown
  | update found same => exact mirrors.update est here same found
  | breaks same failed room run last settled =>
      have init : f.req.isInit = true := by rw [same]; rfl
      exact mirrors.breaks inv here same failed (inv.opened_breaks here init failed run last settled)
  | counts same created room held settled =>
      exact mirrors.counts inv here (by rw [same]; rfl) settled
  | opens same opening run last more opening' keeps =>
      have frame := Stmt.exec_frame run
      obtain ⟨count, others, unchanged | ⟨created, before, after⟩⟩ :=
        opens_running opening run last opening' keeps
      · have opened : s.world.Opened w (s.world.running s.world.pwmPinCount) :=
          ⟨frame.gpio, count, others, unchanged⟩
        exact mirrors.silent here (Flight.client_of_started opened.started) opened.still count
          (inv.others_same here (by rw [same]; rfl) w)
      · exact mirrors.opens inv here same created ⟨rfl, rfl⟩ before ⟨frame.gpio, count, others, after⟩

theorem Mirrors.enter {req : Request} (mirrors : Mirrors s p) (inv : s.Inv D)
    (idle : s.flight c = none) (one : OneInit s (.enter c req outcome)) :
    Answered D p [.entered c req]
      (s.put s.world c (some ⟨req, outcome, .before (.start D outcome req)⟩)) := by
  have there : p.clients c = none := by rw [mirrors.clients c, idle]; rfl
  have waits : (⟨req, outcome, .before (.start D outcome req)⟩ : Flight).client s.world =
      ⟨req, outcome, .waiting⟩ := by
    cases req with
    | pwmInit args =>
        have unstarted : s.world.started = false := by
          rw [World.started, (inv.settled one.2).running_beyond (Nat.le_refl _)]
          rfl
        simp [Flight.client, unstarted]
    | pinSet | gpioSet | pwmSet => rfl
  refine ⟨[.enter c req outcome], p.put c (some ⟨req, outcome, .waiting⟩),
    Machine.reaches_single.mpr (if_pos there), ?_⟩
  rw [← waits]
  exact mirrors.put rfl mirrors.channels mirrors.counted (fun _ _ _ _ => rfl)

/-! ## Tasks -/

theorem Driver.Move.shows {slot : Dutycycle} {pos : Nat} {stop swap : Bool} {pc pc' : TaskPc}
    {raw : List Event} {level : Option Bool} (k : Nat)
    (move : D.Move slot pos stop swap pc pc' raw level) :
    let shown := (raw.map Occurrence.event).filterMap fun e => visible (.task k swap, e)
    (∃ l, level = some l ∧ decide pc.High = !l ∧ shown = [.driven k slot.pin l]) ∨
      level = none ∧ (shown = [] ∨ shown = [.duty k slot.dutyCycle]) := by
  cases move with
  | set => exact .inl ⟨true, rfl, rfl, by simp [visible, driveStore]⟩
  | clr => exact .inl ⟨false, rfl, rfl, by simp [visible, driveStore]⟩
  | eval => exact .inr ⟨rfl, .inr rfl⟩
  | entry | halt | goOn | sleep => exact .inr ⟨rfl, .inl rfl⟩

theorem running_moved {slot : Dutycycle} {pin : Int32} {level : Option Bool} {pc : TaskPc}
    (here : w.tasks[k]? = some t) (held : w.dutyArray[k]? = some slot) (stays : pc ≠ .asleep)
    (j : Nat) : ((w.driven pin level).jump k pc).running j =
      if k = j then some ⟨t.creator, slot.dutyCycle, pc.High⟩ else w.running j := by
  have slots : ((w.driven pin level).jump k pc).dutyArray = w.dutyArray := by cases level <;> rfl
  by_cases mine : k = j
  · subst mine
    rw [if_pos rfl]
    exact World.running_awake (tasks_moved here) stays (slots ▸ held)
  · rw [if_neg mine, World.running, World.running, tasks_unmoved mine, slots]

theorem Mirrors.world (mirrors : Mirrors s p) (kept : p'.clients = p.clients)
    (channels : ∀ k, p'.channels[k]? = w.running k) (counted : p'.counted = w.pwmPinCount)
    (started : w.started = s.world.started) : Mirrors { s with world := w } p' where
  channels := channels
  counted := counted
  clients := by
    intro c
    rw [kept, mirrors.clients c]
    congr 1
    funext f
    exact (f.client_of_started started).symm

theorem Mirrors.task {swap : Bool} {raw : List Event} (mirrors : Mirrors s p) (inv : s.Inv D)
    (stepped : D.pwmTask s.world k swap = some (.ok raw w)) :
    Answered D p ((raw.map Occurrence.event).filterMap fun e => visible (.task k swap, e))
      { s with world := w } := by
  obtain ⟨t, here, awake, -⟩ := Driver.pwmTask_some stepped
  have placed := inv.placed here
  obtain rfl : t.pos = k := placed.pos
  obtain ⟨slot, held, pin, -⟩ := placed.serves (bne_iff_ne.mpr awake)
  obtain ⟨inside, entry⟩ := Vector.getElem?_eq_some_iff.mp held
  change s.world.dutyArray[t.pos] = slot at entry
  obtain ⟨pc, _, level, move, same⟩ := Driver.pwmTask_move here inside stepped
  rw [entry] at move same
  cases same
  have before : p.channels[t.pos]? = some ⟨t.creator, slot.dutyCycle, t.pc.High⟩ :=
    (mirrors.channels _).trans (World.running_awake here awake held)
  have after : ∀ j, ((s.world.driven slot.pin level).jump t.pos pc).running j =
      if t.pos = j then some ⟨t.creator, slot.dutyCycle, pc.High⟩ else s.world.running j :=
    running_moved here held move.awake
  have counted : p.counted = ((s.world.driven slot.pin level).jump t.pos pc).pwmPinCount := by
    rw [mirrors.counted]
    cases level <;> rfl
  have started : ((s.world.driven slot.pin level).jump t.pos pc).started = s.world.started := by
    rw [World.started, ← counted, mirrors.counted, after, World.started]
    split
    · rename_i mine
      rw [← mine, ← mirrors.channels, before]
      rfl
    · rfl
  have half := move.high
  rcases move.shows t.pos with ⟨l, rfl, was, shown⟩ | ⟨rfl, silent⟩
  · rw [shown]
    have pinned : slot.pin = t.creator.pin := pin
    have toggled : (Panel.machine D.creationDuty).step p (.toggle t.pos) =
        some (.ok [.driven t.pos slot.pin l]
          { p with channels := p.channels.modify t.pos fun ch => { ch with high := !ch.high } }) := by
      simp [Panel.machine, Panel.step, before, was, pinned]
    refine ⟨_, _, Machine.reaches_single.mpr toggled, mirrors.world rfl (fun j => ?_) counted started⟩
    rw [after]
    by_cases mine : t.pos = j
    · subst mine
      have now : decide pc.High = l := Bool.eq_iff_iff.mpr (by simpa using half)
      simp [before, was, now]
    · rw [if_neg mine, List.getElem?_modify_ne _ _ mine, mirrors.channels]
  · have quiet : ∀ j, p.channels[j]? = ((s.world.driven slot.pin none).jump t.pos pc).running j := by
      intro j
      rw [after, mirrors.channels]
      split
      · rename_i mine
        rw [← mine, ← mirrors.channels, before]
        simp [show pc.High ↔ t.pc.High from half]
      · rfl
    have still := mirrors.world rfl quiet counted started
    rcases silent with shown | shown
    · rw [shown]
      exact ⟨[], p, Machine.reaches_nil.mpr ⟨rfl, rfl⟩, still⟩
    · rw [shown]
      refine ⟨[.read t.pos], p, Machine.reaches_single.mpr ?_, still⟩
      simp [Panel.machine, Panel.step, before]

/-! ## Whole runs -/

/-- Every step of the driver is answered. -/
theorem Mirrors.step {turn : Turn} {ltr : List (Turn × Occurrence)} (mirrors : Mirrors s p)
    (inv : s.Inv D) (one : OneInit s turn)
    (taken : D.concurrent.labelled.step s turn = some (.ok ltr s')) :
    Answered D p (ltr.filterMap visible) s' := by
  obtain ⟨tr, stepped, rfl⟩ := Machine.labelled_step.mp taken
  rw [List.filterMap_map]
  generalize shape : (Traced.ok tr s' : Traced Occurrence Fault Concurrent) = x at stepped
  cases Concurrent.step_taken stepped with
  | enter idle =>
      cases shape
      exact mirrors.enter inv idle one
  | @statement c f here =>
      obtain ⟨raw, w, next, run, -, moves⟩ := (inv.sound c f here).moves inv.established.bound
      rw [Concurrent.advance_ok run] at shape
      cases shape
      rw [List.filterMap_append, List.filterMap_map]
      have hidden : raw.filterMap ((visible ∘ fun e => (Turn.statement c, e)) ∘ .event) = [] :=
        List.filterMap_eq_nil_iff.mpr fun e _ => by cases e <;> rfl
      rw [hidden]
      exact mirrors.moves inv here moves
  | @task k swap y moved =>
      obtain ⟨_, w, _, ran, done, rfl⟩ := Traced.bind_eq_ok.mp shape.symm
      obtain ⟨raw, rfl, rfl⟩ := Traced.tag_eq_ok.mp ran
      cases done
      rw [List.append_nil]
      exact mirrors.task inv moved

theorem mirrored {gpio : Gpio} {turns : List Turn} {ltr : List (Turn × Occurrence)}
    (reach : D.concurrent.labelled.Reaches (.load gpio) turns ltr s)
    (one : D.concurrent.Guarded OneInit (.load gpio) turns) :
    s.Inv D ∧ Answered D .empty (ltr.filterMap visible) s := by
  have start : (Concurrent.load gpio).Inv D ∧ Mirrors (.load gpio) .empty :=
    ⟨Concurrent.load_inv D gpio, fun _ => rfl, rfl, fun _ => rfl⟩
  have play : ∀ {s turn ltr s' p}, s.Inv D ∧ Mirrors s p → OneInit s turn →
      D.concurrent.labelled.step s turn = some (.ok ltr s') →
      ∃ p', (Panel.machine D.creationDuty).Plays (fun _ _ => True) some p (ltr.filterMap visible) p' ∧
        s'.Inv D ∧ Mirrors s' p' := by
    rintro s turn ltr s' p ⟨inv, mirrors⟩ one taken
    obtain ⟨moves, p', run, mirrors'⟩ := mirrors.step inv one taken
    obtain ⟨tr, stepped, -⟩ := Machine.labelled_step.mp taken
    exact ⟨p', ⟨moves, _, run, .of_forall fun _ _ _ => trivial, List.filterMap_some⟩,
      inv.next one (inv.taken_ok stepped), mirrors'⟩
  obtain ⟨p, ⟨moves, shown, run, -, same⟩, inv, mirrors⟩ :=
    reach.played (Machine.guarded_labelled.mpr one) start play
  rw [List.filterMap_some] at same
  exact ⟨inv, moves, p, same ▸ run, mirrors⟩

/-- Every run of a driver with many clients, at most one of which has a `PWM_INIT` in flight,
    is a run of the panel: requests enter, take effect and return there as they do in the
    driver, with the same answers, and every task drives its pin to alternate levels and reads
    the duty cycle its channel has at that moment. -/
theorem driver_refines_panel (D : Driver) (gpio : Gpio) (turns : List Turn)
    (tr : List (Turn × Occurrence)) (s : Concurrent)
    (reach : D.concurrent.labelled.Reaches (.load gpio) turns tr s)
    (one : D.concurrent.Guarded OneInit (.load gpio) turns) :
    ∃ moves p, (Panel.machine D.creationDuty).Reaches .empty moves (tr.filterMap visible) p ∧
      (∀ k, p.channels[k]? = s.world.running k) ∧ p.counted = s.world.pwmPinCount ∧
      ∀ c, p.clients c = (s.flight c).map (·.client s.world) := by
  obtain ⟨-, moves, p, run, mirrors⟩ := mirrored reach one
  exact ⟨moves, p, run, mirrors.channels, mirrors.counted, mirrors.clients⟩

/-- The task of a channel drives its pin before the channel is counted, and a `PWM_SET` that is
    served meanwhile does not find it. -/
def earlyTask : List Turn :=
  .enter 0 (.pwmInit ⟨16, 0, 100⟩) .created ::
    (List.replicate 8 (.statement 0) ++ [.task 0 false, .task 0 false,
      .enter 1 (.pwmSet 16 40) .created, .statement 1, .statement 0, .task 0 false])

theorem driver_refines_panel_early :
    ∃ moves p, (Panel.machine 0).Reaches .empty moves
        [.entered 0 (.pwmInit ⟨16, 0, 100⟩), .driven 0 16 true, .entered 1 (.pwmSet 16 40),
          .returned 1 ⟨.pwmSet 16 40, .created, 0⟩, .returned 0 ⟨.pwmInit ⟨16, 0, 100⟩, .created, 0⟩,
          .duty 0 0] p ∧ p.counted = 1 := by
  obtain ⟨tr, s, reach, test⟩ := Machine.exists_reaches Driver.softPWM.concurrent.labelled
    (.load .reset) earlyTask (fun tr s => decide (tr.filterMap visible =
      [.entered 0 (.pwmInit ⟨16, 0, 100⟩), .driven 0 16 true, .entered 1 (.pwmSet 16 40),
        .returned 1 ⟨.pwmSet 16 40, .created, 0⟩, .returned 0 ⟨.pwmInit ⟨16, 0, 100⟩, .created, 0⟩,
        .duty 0 0] ∧ s.world.pwmPinCount = 1)) (by decide)
  obtain ⟨shown, count⟩ := of_decide_eq_true test
  obtain ⟨moves, p, run, -, counted, -⟩ := driver_refines_panel .softPWM .reset earlyTask tr s reach
    (oneInit_first (by simp))
  rw [shown] at run
  exact ⟨moves, p, run, counted.trans count⟩

/-- In every such run each task drives the pin of the request that created it, and no other, to
    high first and then to the two levels in turn; how often it has done so tells in which half
    of its period it is. -/
theorem tasks_alternate (D : Driver) (gpio : Gpio) (turns : List Turn)
    (tr : List (Turn × Occurrence)) (s : Concurrent)
    (reach : D.concurrent.labelled.Reaches (.load gpio) turns tr s)
    (one : D.concurrent.Guarded OneInit (.load gpio) turns) (k : Nat) (t : Task)
    (here : s.world.tasks[k]? = some t) :
    ∃ n, drives k (tr.filterMap visible) = alternating t.creator.pin n ∧
      (t.pc.High ↔ n % 2 = 1) := by
  obtain ⟨inv, moves, p, run, mirrors⟩ := mirrored reach one
  have alternates : Alternates (tr.filterMap visible) p :=
    run.induction (Q := fun _ events p => Alternates events p)
      ⟨fun _ _ => rfl, fun k ch absent => by simp [Panel.empty] at absent⟩
      (fun _ held taken => held.step taken)
  by_cases asleep : t.pc = .asleep
  · refine ⟨0, alternates.1 k ((mirrors.channels k).trans (World.running_asleep here asleep)), ?_⟩
    simp [asleep, TaskPc.High]
  · obtain ⟨slot, held, -⟩ := (inv.placed here).serves (bne_iff_ne.mpr asleep)
    have shown := (mirrors.channels k).trans (World.running_awake here asleep held)
    obtain ⟨n, driven, high⟩ := alternates.2 k _ shown
    exact ⟨n, driven, by simpa using Bool.eq_iff_iff.mp high⟩

/-- One channel, on, off and on again. -/
theorem tasks_alternate_thrice :
    ∃ tr s, Driver.softPWM.concurrent.labelled.Reaches (.load .reset)
        (.enter 0 (.pwmInit ⟨16, 0, 100⟩) .created ::
          (List.replicate 9 (.statement 0) ++ List.replicate 11 (.task 0 false))) tr s ∧
      ∃ n, drives 0 (tr.filterMap visible) = alternating 16 n ∧ n % 2 = 1 := by
  obtain ⟨tr, s, reach, test⟩ := Machine.exists_reaches Driver.softPWM.concurrent.labelled
    (.load .reset) (.enter 0 (.pwmInit ⟨16, 0, 100⟩) .created ::
      (List.replicate 9 (.statement 0) ++ List.replicate 11 (.task 0 false)))
    (fun _ s => s.world.tasks == [⟨0, "pwmtask_1", ⟨16, 0, 100⟩, false, .eval .high []⟩]) (by decide)
  have tasks : s.world.tasks = [⟨0, "pwmtask_1", ⟨16, 0, 100⟩, false, .eval .high []⟩] := by
    simpa using test
  obtain ⟨n, driven, high⟩ := tasks_alternate .softPWM .reset _ tr s reach (oneInit_first (by simp)) 0
    ⟨0, "pwmtask_1", ⟨16, 0, 100⟩, false, .eval .high []⟩ (by rw [tasks]; rfl)
  exact ⟨tr, s, reach, n, driven, high.mp trivial⟩

end KsoftPWM
