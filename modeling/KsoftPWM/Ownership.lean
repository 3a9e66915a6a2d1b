import KsoftPWM.Model.System
import KsoftPWM.Tables

/-! # The invariant of the running system

Whatever the interleaving of request statements, task steps and exit steps, the
tables are settled between requests and consistently part-way through one.  The
steps of the tasks and of module exit leave the view `World.tables` alone, so they
keep the invariant; the statements keep it by `Tables.Opening.advances`.
-/

namespace KsoftPWM

/-- What holds of the tables while a request is about to run its next statement. -/
def Call.Inv (D : Driver) (T : Tables) : Call → Prop
  | .init args outcome todo => todo ≠ [] ∧ T.Opening D args outcome todo
  | .update pos _ => T.Settled ∧ pos < T.pwmPinCount
  | _ => T.Settled

def Sys.Inv (D : Driver) (s : Sys) : Prop :=
  match s.call with
  | none => s.world.tables.Settled
  | some call => call.Inv D s.world.tables

/-- `PWM_INIT` is only issued while a slot is free. -/
def Admits (s : Sys) : Label → Prop
  | .request (.pwmInit _) _ => s.world.pwmPinCount < maxPwmNum
  | _ => True

instance : DecidableRel Admits
  | s, .request (.pwmInit _) _ => inferInstanceAs (Decidable (s.world.pwmPinCount < maxPwmNum))
  | _, .request (.pinSet ..) _ | _, .request (.gpioSet ..) _ | _, .request (.pwmSet ..) _ => .isTrue trivial
  | _, .statement | _, .task .. | _, .exit => .isTrue trivial

def Label.isInit : Label → Bool
  | .request req _ => req.isInit
  | _ => false

def inits (labels : List Label) : Nat := labels.countP Label.isInit

variable {D : Driver} {w : World} {T : Tables} {s : Sys} {k : Nat} {t : Task}

theorem Sys.load_inv (D : Driver) (gpio : Gpio) : (Sys.load gpio).Inv D :=
  Tables.load_settled gpio

/-! ## Tasks -/

theorem tables_jump (here : w.tasks[k]? = some t) (awake : t.pc ≠ .asleep) {pc : TaskPc}
    (stays : pc ≠ .asleep) : (w.jump k pc).tables = w.tables := by
  simp only [World.tables, World.jump, Tables.mk.injEq, true_and]
  apply List.ext_getElem?
  intro i
  simp only [List.getElem?_map, List.getElem?_modify]
  by_cases same : k = i
  · subst same
    simp [here, Task.owner, bne_iff_ne.mpr awake, bne_iff_ne.mpr stays]
  · simp [same]

theorem tables_driven (w : World) (pin : Int32) (level : Option Bool) :
    (w.driven pin level).tables = w.tables := by
  cases level <;> rfl

theorem Driver.Move.awake {slot : Dutycycle} {pos : Nat} {stop swap : Bool} {pc pc' : TaskPc}
    {tr : List Event} {level : Option Bool}
    (move : D.Move slot pos stop swap pc pc' tr level) : pc' ≠ .asleep := by
  cases move with
  | sleep => rename_i phase _ _; cases phase <;> simp [Phase.next]
  | entry | halt | goOn | set | clr | eval => simp

theorem Driver.Move.inBounds {slot : Dutycycle} {pos : Nat} {stop swap : Bool} {pc pc' : TaskPc}
    {tr : List Event} {level : Option Bool} (inside : pos < maxPwmNum)
    (move : D.Move slot pos stop swap pc pc' tr level) : ∀ e ∈ tr, e.InBounds := by
  cases move <;> simp [Event.InBounds, inside]

theorem pwmTask_keeps {swap : Bool} {x : Kernel World} (here : w.tasks[k]? = some t)
    (inside : t.pos < maxPwmNum) (taken : D.pwmTask w k swap = some x) :
    ∃ tr w', x = .ok tr w' ∧ (∀ e ∈ tr, e.InBounds) ∧ w'.tables = w.tables := by
  obtain ⟨pc, tr, level, move, rfl⟩ := Driver.pwmTask_move here inside taken
  obtain ⟨t', here', awake, -⟩ := Driver.pwmTask_some taken
  obtain rfl : t = t' := by simpa [here] using here'
  refine ⟨tr, _, rfl, move.inBounds inside, ?_⟩
  rw [tables_jump (t := t) (by rw [tasks_driven]; exact here) awake move.awake, tables_driven]

/-- Thread `k` was given position `k`. -/
theorem Tables.Established.owner_below (est : T.Established) {o : Owner}
    (below : k < T.pwmPinCount) (here : T.owners[k]? = some o) :
    o.pos = k ∧ o.awake = true ∧ ∃ slot, T.dutyArray[k]? = some slot ∧ slot.Serves o.creator := by
  obtain ⟨slot, creator, held, mine, serves, -⟩ := est.owned k below
  obtain rfl : o = ⟨k, creator, true⟩ := by simpa [here] using mine
  exact ⟨rfl, rfl, slot, held, serves⟩

/-- What is known of a thread: its position is its number, at most
    `pwm_pin_count` and in the tables, and once awake its slot serves the request
    that created it. -/
structure Tables.Placed (T : Tables) (k : Nat) (o : Owner) : Prop where
  pos : o.pos = k
  atMost : k ≤ T.pwmPinCount
  inside : k < maxPwmNum
  serves : o.awake = true → ∃ slot, T.dutyArray[k]? = some slot ∧ slot.Serves o.creator

theorem Tables.Settled.placed (settled : T.Settled) {o : Owner} (here : T.owners[k]? = some o) :
    T.Placed k o := by
  have below : k < T.pwmPinCount := settled.count ▸ (List.getElem?_eq_some_iff.mp here).1
  obtain ⟨pos, -, serves⟩ := settled.owner_below below here
  exact ⟨pos, Nat.le_of_lt below, Nat.lt_of_lt_of_le below settled.bound, fun _ => serves⟩

theorem Tables.Opening.newest {args : InitArgs} {outcome : CreateOutcome} {todo : List Stmt}
    (opening : T.Opening D args outcome todo) {o : Owner} (here : T.owners[k]? = some o)
    (beyond : ¬ k < T.pwmPinCount) :
    k = T.pwmPinCount ∧ outcome = .created ∧ D.creates ∉ todo ∧
      o = ⟨T.pwmPinCount, args, !todo.contains .wakeUp⟩ := by
  have length : k < T.owners.length := (List.getElem?_eq_some_iff.mp here).1
  have spawned := opening.spawned
  by_cases created : D.creates ∈ todo
  · simp only [Spawned, created, ↓reduceIte] at spawned
    omega
  · cases outcome with
    | failed why =>
        simp only [Spawned, created, ↓reduceIte] at spawned
        omega
    | created =>
        simp only [Spawned, created, ↓reduceIte] at spawned
        obtain rfl : k = T.pwmPinCount := by omega
        exact ⟨rfl, rfl, created, by simpa [here] using spawned.2.1⟩

theorem Tables.Opening.placed {args : InitArgs} {outcome : CreateOutcome} {todo : List Stmt}
    (opening : T.Opening D args outcome todo) {o : Owner} (here : T.owners[k]? = some o) :
    T.Placed k o := by
  have room := opening.room
  by_cases below : k < T.pwmPinCount
  · obtain ⟨pos, -, serves⟩ := opening.owner_below below here
    exact ⟨pos, Nat.le_of_lt below, Nat.lt_trans below room, fun _ => serves⟩
  · obtain ⟨rfl, rfl, created, rfl⟩ := opening.newest here below
    refine ⟨rfl, Nat.le_refl _, room, fun awake => ?_⟩
    have woken : .wakeUp ∉ todo := by simpa using awake
    obtain ⟨pin, min, max, -⟩ := code_written opening.code created woken
    have held : T.dutyArray[T.pwmPinCount]? = some T.dutyArray[T.pwmPinCount] :=
      Vector.getElem?_eq_getElem room
    exact ⟨_, held, opening.pin _ held pin, opening.min _ held min, opening.max _ held max⟩

theorem Call.Inv.placed {call : Call} (inv : call.Inv D T) {o : Owner}
    (here : T.owners[k]? = some o) : T.Placed k o := by
  cases call with
  | init args outcome todo => exact inv.2.placed here
  | update pos duty => exact inv.1.placed here
  | pinSet | gpioSet | scan | returned => exact Tables.Settled.placed inv here

theorem Sys.Inv.placed (inv : s.Inv D) (here : s.world.tasks[k]? = some t) :
    s.world.tables.Placed k t.owner := by
  have owner : s.world.tables.owners[k]? = some t.owner := by
    simp [World.tables, here]
  unfold Sys.Inv at inv
  cases call : s.call with
  | none =>
      rw [call] at inv
      exact Tables.Settled.placed inv owner
  | some c =>
      rw [call] at inv
      exact Call.Inv.placed inv owner

theorem Sys.Inv.pos_inside (inv : s.Inv D) (here : s.world.tasks[k]? = some t) :
    t.pos < maxPwmNum := by
  have placed := inv.placed here
  have pos : t.pos = k := placed.pos
  exact pos ▸ placed.inside

/-- A step of a task, seen from the system: the thread is awake and moves on in the slot
    of its own number, which serves the request that created it. -/
structure Sys.TaskStep (D : Driver) (s : Sys) (k : Nat) (swap : Bool) (tr : List (Agent × Event))
    (s' : Sys) (t : Task) (slot : Dutycycle) (pc : TaskPc) (raw : List Event)
    (level : Option Bool) : Prop where
  here : s.world.tasks[k]? = some t
  awake : t.pc ≠ .asleep
  going : t.pc ≠ .returned
  pos : t.pos = k
  held : s.world.dutyArray[k]? = some slot
  serves : slot.Serves t.creator
  move : D.Move slot k t.stop swap t.pc pc raw level
  trace : tr = raw.map (Agent.task k, ·)
  after : s' = { s with world := (s.world.driven slot.pin level).jump k pc }

theorem Sys.Inv.taskStep {swap : Bool} {x : Kernel World} {tr : List (Agent × Event)} {s' : Sys}
    (inv : s.Inv D) (stepped : D.pwmTask s.world k swap = some x)
    (run : ((x.tag (Agent.task k, ·)) >>= fun w => pure { s with world := w }) =
      (.ok tr s' : Traced (Agent × Event) Fault Sys)) :
    ∃ t slot pc raw level, s.TaskStep D k swap tr s' t slot pc raw level := by
  obtain ⟨t, here, awake, going⟩ := Driver.pwmTask_some stepped
  have placed := inv.placed here
  have inside := inv.pos_inside here
  obtain rfl : t.pos = k := placed.pos
  obtain ⟨slot, held, serves⟩ := placed.serves (bne_iff_ne.mpr awake)
  obtain ⟨_, rfl⟩ := Vector.getElem?_eq_some_iff.mp held
  obtain ⟨pc, raw, level, move, rfl⟩ := Driver.pwmTask_move here inside stepped
  simp only [Traced.tag_ok, Traced.ok_bind, Traced.pure_eq, Traced.after_ok, List.append_nil,
    Traced.ok.injEq] at run
  obtain ⟨rfl, rfl⟩ := run
  exact ⟨t, _, pc, raw, level, here, awake, going, rfl, held, serves, move, rfl, rfl⟩

theorem Sys.Inv.settled (inv : s.Inv D) (idle : s.call = none) : s.world.tables.Settled := by
  simpa only [Sys.Inv, idle] using inv

/-! ## Requests -/

theorem pinSet_keeps (pin type : Int32) (w : World) :
    ∃ tr gpio, pinSet pin type w = .ok tr { w with gpio := gpio } ∧ ∀ e ∈ tr, e.InBounds := by
  unfold pinSet
  split
  · exact ⟨[], w.gpio, rfl, by simp⟩
  · split <;> exact ⟨_, _, rfl, by simp [Event.InBounds]⟩

theorem gpioStatus_keeps (pin status : Int32) (w : World) :
    ∃ tr gpio, gpioStatus pin status w = .ok tr { w with gpio := gpio } ∧
      ∀ e ∈ tr, e.InBounds := by
  unfold gpioStatus
  split
  · exact ⟨[], w.gpio, rfl, by simp⟩
  · split <;> exact ⟨_, _, rfl, by simp [Event.InBounds]⟩

theorem Tables.Established.setDuty (est : T.Established) {pos : Nat} (inside : pos < maxPwmNum)
    (duty : Int32) :
    Established { T with
      dutyArray := T.dutyArray.set pos ({ T.dutyArray[pos] with dutyCycle := duty }) } where
  bound := est.bound
  owned := by
    intro k below
    obtain ⟨slot, creator, held, mine, serves, recorded⟩ := est.owned k below
    by_cases same : pos = k
    · subst same
      have old : slot = T.dutyArray[pos] := by
        simpa [Vector.getElem?_eq_getElem inside] using held.symm
      subst old
      exact ⟨_, creator, Vector.getElem?_set_self inside, mine, serves, recorded⟩
    · exact ⟨slot, creator, (Vector.getElem?_set_ne inside same).trans held, mine, serves,
        recorded⟩

theorem Tables.Settled.setDuty (settled : T.Settled) {pos : Nat} (inside : pos < maxPwmNum)
    (duty : Int32) :
    Settled { T with
      dutyArray := T.dutyArray.set pos ({ T.dutyArray[pos] with dutyCycle := duty }) } where
  toEstablished := settled.toEstablished.setDuty inside duty
  count := settled.count
  free := settled.free

/-- A request whose invariant holds runs its next statement within the tables and
    keeps the invariant. -/
theorem Call.Inv.step {call : Call} (inv : call.Inv D w.tables) :
    ∃ tr w' next, call.step w = .ok tr (w', next) ∧ (∀ e ∈ tr, e.InBounds) ∧
      next.Inv D w'.tables := by
  cases call with
  | init args outcome todo =>
      cases todo with
      | nil => exact absurd rfl inv.1
      | cons stmt rest =>
          obtain ⟨tr, w', brk, run, bounds, progress⟩ := inv.2.advances
          cases brk with
          | some err => exact ⟨tr, w', _, Call.step_init_break run, bounds, progress⟩
          | none =>
              refine ⟨tr, w', _, Call.step_init_next run, bounds, ?_⟩
              cases rest with
              | nil => exact progress
              | cons stmt' rest => exact ⟨List.cons_ne_nil _ _, progress⟩
  | pinSet pin type =>
      obtain ⟨tr, gpio, run, bounds⟩ := pinSet_keeps pin type w
      exact ⟨tr, _, _, Call.step_pinSet run, bounds, inv⟩
  | gpioSet pin status =>
      obtain ⟨tr, gpio, run, bounds⟩ := gpioStatus_keeps pin status w
      exact ⟨tr, _, _, Call.step_gpioSet run, bounds, inv⟩
  | scan pin duty i =>
      by_cases more : i < w.pwmPinCount
      · have inside : i < maxPwmNum := Nat.lt_of_lt_of_le more inv.bound
        refine ⟨_, w, _, Call.step_scan more inside, by simp [Event.InBounds, inside], ?_⟩
        split
        · exact ⟨inv, more⟩
        · exact inv
      · exact ⟨[], w, _, Call.step_scan_end more, by simp, inv⟩
  | update pos duty =>
      have inside : pos < maxPwmNum := Nat.lt_of_lt_of_le inv.2 inv.1.bound
      exact ⟨_, _, _, Call.step_update inside, by simp [Event.InBounds, inside],
        inv.1.setDuty inside duty⟩
  | returned err => exact ⟨[], w, .returned err, rfl, by simp, inv⟩

theorem Call.Inv.advance {call : Call} (inv : call.Inv D s.world.tables) :
    ∃ tr s', s.advance call = .ok tr s' ∧ (∀ e ∈ tr, e.InBounds) ∧ s'.Inv D := by
  obtain ⟨tr, w', next, run, bounds, held⟩ := inv.step
  by_cases back : ∃ err, next = .returned err
  · obtain ⟨err, rfl⟩ := back
    refine ⟨_, _, Sys.advance_returned run, ?_, held⟩
    simpa [Event.InBounds, or_imp, forall_and] using bounds
  · exact ⟨tr, _, Sys.advance_next run (fun err same => back ⟨err, same⟩), bounds, held⟩

theorem Tables.Settled.start (settled : w.tables.Settled) (D : Driver) (req : Request)
    (outcome : CreateOutcome) (room : ∀ args, req = .pwmInit args → w.pwmPinCount < maxPwmNum) :
    (Call.start D outcome req).Inv D w.tables := by
  cases req with
  | pwmInit args =>
      exact ⟨by cases D <;> simp [Driver.initCode], settled.opening (room args rfl) args outcome⟩
  | pinSet | gpioSet | pwmSet => exact settled

/-! ## Module exit -/

theorem Tables.Established.thread {i : Nat} (est : T.Established) (below : i < T.pwmPinCount) :
    T.taskTable[i]? = some (.thread i) := by
  obtain ⟨_, _, _, _, _, recorded⟩ := est.owned i below
  exact recorded

theorem tables_requestStop (settled : w.tables.Settled) (k : Nat) :
    (w.requestStop k).tables = w.tables := by
  simp only [World.tables, World.requestStop, Tables.mk.injEq, true_and]
  apply List.ext_getElem?
  intro i
  simp only [List.getElem?_map, List.getElem?_modify]
  cases here : w.tasks[i]? with
  | none => rfl
  | some t =>
      have owner : w.tables.owners[i]? = some t.owner := by simp [World.tables, here]
      have below : i < w.tables.pwmPinCount :=
        settled.count ▸ (List.getElem?_eq_some_iff.mp owner).1
      have awake : t.pc ≠ .asleep := by
        simpa [Task.owner] using (settled.owner_below below owner).2.1
      by_cases same : k = i <;> simp [same, Task.owner, awake]

theorem exitStep_keeps {x : Kernel Sys} (settled : s.world.tables.Settled)
    (taken : s.exitStep D = some x) :
    ∃ tr s', x = .ok tr s' ∧ Sys.ExitMove D s s' tr ∧ (∀ e ∈ tr, e.InBounds) ∧
      s'.world.tables = s.world.tables ∧ s'.call = s.call := by
  obtain ⟨s', tr, move, rfl⟩ := Sys.exitStep_move settled.bound
    (fun i below => ⟨i, settled.thread below⟩) taken
  refine ⟨tr, s', rfl, move, ?_⟩
  cases move with
  | start | leave | joined | tail => exact ⟨by simp [Event.InBounds], rfl, rfl⟩
  | @stop i k _ more _ =>
      have inside : i < maxPwmNum := Nat.lt_of_lt_of_le more settled.bound
      exact ⟨by simp [Event.InBounds, inside], tables_requestStop settled k, rfl⟩

/-! ## The system -/

/-- An admitted step never goes wrong: it subscripts within the tables and keeps the
    invariant. -/
theorem Sys.Inv.step {label : Label} {x : Traced (Agent × Event) Fault Sys} (inv : s.Inv D)
    (admitted : Admits s label) (taken : s.step D label = some x) :
    ∃ tr s', x = .ok tr s' ∧ (∀ e ∈ tr, e.2.InBounds) ∧ s'.Inv D := by
  cases Sys.step_taken taken with
  | @request req outcome ready _ =>
      obtain ⟨tr, s', run, bounds, held⟩ := Call.Inv.advance
        ((inv.settled ready).start D req outcome (fun args same => by subst same; exact admitted))
      refine ⟨_, s', by rw [run]; rfl, ?_, held⟩
      simpa using bounds
  | @statement call here =>
      have held : call.Inv D s.world.tables := by simpa [Sys.Inv, here] using inv
      obtain ⟨tr, s', run, bounds, held'⟩ := held.advance
      refine ⟨_, s', by rw [run]; rfl, ?_, held'⟩
      simpa using bounds
  | @task k swap y stepped =>
      obtain ⟨t, here, -⟩ := Driver.pwmTask_some stepped
      obtain ⟨tr, w', rfl, bounds, tables⟩ := pwmTask_keeps here (inv.pos_inside here) stepped
      refine ⟨_, { s with world := w' }, by simp; rfl, by simpa using bounds, ?_⟩
      simpa only [Sys.Inv, tables] using inv
  | @exit y idle stepped =>
      obtain ⟨tr, s', rfl, -, bounds, tables, call⟩ := exitStep_keeps (inv.settled idle) stepped
      refine ⟨_, s', rfl, by simpa using bounds, ?_⟩
      simpa only [Sys.Inv, call, idle, tables] using inv

theorem Sys.Inv.step_ok {label : Label} {tr : List (Agent × Event)} {s' : Sys} (inv : s.Inv D)
    (admitted : Admits s label) (taken : s.step D label = some (.ok tr s')) : s'.Inv D := by
  obtain ⟨_, _, same, -, held⟩ := inv.step admitted taken
  cases same
  exact held

theorem Sys.reaches_inv {gpio : Gpio} {labels : List Label} {tr : List (Agent × Event)}
    (reach : D.system.Reaches (Sys.load gpio) labels tr s)
    (admitted : D.system.Guarded Admits (Sys.load gpio) labels) : s.Inv D := by
  refine reach.guarded_invariant admitted (Sys.load_inv D gpio) ?_
  intro s label tr s' inv admits taken
  exact inv.step_ok admits taken

/-- A step is a task's, or it leaves the threads that are awake where they are. -/
theorem Sys.Inv.moves {label : Label} {tr : List (Agent × Event)} {s' : Sys} (inv : s.Inv D)
    (taken : s.step D label = some (.ok tr s')) :
    (∃ (agent : Agent) (raw : List Event), tr = raw.map (agent, ·) ∧ (∀ k, agent ≠ .task k) ∧
      Grows s.world.tasks s'.world.tasks) ∨
    ∃ k swap t slot pc raw level, s.TaskStep D k swap tr s' t slot pc raw level := by
  generalize shape : (Traced.ok tr s' : Traced (Agent × Event) Fault Sys) = x at taken
  cases Sys.step_taken taken with
  | request | statement =>
      obtain ⟨raw, run, rfl⟩ := Traced.tag_eq_ok.mp shape.symm
      exact .inl ⟨.client, raw, rfl, by simp, (Sys.advance_frame run).2.2⟩
  | @task k swap y stepped => exact .inr ⟨k, swap, inv.taskStep stepped shape.symm⟩
  | @exit y idle stepped =>
      obtain ⟨raw, s₁, rfl, move, -⟩ := exitStep_keeps (inv.settled idle) stepped
      cases shape
      exact .inl ⟨.exit, raw, rfl, by simp, move.grows⟩

/-! ## At most `MAX_PWM_NUM` requests -/

theorem Sys.Inv.counted {s' : Sys} {label : Label} {tr : List (Agent × Event)} (inv : s.Inv D)
    (taken : s.step D label = some (.ok tr s')) :
    s'.world.pwmPinCount + s'.pending ≤
      s.world.pwmPinCount + s.pending + if label.isInit then 1 else 0 := by
  generalize shape : (Traced.ok tr s' : Traced (Agent × Event) Fault Sys) = x at taken
  cases Sys.step_taken taken with
  | @request req outcome ready _ =>
      obtain ⟨raw, run, -⟩ := Traced.tag_eq_ok.mp shape.symm
      have counted := (Sys.advance_frame run).2.1
      rw [Call.pending_start] at counted
      refine counted.trans ?_
      cases init : req.isInit <;> simp [Label.isInit, init]
  | @statement call here =>
      obtain ⟨raw, run, -⟩ := Traced.tag_eq_ok.mp shape.symm
      have counted := (Sys.advance_frame run).2.1
      have pending : s.pending = call.pending := by simp [Sys.pending, here]
      omega
  | @task k swap y stepped =>
      obtain ⟨t, here, -⟩ := Driver.pwmTask_some stepped
      obtain ⟨raw, w', rfl, -, tables⟩ := pwmTask_keeps here (inv.pos_inside here) stepped
      cases shape
      have count : w'.pwmPinCount = s.world.pwmPinCount := congrArg Tables.pwmPinCount tables
      simp [Label.isInit, count, Sys.pending]
  | @exit y idle stepped =>
      obtain ⟨raw, s₁, rfl, -, -, tables, call⟩ := exitStep_keeps (inv.settled idle) stepped
      cases shape
      have count : s'.world.pwmPinCount = s.world.pwmPinCount :=
        congrArg Tables.pwmPinCount tables
      simp [Label.isInit, count, Sys.pending, call]

theorem Sys.Inv.admitted {labels : List Label} (inv : s.Inv D)
    (few : s.world.pwmPinCount + s.pending + inits labels ≤ maxPwmNum) :
    D.system.Guarded Admits s labels := by
  induction labels generalizing s with
  | nil => trivial
  | cons label labels ih =>
      have split : inits (label :: labels) = inits labels + if label.isInit then 1 else 0 := by
        simp [inits, List.countP_cons]
      have here : Admits s label := by
        cases label with
        | statement | task | exit => trivial
        | request req outcome =>
            cases req with
            | pinSet | gpioSet | pwmSet => trivial
            | pwmInit args =>
                simp only [Label.isInit, Request.isInit, ↓reduceIte] at split
                simp only [Admits]
                omega
      refine ⟨here, fun tr s' taken => ih ?_ ?_⟩
      · exact inv.step_ok here taken
      · have counted := inv.counted taken
        omega

theorem Sys.few_admitted (D : Driver) (gpio : Gpio) {labels : List Label}
    (few : inits labels ≤ maxPwmNum) : D.system.Guarded Admits (Sys.load gpio) labels :=
  (Sys.load_inv D gpio).admitted (by simpa [Sys.load, World.load, Sys.pending] using few)

/-! ## Owners -/

theorem Sys.Inv.established (inv : s.Inv D) : s.world.tables.Established := by
  unfold Sys.Inv at inv
  cases call : s.call with
  | none =>
      rw [call] at inv
      exact inv.toEstablished
  | some c =>
      rw [call] at inv
      cases c with
      | init args outcome todo => exact inv.2.toEstablished
      | update pos duty => exact inv.1.toEstablished
      | pinSet | gpioSet | scan | returned => exact Tables.Settled.toEstablished inv

theorem Sys.Inv.unique_owner (inv : s.Inv D) {i : Nat} (below : i < s.world.pwmPinCount) :
    ∃! k : Nat, ∃ t : Task, s.world.tasks[k]? = some t ∧ t.pos = i := by
  obtain ⟨slot, creator, -, mine, -, -⟩ := inv.established.owned i below
  have owner : (s.world.tasks[i]?).map Task.owner = some ⟨i, creator, true⟩ := by
    simpa [World.tables] using mine
  obtain ⟨t, here, same⟩ := Option.map_eq_some_iff.mp owner
  refine ⟨i, ⟨t, here, congrArg Owner.pos same⟩, ?_⟩
  rintro k ⟨t', here', pos⟩
  exact (inv.placed here').pos.symm.trans pos

/-- A task that takes a step finds in its slot the pin, minimum and maximum of the
    request that created it; no other thread has its position, which is at most
    `pwm_pin_count`, and every index below `pwm_pin_count` is one thread's. -/
theorem running_task_owns_slot (D : Driver) (gpio : Gpio) (labels : List Label)
    (tr : List (Agent × Event)) (s : Sys)
    (reach : D.system.Reaches (Sys.load gpio) labels tr s)
    (admitted : D.system.Guarded Admits (Sys.load gpio) labels) :
    (∀ k swap x, D.system.step s (.task k swap) = some x →
      ∃ t slot, s.world.tasks[k]? = some t ∧ s.world.dutyArray[t.pos]? = some slot ∧
        slot.pin = t.creator.pin ∧ slot.min = t.creator.min ∧ slot.max = t.creator.max ∧
        (∀ j t', j ≠ k → s.world.tasks[j]? = some t' → t'.pos ≠ t.pos) ∧
        t.pos ≤ s.world.pwmPinCount) ∧
    ∀ i < s.world.pwmPinCount, ∃! k : Nat, ∃ t : Task, s.world.tasks[k]? = some t ∧ t.pos = i := by
  have inv := Sys.reaches_inv reach admitted
  refine ⟨?_, fun i below => inv.unique_owner below⟩
  intro k swap x taken
  obtain ⟨y, stepped, -⟩ := Option.map_eq_some_iff.mp taken
  obtain ⟨t, here, awake, -⟩ := Driver.pwmTask_some stepped
  have placed := inv.placed here
  have pos : t.pos = k := placed.pos
  obtain ⟨slot, held, pin, min, max⟩ := placed.serves (bne_iff_ne.mpr awake)
  refine ⟨t, slot, here, pos ▸ held, pin, min, max, ?_, pos ▸ placed.atMost⟩
  intro j t' other here'
  have pos' : t'.pos = j := (inv.placed here').pos
  rw [pos, pos']
  exact other

/-- One channel is opened and its task is about to take its third step. -/
theorem running_task_owns_slot_first :
    ∃ tr s, Driver.softPWM.system.Reaches (Sys.load .reset)
        (.request (.pwmInit ⟨16, 0, 100⟩) .created :: List.replicate 8 .statement ++
          [.task 0 false, .task 0 false]) tr s ∧
      (Driver.softPWM.system.step s (.task 0 false)).isSome ∧
      ∃ t slot, s.world.tasks[0]? = some t ∧ s.world.dutyArray[t.pos]? = some slot ∧
        slot.pin = t.creator.pin := by
  obtain ⟨tr, s, reach, enabled⟩ := Machine.exists_reaches Driver.softPWM.system
    (Sys.load .reset)
    (.request (.pwmInit ⟨16, 0, 100⟩) .created :: List.replicate 8 .statement ++
      [.task 0 false, .task 0 false])
    (fun _ s => (Driver.softPWM.system.step s (.task 0 false)).isSome) (by decide)
  obtain ⟨x, taken⟩ := Option.isSome_iff_exists.mp enabled
  obtain ⟨t, slot, here, held, pin, -⟩ := (running_task_owns_slot .softPWM .reset _ tr s reach
    (Sys.few_admitted _ _ (by decide))).1 0 false x taken
  exact ⟨tr, s, reach, enabled, t, slot, here, held, pin⟩

end KsoftPWM
