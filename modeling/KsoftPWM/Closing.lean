import KsoftPWM.Concurrent
import KsoftPWM.Late
import KsoftPWM.Model.Closing

/-! # Requests in flight while xenoPWM is unloaded

With whole requests two kinds of late requests are harmful (`Harmless`).  When requests
are in flight while `xeno_pwm_exit` runs there is a third hazard, which no late request is
to blame for: the loop ends while a `PWM_INIT` has created its task and not counted it
yet.  Nobody destroys that task.

These three kinds of steps are exactly the harmful ones, for any number of clients.
-/

namespace KsoftPWM

variable {s s' : Closing} {w w' : World} {f : Flight} {c k : Nat} {raw : List Event}
  {next : ClientPc} {tr tr' : List (Agent × Event)} {turn : ClosingTurn}

/-! ## Statements -/

theorem ClientPc.touches_iff {pc : ClientPc} (run : pc.step w = .ok raw (w', next)) :
    pc.touches = true ↔ ∃ e ∈ raw, ¬ e.Silent := by
  have quiet : (∀ e ∈ (pc.step w).trace, e.Silent) → ¬ ∃ e ∈ raw, ¬ e.Silent := by
    rw [run]
    rintro silent ⟨e, member, loud⟩
    exact loud (silent e member)
  cases pc with
  | between pin type old =>
      cases run
      exact iff_of_true rfl ⟨_, List.mem_singleton.mpr rfl, by simp [Event.Silent]⟩
  | before call =>
      cases call with
      | init args outcome todo =>
          refine iff_of_false (by simp [touches]) (quiet ?_)
          refine Traced.forall_trace_bind ?_ fun _ => by simp
          cases todo with
          | nil => simp [Call.step]
          | cons stmt rest =>
              refine Traced.forall_trace_bind (exec_silent args outcome w stmt) fun r => ?_
              obtain ⟨w₁, brk⟩ := r
              cases brk <;> simp
      | pinSet pin type =>
          by_cases valid : ValidType type
          · rw [step_load pin w valid] at run
            cases run
            exact iff_of_true (by simpa [touches, ValidType] using valid)
              ⟨_, List.mem_singleton.mpr rfl, by simp [Event.Silent]⟩
          · rw [step_ignore pin w valid] at run
            cases run
            exact iff_of_false (by simpa [touches, ValidType] using valid) (by simp)
      | gpioSet pin status =>
          obtain ⟨_, ⟨w₁, call⟩, _, stepped, done, rfl⟩ := Traced.bind_eq_ok.mp run
          obtain ⟨_, w₂, _, ran, went, rfl⟩ := Traced.bind_eq_ok.mp stepped
          cases went
          cases done
          rw [gpioStatus_eq] at ran
          simpa [touches] using
            actOnPin_touches_iff ran ⟨List.cons_ne_nil _ _, List.cons_ne_nil _ _⟩
      | scan pin duty i =>
          refine iff_of_false (by simp [touches]) (quiet ?_)
          refine Traced.forall_trace_bind ?_ fun _ => by simp
          by_cases more : i < w.pwmPinCount
          · simp only [Call.step, more, ↓reduceIte]
            exact Traced.forall_trace_bind subscript_silent fun _ => by simp
          · simp [Call.step, more]
      | update pos duty =>
          refine iff_of_false (by simp [touches]) (quiet ?_)
          refine Traced.forall_trace_bind ?_ fun _ => by simp
          exact Traced.forall_trace_bind setSlot_silent fun _ => by simp
      | returned err => exact iff_of_false (by simp [touches]) (quiet (by simp [step, Call.step]))

theorem Flight.Sound.tasks (sound : f.Sound .xenoPWM w.tables)
    (run : f.pc.step w = .ok raw (w', next)) :
    f.pc.spawns = true ∧ (∃ name args pc, pc ≠ .returned ∧
        w'.tasks = (w.spawn name args pc).tasks) ∨ f.pc.spawns = false ∧ w'.tasks = w.tasks := by
  obtain ⟨req, outcome, pc⟩ := f
  cases pc with
  | between pin type old =>
      cases run
      exact .inr ⟨rfl, rfl⟩
  | before call =>
      cases call with
      | pinSet pin type =>
          by_cases valid : ValidType type
          · rw [step_load pin w valid] at run
            cases run
            exact .inr ⟨rfl, rfl⟩
          · rw [step_ignore pin w valid] at run
            cases run
            exact .inr ⟨rfl, rfl⟩
      | init | gpioSet | scan | update =>
          obtain ⟨_, ⟨w₁, call⟩, _, stepped, done, -⟩ := Traced.bind_eq_ok.mp run
          cases done
          rcases Call.step_tasks stepped with spawned | ⟨idle, tasks | ⟨⟨_, _, _, wakes⟩, -⟩⟩
          · exact .inl spawned
          · exact .inr ⟨idle, tasks⟩
          · -- only softPWM wakes its threads
            cases wakes <;> exact absurd (code_wakeUp sound.2.2.2.1.code).1 (by decide)
      | returned => exact sound.elim

theorem Flight.Sound.kept (sound : f.Sound .xenoPWM w.tables)
    (run : f.pc.step w = .ok raw (w', next)) :
    (∀ (k : Nat) (t : Task), w.tasks[k]? = some t → w'.tasks[k]? = some t) ∧
      ∀ (k : Nat) (t : Task), w'.tasks[k]? = some t → w.tasks[k]? = some t ∨
        t.stop = false ∧ t.pc ≠ .returned := by
  rcases sound.tasks run with ⟨-, name, args, pc, going, tasks⟩ | ⟨-, tasks⟩
  · rw [tasks, World.spawn]
    refine ⟨fun k t here => ?_, fun k t here => ?_⟩
    · rw [List.getElem?_append_left (List.getElem?_eq_some_iff.mp here).1, here]
    · rw [List.getElem?_append] at here
      split at here
      · exact .inl here
      · rw [List.mem_singleton.mp (List.mem_of_getElem? here)]
        exact .inr ⟨rfl, going⟩
  · rw [tasks]
    exact ⟨fun _ _ here => here, fun _ _ here => .inl here⟩

/-- A slot is counted only after its task has been created. -/
theorem Flight.Moves.count {D : Driver} (moves : f.Moves D w w' next) :
    w'.pwmPinCount = w.pwmPinCount ∨
      w'.pwmPinCount = w.pwmPinCount + 1 ∧ w.tasks.length = w.pwmPinCount + 1 := by
  cases moves with
  | load | store | ignore | drive | pass | found | absent | update => exact .inl rfl
  | opens _ _ run last => exact .inl (by simpa [last] using (Stmt.exec_frame run).count)
  | counts _ _ _ _ settled =>
      refine .inr ⟨rfl, ?_⟩
      simpa [World.tables] using settled.count
  | breaks _ _ _ run last => exact .inl (by simpa [last] using (Stmt.exec_frame run).count)

/-! ## Module exit -/

theorem Tables.Established.count_le (est : w.tables.Established) :
    w.pwmPinCount ≤ w.tasks.length := by
  by_contra fewer
  obtain ⟨_, _, _, owner, -⟩ := est.owned w.tasks.length (Nat.lt_of_not_le fewer)
  simp [World.tables] at owner

theorem tables_requestStop_counted (est : w.tables.Established) (below : k < w.pwmPinCount) :
    (w.requestStop k).tables = w.tables := by
  simp only [World.tables, World.requestStop, Tables.mk.injEq, true_and]
  apply List.ext_getElem?
  intro i
  simp only [List.getElem?_map, List.getElem?_modify]
  cases here : w.tasks[i]? with
  | none => rfl
  | some t =>
      by_cases same : k = i
      · subst same
        have owner : w.tables.owners[k]? = some t.owner := by simp [World.tables, here]
        have awake : t.pc ≠ .asleep := by
          simpa [Task.owner] using (est.owner_below below owner).2.1
        simp [Task.owner, awake]
      · simp [same]

theorem requestStop_task {j : Nat} {t : Task} (here : (w.requestStop k).tasks[j]? = some t) :
    j = k ∧ t.stop = true ∨ w.tasks[j]? = some t := by
  rw [World.requestStop, List.getElem?_modify] at here
  obtain ⟨t₀, old, rfl⟩ := Option.map_eq_some_iff.mp here
  by_cases mine : k = j
  · exact .inl ⟨mine.symm, by rw [if_pos mine]⟩
  · rw [if_neg mine]
    exact .inr old

theorem Sys.ExitMove.brings {D : Driver} {s s' : Sys} (est : s.world.tables.Established)
    (within : s.exit.Within s.world.pwmPinCount) (move : Sys.ExitMove D s s' raw) :
    s'.exit.Within s'.world.pwmPinCount ∧
      (∀ k < s'.exit.joined s'.world.pwmPinCount,
        k < s.exit.joined s.world.pwmPinCount ∨ s.world.tasks[k]?.map (·.pc) = some .returned) ∧
      raw.count (.exit .iounmap) + s'.exit.unmaps = s.exit.unmaps := by
  cases move with
  | start at_ => exact ⟨Nat.zero_le _, by simp [ExitPc.joined], by simp [at_, ExitPc.unmaps]⟩
  | @stop i k at_ more thread =>
      obtain rfl : i = k := by simpa using (est.thread more).symm.trans thread
      exact ⟨⟨rfl, more⟩, fun j below => .inl (by rw [at_]; exact below),
        by simp [at_, ExitPc.unmaps]⟩
  | @leave i at_ done =>
      rw [at_] at within
      obtain rfl : i = s.world.pwmPinCount := Nat.le_antisymm within (Nat.not_lt.mp done)
      exact ⟨trivial, fun j below => .inl (by rw [at_]; exact below), by rw [at_]; cases D <;> rfl⟩
  | @joined i k at_ returned =>
      rw [at_] at within
      obtain ⟨rfl, below⟩ := within
      refine ⟨below, fun j before => ?_, by rw [at_]; rfl⟩
      rcases Nat.eq_or_lt_of_le (Nat.le_of_lt_succ before) with rfl | earlier
      · exact .inr returned
      · exact .inl (by rw [at_]; exact earlier)
  | @tail stmt rest at_ =>
      refine ⟨trivial, fun j below => .inl (by rw [at_]; exact below), ?_⟩
      simp only [at_, ExitPc.unmaps, List.count_cons, List.count_nil, beq_iff_eq, Event.exit.injEq]
      omega

/-! ## Steps -/

def ExitPc.asked : ExitPc → Nat
  | loop i => i
  | join i _ => i + 1
  | _ => 0

namespace Closing

/-- `PWM_INIT` is issued while a slot is free and no other `PWM_INIT` is in flight. -/
def OneInit (s : Closing) : ClosingTurn → Prop
  | .turn turn => KsoftPWM.OneInit s.served turn
  | .exit => True

/-- No statement creates a task once the loop has ended, or accesses a register once the
    registers have been unmapped, and the loop does not end while a task is created and not
    counted yet. -/
def Harmless (s : Closing) : ClosingTurn → Prop
  | .turn (.statement c) => ∀ f, s.served.flight c = some f →
      (f.pc.spawns = true → s.exit.pastLoop = false) ∧ (f.pc.touches = true → s.exit.unmaps ≠ 0)
  | .exit => ∀ i, s.exit = .loop i → ¬ i < s.served.world.pwmPinCount →
      s.served.world.tasks.length = s.served.world.pwmPinCount
  | _ => True

instance : DecidableRel Harmless
  | s, .turn (.statement c) =>
      match here : s.served.flight c with
      | none => .isTrue fun f there => by simp [here] at there
      | some f => decidable_of_iff ((f.pc.spawns = true → s.exit.pastLoop = false) ∧
          (f.pc.touches = true → s.exit.unmaps ≠ 0)) (by simp [Harmless, here])
  | s, .exit =>
      match at_ : s.exit with
      | .loop i => decidable_of_iff (¬ i < s.served.world.pwmPinCount →
          s.served.world.tasks.length = s.served.world.pwmPinCount) (by simp [Harmless, at_])
      | .idle | .join _ _ | .tail _ => .isTrue fun i there => by simp [at_] at there
  | _, .turn (.enter ..) | _, .turn (.task ..) => .isTrue trivial

/-- Everything a step can do. -/
inductive Step (s : Closing) : ClosingTurn → List (Agent × Event) → Closing → Prop where
  | enter {c : Nat} {req outcome} : s.served.flight c = none →
      Step s (.turn (.enter c req outcome)) [] { s with
        served := s.served.put s.served.world c
          (some ⟨req, outcome, .before (.start .xenoPWM outcome req)⟩) }
  | statement {c : Nat} {f : Flight} {w : World} {next : ClientPc} {raw : List Event} :
      s.served.flight c = some f →
      f.pc.step s.served.world = .ok raw (w, next) → f.Moves .xenoPWM s.served.world w next →
      Step s (.turn (.statement c)) (raw.map (Agent.client, ·))
        { s with served := s.served.put w c (f.after next) }
  | task {k : Nat} {swap t slot pc level sys} {raw : List Event} {tr : List (Agent × Event)} :
      s.sys.TaskStep .xenoPWM k swap tr sys t slot pc raw level →
      sys.world.tables = s.served.world.tables → Step s (.turn (.task k swap)) tr (s.back sys)
  | exit {sys} {raw : List Event} : Sys.ExitMove .xenoPWM s.sys sys raw →
      sys.world.tables = s.served.world.tables → Step s .exit (raw.map (Agent.exit, ·)) (s.back sys)

theorem step_taken {x : Traced (Agent × Event) Fault Closing} (inv : s.served.Inv .xenoPWM)
    (taken : s.step turn = some x) :
    ∃ tr s', x = .ok tr s' ∧ s.Step turn tr s' ∧ ∀ e ∈ tr, e.2.InBounds := by
  cases turn with
  | turn turn =>
      cases turn with
      | enter c req outcome =>
          by_cases ready : s.served.flight c = none ∧ Driver.xenoPWM.accepts s.exit
          · simp only [step, ready, and_self, ↓reduceIte, Option.some.injEq] at taken
            exact ⟨_, _, taken.symm, .enter ready.1, by simp⟩
          · simp [step, ready] at taken
      | statement c =>
          obtain ⟨f, here, rfl⟩ := Option.map_eq_some_iff.mp taken
          obtain ⟨raw, w, next, run, bounds, moves⟩ :=
            (inv.sound c f here).moves inv.established.bound
          refine ⟨_, _, ?_, .statement here run moves, by simpa using bounds⟩
          simp [run]
      | task k swap =>
          obtain ⟨y, stepped, rfl⟩ := Option.map_eq_some_iff.mp taken
          obtain ⟨t, here, awake, going⟩ := Driver.pwmTask_some stepped
          have placed := inv.placed here
          obtain rfl : t.pos = k := placed.pos
          obtain ⟨slot, held, serves⟩ := placed.serves (bne_iff_ne.mpr awake)
          obtain ⟨inside, rfl⟩ := Vector.getElem?_eq_some_iff.mp held
          obtain ⟨raw, w, rfl, bounds, tables⟩ := pwmTask_keeps here inside stepped
          obtain ⟨pc, _, level, move, same⟩ := Driver.pwmTask_move here inside stepped
          cases same
          refine ⟨_, _, ?_, .task ⟨here, awake, going, rfl, held, serves, move, rfl, rfl⟩ tables,
            by simpa using bounds⟩
          simp [sys, World.tables]
  | exit =>
      obtain ⟨y, stepped, rfl⟩ := Option.map_eq_some_iff.mp taken
      obtain ⟨sys, raw, move, rfl⟩ := Sys.exitStep_move inv.established.bound
        (fun i below => ⟨i, inv.established.thread below⟩) stepped
      have kept : sys.world.tables = s.served.world.tables ∧ ∀ e ∈ raw, e.InBounds := by
        cases move with
        | start | leave | joined | tail => exact ⟨rfl, by simp [Event.InBounds]⟩
        | @stop i k _ more thread =>
            obtain rfl : i = k := by simpa using (inv.established.thread more).symm.trans thread
            have inside : i < maxPwmNum := Nat.lt_of_lt_of_le more inv.established.bound
            exact ⟨tables_requestStop_counted inv.established more, by simp [Event.InBounds, inside]⟩
      refine ⟨_, _, ?_, .exit move kept.1, by simpa using kept.2⟩
      simp

theorem Step.inv (step : s.Step turn tr s') (inv : s.served.Inv .xenoPWM) (one : s.OneInit turn) :
    s'.served.Inv .xenoPWM := by
  cases step with
  | enter idle => exact inv.enter idle one
  | statement here _ moves => exact inv.moves here moves
  | task _ tables | exit _ tables => exact inv.world tables

/-! ## Runs without a harmful step -/

/-- What holds all along a run without harmful steps. -/
structure Retiring (tr : List (Agent × Event)) (s : Closing) : Prop where
  inv : s.served.Inv .xenoPWM
  teardown : Teardown tr s.sys
  counted : s.exit.pastLoop = true → s.served.world.tasks.length = s.served.world.pwmPinCount
  unasked : s.exit.pastLoop = false → ∀ (k : Nat) (t : Task),
    s.served.world.tasks[k]? = some t → s.exit.asked ≤ k → t.stop = false
  going : ∀ (k : Nat) (t : Task), s.served.world.tasks[k]? = some t → t.stop = false →
    t.pc ≠ .returned

theorem Retiring.load (gpio : Gpio) : Retiring [] (.load gpio) where
  inv := Concurrent.load_inv .xenoPWM gpio
  teardown := Teardown.load gpio
  counted := nofun
  unasked := by simp [Closing.load, Concurrent.load, World.load]
  going := by simp [Closing.load, Concurrent.load, World.load]

theorem Retiring.statement (retiring : Retiring tr s) (here : s.served.flight c = some f)
    (run : f.pc.step s.served.world = .ok raw (w, next))
    (moves : f.Moves .xenoPWM s.served.world w next)
    (harmless : s.Harmless (.turn (.statement c))) :
    Retiring (tr ++ raw.map (Agent.client, ·))
      { s with served := s.served.put w c (f.after next) } := by
  obtain ⟨early, mapped⟩ := harmless f here
  have sound := retiring.inv.sound c f here
  have teardown := retiring.teardown
  have past : s.exit.pastLoop = true →
      w.tasks = s.served.world.tasks ∧ w.pwmPinCount = s.served.world.pwmPinCount := by
    intro past
    have counted := retiring.counted past
    rcases sound.tasks run with ⟨spawns, -⟩ | ⟨-, tasks⟩
    · simp [early spawns] at past
    · rcases moves.count with same | ⟨-, uncounted⟩
      · exact ⟨tasks, same⟩
      · omega
  have joined : s.exit.joined w.pwmPinCount = s.exit.joined s.served.world.pwmPinCount := by
    cases loop : s.exit.pastLoop with
    | false => exact ExitPc.joined_eq loop _ _
    | true => rw [(past loop).2]
  obtain ⟨kept, new⟩ := sound.kept run
  refine ⟨retiring.inv.moves here moves, ?_, ?_, ?_, ?_⟩
  · refine teardown.foreign (by decide) rfl ?_ ?_ ?_
    · rcases moves.count with same | ⟨more, -⟩
      · exact same ▸ teardown.within
      · exact more ▸ teardown.within.succ
    · intro k below
      obtain ⟨t, there, returned⟩ := teardown.returned k (joined ▸ below)
      exact ⟨t, kept k t there, returned⟩
    · by_cases touches : f.pc.touches = true
      · have unmapped := teardown.unmapped
        have left : s.exit.unmaps ≠ 0 := mapped touches
        exact .inl (by change s.exit.unmaps = 1; change _ + s.exit.unmaps = 1 at unmapped; omega)
      · refine .inr fun e member => ?_
        by_contra loud
        exact touches ((ClientPc.touches_iff run).mpr ⟨e, member, loud⟩)
  · intro loop
    obtain ⟨tasks, count⟩ := past loop
    change w.tasks.length = w.pwmPinCount
    rw [tasks, count]
    exact retiring.counted loop
  · intro loop k t there beyond
    rcases new k t there with old | ⟨stop, -⟩
    · exact retiring.unasked loop k t old beyond
    · exact stop
  · intro k t there stop
    rcases new k t there with old | ⟨-, going⟩
    · exact retiring.going k t old stop
    · exact going

/-- A step of a task: once the loop has ended there is none left that could take one. -/
theorem Retiring.task {swap : Bool} {sys : Sys} {t : Task} {slot : Dutycycle} {pc : TaskPc}
    {level : Option Bool} (retiring : Retiring tr s)
    (step : s.sys.TaskStep .xenoPWM k swap tr' sys t slot pc raw level)
    (tables : sys.world.tables = s.served.world.tables) : Retiring (tr ++ tr') (s.back sys) := by
  have teardown := retiring.teardown
  obtain ⟨here, -, going, -, -, -, move, rfl, rfl⟩ := step
  have count : ((s.served.world.driven slot.pin level).jump k pc).pwmPinCount =
      s.served.world.pwmPinCount := congrArg Tables.pwmPinCount tables
  have running : s.sys.exit.joined s.sys.world.pwmPinCount ≤ k :=
    Nat.not_lt.mp fun below => going (teardown.pc_returned below here)
  have early : s.exit.pastLoop = false := by
    rw [← Bool.not_eq_true]
    intro past
    have inside := (List.getElem?_eq_some_iff.mp here).1
    have counted := retiring.counted past
    cases exit : s.exit with
    | idle | loop | join => simp [exit, ExitPc.pastLoop] at past
    | tail todo =>
        simp only [sys, exit, ExitPc.joined] at running inside
        omega
  have others : ∀ (j : Nat) (t' : Task),
      ((s.served.world.driven slot.pin level).jump k pc).tasks[j]? = some t' →
        s.served.world.tasks[j]? = some t' ∨ j = k ∧ t' = { t with pc := pc } := by
    intro j t' there
    by_cases mine : k = j
    · subst mine
      exact .inr ⟨rfl, Option.some.inj (there.symm.trans (tasks_moved here))⟩
    · exact .inl ((tasks_unmoved mine).symm.trans there)
  refine ⟨retiring.inv.world tables, ?_, ?_, ?_, ?_⟩
  · refine teardown.foreign (by simp) rfl (by exact count.symm ▸ teardown.within) ?_ (.inl ?_)
    · intro j below
      change j < s.exit.joined ((s.served.world.driven slot.pin level).jump k pc).pwmPinCount at below
      rw [count] at below
      obtain ⟨t', there, returned⟩ := teardown.returned j below
      have other : k ≠ j := (Nat.lt_of_lt_of_le below running).ne'
      exact ⟨t', (tasks_unmoved other).trans there, returned⟩
    · cases exit : s.exit with
      | idle | loop | join => simp [sys, exit, ExitPc.unmaps]
      | tail todo => simp [exit, ExitPc.pastLoop] at early
  · intro past
    simp [back, sys, early] at past
  · intro _ j t' there beyond
    rcases others j t' there with old | ⟨rfl, rfl⟩
    · exact retiring.unasked early j t' old beyond
    · exact retiring.unasked early j t here beyond
  · intro j t' there stop
    rcases others j t' there with old | ⟨rfl, rfl⟩
    · exact retiring.going j t' old stop
    · rw [show t.stop = false from stop] at move
      exact move.not_returned

theorem Retiring.exits {sys : Sys} (retiring : Retiring tr s)
    (move : Sys.ExitMove .xenoPWM s.sys sys raw)
    (tables : sys.world.tables = s.served.world.tables) (harmless : s.Harmless .exit) :
    Retiring (tr ++ raw.map (Agent.exit, ·)) (s.back sys) := by
  have teardown := retiring.teardown
  have est := retiring.inv.established
  obtain ⟨within, joined, unmapped⟩ := move.brings est teardown.within
  refine ⟨retiring.inv.world tables, ⟨within, ?_, ?_, ?_⟩, ?_, ?_, ?_⟩
  · intro k below
    obtain ⟨t, here, pc⟩ : ∃ t, s.sys.world.tasks[k]? = some t ∧ t.pc = .returned := by
      rcases joined k below with before | now
      · exact teardown.returned k before
      · exact Option.map_eq_some_iff.mp now
    obtain ⟨t', here', -, same⟩ := move.grows.awake here (by simp [pc])
    exact ⟨t', here', same.trans pc⟩
  · have before := teardown.unmapped
    rw [List.count_append, count_exit]
    change _ + sys.exit.unmaps = 1
    omega
  · exact teardown.quiet.append (by simpa using move.silent)
  · intro past
    cases move with
    | leave at_ done => exact harmless _ at_ done
    | tail at_ =>
        refine retiring.counted ?_
        change s.sys.exit.pastLoop = true
        rw [at_]
        rfl
    | start | stop | joined => cases past
  · intro early j t there beyond
    -- a thread is asked to stop when the loop comes to it, and not before
    have before : ∀ pc, s.sys.exit = pc → pc.pastLoop = false → pc.asked ≤ j →
        s.served.world.tasks[j]? = some t → t.stop = false := by
      rintro _ rfl early below here
      exact retiring.unasked early j t here below
    cases move with
    | start at_ | joined at_ => exact before _ at_ rfl beyond there
    | @stop i k at_ more thread =>
        obtain rfl : i = k := by simpa using (est.thread more).symm.trans thread
        have later : i < j := beyond
        rcases requestStop_task there with ⟨rfl, -⟩ | old
        · exact absurd later (Nat.lt_irrefl _)
        · exact before _ at_ rfl (Nat.le_of_lt later) old
    | leave | tail => cases early
  · intro j t there stop
    cases move with
    | start | leave | joined | tail => exact retiring.going j t there stop
    | stop =>
        rcases requestStop_task there with ⟨-, asked⟩ | old
        · simp [asked] at stop
        · exact retiring.going j t old stop

/-! ## Harmful steps -/

theorem Retiring.doomed (retiring : Retiring tr s) (step : s.Step turn tr' s')
    (harmful : ¬ s.Harmless turn) : Doomed (tr ++ tr') s'.sys := by
  have teardown := retiring.teardown
  cases step with
  | enter | task => exact absurd trivial harmful
  | @statement c f w next raw here run moves =>
      obtain ⟨f', here', bad⟩ : ∃ f', s.served.flight c = some f' ∧
          ¬ ((f'.pc.spawns = true → s.exit.pastLoop = false) ∧
            (f'.pc.touches = true → s.exit.unmaps ≠ 0)) := by
        simpa [Harmless, -not_and] using harmful
      obtain rfl := Option.some.inj (here.symm.trans here')
      rw [not_and_or, Classical.not_imp, Classical.not_imp, Bool.not_eq_false, not_not] at bad
      rcases bad with ⟨spawns, past⟩ | ⟨touches, unmapped⟩
      · rcases (retiring.inv.sound c f here).tasks run with ⟨-, name, args, pc, going, tasks⟩ | ⟨idle, -⟩
        · refine .inr ⟨past, s.served.world.tasks.length,
            ⟨s.served.world.pwmPinCount, name, args, false, pc⟩, ?_, rfl, going⟩
          change w.tasks[s.served.world.tasks.length]? = _
          rw [tasks]
          exact List.getElem?_concat_length
        · simp [idle] at spawns
      · obtain ⟨e, member, loud⟩ := (ClientPc.touches_iff run).mp touches
        have past : (.exit, .exit .iounmap) ∈ tr := by
          have count := teardown.unmapped
          change _ + s.exit.unmaps = 1 at count
          refine List.count_pos_iff.mp ?_
          omega
        refine .inl fun quiet => loud ?_
        exact (List.pairwise_append.mp quiet).2.2 _ past (Agent.client, e) (by simp [member]) rfl
  | @exit sys raw move tables =>
      obtain ⟨i, at_, done, uncounted⟩ : ∃ i, s.exit = .loop i ∧ ¬ i < s.served.world.pwmPinCount ∧
          s.served.world.tasks.length ≠ s.served.world.pwmPinCount := by
        simpa [Harmless] using harmful
      -- the task that is created and not counted is still running
      have within : i ≤ s.served.world.pwmPinCount := by
        have within := teardown.within
        rwa [show s.sys.exit = .loop i from at_] at within
      have more : s.served.world.pwmPinCount < s.served.world.tasks.length :=
        Nat.lt_of_le_of_ne retiring.inv.established.count_le (Ne.symm uncounted)
      have here := List.getElem?_eq_getElem more
      have stop := retiring.unasked (by rw [at_]; rfl) _ _ here (by rw [at_]; exact within)
      have going := retiring.going _ _ here stop
      cases move with
      | leave => exact .inr ⟨rfl, _, _, here, stop, going⟩
      | start at' => simp [show s.exit = _ from at'] at at_
      | joined at' => simp [show s.exit = _ from at'] at at_
      | tail at' => simp [show s.exit = _ from at'] at at_
      | stop at' below =>
          obtain rfl : _ = i := by simpa [show s.exit = _ from at'] using at_
          exact absurd below done

theorem Step.doomed (step : s.Step turn tr' s') (inv : s.served.Inv .xenoPWM)
    (doomed : Doomed tr s.sys) : Doomed (tr ++ tr') s'.sys := by
  rcases doomed with loud | ⟨past, k, t, here, stop, going⟩
  · exact .inl fun quiet => loud quiet.of_append
  · refine .inr ?_
    cases step with
    | enter => exact ⟨past, k, t, here, stop, going⟩
    | statement flies run =>
        exact ⟨past, k, t, ((inv.sound _ _ flies).kept run).1 k t here, stop, going⟩
    | @task j _ t' _ _ _ _ _ _ step =>
        obtain ⟨here', -, -, -, -, -, move, -, rfl⟩ := step
        refine ⟨past, k, ?_⟩
        by_cases same : j = k
        · subst same
          obtain rfl : t' = t := by simpa [here'] using here
          rw [stop] at move
          exact ⟨_, tasks_moved here', stop, move.not_returned⟩
        · exact ⟨t, (tasks_unmoved same).trans here, stop, going⟩
    | exit move =>
        cases move with
        | start at_ | stop at_ | leave at_ | joined at_ => simp [at_, ExitPc.pastLoop] at past
        | tail => exact ⟨rfl, k, t, here, stop, going⟩

theorem Step.retiring (step : s.Step turn tr' s') (retiring : Retiring tr s) (one : s.OneInit turn)
    (harmless : s.Harmless turn) : Retiring (tr ++ tr') s' := by
  cases step with
  | enter idle =>
      rw [List.append_nil]
      exact ⟨retiring.inv.enter idle one, retiring.teardown, retiring.counted, retiring.unasked,
        retiring.going⟩
  | statement here run moves => exact retiring.statement here run moves harmless
  | task step tables => exact retiring.task step tables
  | exit move tables => exact retiring.exits move tables harmless

theorem Retiring.safe (retiring : Retiring tr s) : SafeUnload tr s.sys := by
  have teardown := retiring.teardown
  refine ⟨teardown.quiet, fun done t member => ?_⟩
  obtain ⟨k, here⟩ := List.mem_iff_getElem?.mp member
  refine teardown.pc_returned ?_ here
  have counted := retiring.counted (by rw [show s.exit = _ from done]; rfl)
  rw [done, ExitPc.joined]
  exact counted ▸ (List.getElem?_eq_some_iff.mp here).1

theorem step_ok (inv : s.served.Inv .xenoPWM) (taken : s.step turn = some (.ok tr s')) :
    s.Step turn tr s' ∧ ∀ e ∈ tr, e.2.InBounds := by
  obtain ⟨_, _, same, step⟩ := step_taken inv taken
  cases same
  exact step

end Closing

/-! ## Runs -/

/-- Any number of clients have requests in flight while xenoPWM is unloaded, with one
    `PWM_INIT` among them at most.  Nothing goes wrong in the driver's tables.  The
    unloading is safe if no step of the run is harmful, and once `xeno_pwm_exit` has
    returned only then. -/
theorem unload_under_clients_safe_iff (gpio : Gpio) (turns : List ClosingTurn)
    (x : Traced (Agent × Event) Fault Closing)
    (one : xenoClosing.Guarded Closing.OneInit (.load gpio) turns)
    (run : xenoClosing.run (.load gpio) turns = some x) :
    ∃ tr s, x = .ok tr s ∧ (∀ e ∈ tr, e.2.InBounds) ∧
      (xenoClosing.Guarded Closing.Harmless (.load gpio) turns → SafeUnload tr s.sys) ∧
      (s.exit = .tail [] → (SafeUnload tr s.sys ↔
        xenoClosing.Guarded Closing.Harmless (.load gpio) turns)) := by
  obtain ⟨tr, s, rfl⟩ := one.run_ok (I := fun s => s.served.Inv .xenoPWM)
    (Concurrent.load_inv .xenoPWM gpio) (fun {s turn x} inv one taken => by
      obtain ⟨tr, s', rfl, step, -⟩ := Closing.step_taken inv taken
      exact ⟨tr, s', rfl, step.inv inv one⟩) run
  have bounds : (∀ e ∈ tr, e.2.InBounds) ∧ s.served.Inv .xenoPWM := by
    refine Machine.Reaches.guarded_induction (Q := fun tr s => (∀ e ∈ tr, e.2.InBounds) ∧
      s.served.Inv .xenoPWM) run one ⟨by simp, Concurrent.load_inv .xenoPWM gpio⟩ ?_
    rintro tr s turn tr' s' ⟨bounds, inv⟩ one taken
    obtain ⟨step, now⟩ := Closing.step_ok inv taken
    refine ⟨fun e member => ?_, step.inv inv one⟩
    exact (List.mem_append.mp member).elim (bounds e) (now e)
  refine ⟨tr, s, rfl, bounds.1, ?_⟩
  have split := Machine.Reaches.guarded_or_left_under (G := Closing.Harmless)
    (Q := Closing.Retiring) (B := fun tr s => s.served.Inv .xenoPWM ∧ Doomed tr s.sys) run one
    (Closing.Retiring.load gpio)
    (fun retiring one harmless taken =>
      (Closing.step_ok retiring.inv taken).1.retiring retiring one harmless)
    (fun retiring one harmful taken =>
      have step := (Closing.step_ok retiring.inv taken).1
      ⟨step.inv retiring.inv one, retiring.doomed step harmful⟩)
    (fun ⟨inv, doomed⟩ one taken =>
      have step := (Closing.step_ok inv taken).1
      ⟨step.inv inv one, step.doomed inv doomed⟩)
  rcases split with ⟨guarded, retiring⟩ | ⟨unguarded, -, doomed⟩
  · exact ⟨fun _ => retiring.safe, fun _ => iff_of_true retiring.safe guarded⟩
  · exact ⟨fun guarded => absurd guarded unguarded,
      fun done => iff_of_false (doomed.at_end done) unguarded⟩

theorem Closing.oneInit_other (s : Closing)
    (other : ∀ c args outcome, turn ≠ .turn (.enter c (.pwmInit args) outcome)) : s.OneInit turn := by
  cases turn with
  | exit => trivial
  | turn turn =>
      cases turn with
      | statement | task => trivial
      | enter c req outcome =>
          cases req with
          | pinSet | gpioSet | pwmSet => trivial
          | pwmInit args => exact absurd rfl (other c args outcome)

/-- A `PWM_INIT` has created its task when `xeno_pwm_exit` begins.  It is destroyed if the
    slot is counted before the loop ends. -/
def countedInTime : List ClosingTurn :=
  .turn (.enter 0 (.pwmInit ⟨16, 0, 100⟩) .created) :: (List.replicate 6 (.turn (.statement 0)) ++
    [.exit, .turn (.statement 0), .exit, .turn (.task 0 false), .turn (.task 0 false), .exit, .exit,
      .exit, .exit])

/-- It is not if the loop ends first. -/
def countedTooLate : List ClosingTurn :=
  .turn (.enter 0 (.pwmInit ⟨16, 0, 100⟩) .created) :: (List.replicate 6 (.turn (.statement 0)) ++
    [.exit, .exit, .turn (.statement 0), .exit, .exit])

theorem unload_under_clients_safe_iff_in_flight :
    (∃ tr s, xenoClosing.Reaches (.load .reset) countedInTime tr s ∧ s.exit = .tail [] ∧
      s.served.world.tasks.length = 1 ∧ SafeUnload tr s.sys) ∧
    ∃ tr s, xenoClosing.Reaches (.load .reset) countedTooLate tr s ∧ s.exit = .tail [] ∧
      ¬ SafeUnload tr s.sys := by
  constructor
  · obtain ⟨tr, s, reach, test⟩ := Machine.exists_reaches xenoClosing (.load .reset) countedInTime
      (fun _ s => decide (s.exit = .tail [] ∧ s.served.world.tasks.length = 1)) (by decide)
    obtain ⟨done, length⟩ := of_decide_eq_true test
    obtain ⟨_, _, same, -, safe, -⟩ := unload_under_clients_safe_iff .reset countedInTime _
      ⟨⟨Nat.succ_pos 4, nofun⟩, fun _ _ _ => .of_forall fun turn member s => s.oneInit_other (by
        rintro c args outcome rfl
        simp at member)⟩ reach
    cases same
    refine ⟨tr, s, reach, done, length, safe ?_⟩
    exact Machine.guarded_of_checks (fun _ _ => of_decide_eq_true) (by decide)
  · obtain ⟨tr, s, reach, test⟩ := Machine.exists_reaches xenoClosing (.load .reset) countedTooLate
      (fun _ s => decide (s.exit = .tail [] ∧ ∃ t ∈ s.served.world.tasks, t.pc ≠ .returned))
      (by decide)
    obtain ⟨done, t, member, going⟩ := of_decide_eq_true test
    exact ⟨tr, s, reach, done, fun safe => going (safe.ended done t member)⟩

end KsoftPWM
