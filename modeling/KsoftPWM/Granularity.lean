import KsoftPWM.Accesses

/-! # Access by access and statement by statement

Where requests to open a channel do not race it makes no difference that a statement is made of
several accesses: what they read, `pwm_pin_count` and an entry that is not in use yet, nobody
else changes in between.  So a run in which every access is a step shows what some run shows in
which every statement is one.
-/

namespace KsoftPWM

/-- `PWM_INIT` is issued while a slot is free and no other `PWM_INIT` is in flight. -/
def OneOpener (s : Contending) : Turn → Prop
  | .enter _ (.pwmInit _) _ => s.world.pwmPinCount < maxPwmNum ∧
      ∀ c f, s.flight c = some f → f.req.isInit = false
  | _ => True

/-- The world once the request that opens a channel has stored what it has still to store in the
    task table. -/
def World.recording (w : World) (late : Option TaskRef) : World :=
  { w with
    taskTable := match late with
      | none => w.taskTable
      | some ref =>
          if h : w.pwmPinCount < maxPwmNum then w.taskTable.set w.pwmPinCount ref else w.taskTable }

/-- Where a request is statement by statement, and where it is access by access. -/
inductive Splits (count : Nat) (late : Option TaskRef) (outcome : CreateOutcome) :
    ClientPc → RacerPc → Prop where
  -- The statement has not taken effect yet.
  | reads {args stmt rest done left} {o : Opener} : late = none → stmt.reads = done ++ left →
      o.todo = left ++ stmt.effect :: (stmt.trailing ++ rest.flatMap Stmt.ops) →
      o.Fresh args outcome → o.UpToDate count done →
      Splits count late outcome (.before (.init args outcome (stmt :: rest))) (.opening o)
  -- `kthread_create` has, and what it has returned is still to be stored.
  | stores {args rest} {o : Opener} : late = some o.task → rest ≠ [] →
      o.todo = .index :: .storeTask :: rest.flatMap Stmt.ops ∨
        o.index = count ∧ o.todo = .storeTask :: rest.flatMap Stmt.ops →
      o.Fresh args outcome →
      Splits count late outcome (.before (.init args outcome rest)) (.opening o)
  -- `IS_ERR` has held, and the entry is still to be cleared.
  | fails {args rest done why} {o : Opener} : late = none → outcome = .failed why →
      failedOps = done ++ o.todo → o.todo ≠ [] → (.index ∈ done → o.index = count) →
      (.ptrErr ∈ done → o.err = why.value) →
      Splits count late outcome (.before (.init args outcome (.isErr :: rest))) (.opening o)
  -- `rtdm_task_init` has failed, and this is still to be printed.
  | refused {args rest why} {o : Opener} : late = none → outcome = .failed why →
      o.todo = [.index] → o.err = why.value →
      Splits count late outcome (.before (.init args outcome (.rtdmTaskInit :: rest))) (.opening o)
  | scan {pin duty i} : Splits count late outcome (.before (.scan pin duty i)) (.scan pin duty i)
  | look {pin duty i} : i < count →
      Splits count late outcome (.before (.scan pin duty i)) (.look pin duty i)
  | same {pc : ClientPc} : (∀ args outcome todo, pc ≠ .before (.init args outcome todo)) →
      (∀ pin duty i, pc ≠ .before (.scan pin duty i)) → Splits count late outcome pc (.other pc)

/-- A request in flight in both runs. -/
structure Flight.SplitInto (count : Nat) (late : Option TaskRef) (f : Flight) (g : Racer) : Prop where
  req : g.req = f.req
  outcome : g.outcome = f.outcome
  pc : Splits count late f.outcome f.pc g.pc

/-- The state of a run statement by statement that shows the same as one access by access. -/
structure Coarse (D : Driver) (late : Option TaskRef) (s : Concurrent) (t : Contending) : Prop where
  inv : s.Inv D
  world : s.world = t.world.recording late
  flights : ∀ c, Option.Rel (Flight.SplitInto t.world.pwmPinCount late) (s.flight c) (t.flight c)
  late : ∀ ref, late = some ref → ∃ c f, s.flight c = some f ∧ f.req.isInit = true

variable {D : Driver} {address : Nat → Int} {s s' : Concurrent} {t : Contending} {w w' : World}
  {late late' : Option TaskRef} {c count : Nat} {f : Flight} {g : Racer} {o o' : Opener}
  {op : InitOp} {args : InitArgs} {outcome : CreateOutcome} {stmt : Stmt} {rest : List Stmt}
  {done left : List InitOp} {raw : List Event} {next : RacerPc}

/-! ## The two runs -/

/-- A step that is matched by a run statement by statement. -/
def Matched (D : Driver) (s : Concurrent) (tr : List Occurrence) (t : Contending) : Prop :=
  ∃ s', D.concurrent.Plays OneInit Occurrence.shown s (tr.filterMap Occurrence.shown) s' ∧
    ∃ late, Coarse D late s' t

theorem Splits.other {count' : Nat} {T : Tables} (splits : Splits count late f.outcome f.pc next)
    (sound : f.Sound D T) (other : f.req.isInit = false) (le : count ≤ count') :
    Splits count' late' f.outcome f.pc next := by
  obtain ⟨req, outcome, pc⟩ := f
  simp only at splits ⊢
  cases splits with
  | scan => exact .scan
  | look below => exact .look (Nat.lt_of_lt_of_le below le)
  | same noInit noScan => exact .same noInit noScan
  | reads | stores | fails | refused =>
      obtain ⟨rfl, -⟩ := sound
      cases other

/-- A client has moved on in the one run, and the other run has kept up. -/
theorem Coarse.put {next : Option Racer} (coarse : Coarse D late s t) (inv : s'.Inv D)
    (world : s'.world = w.recording late')
    (unmoved : ∀ c', c' ≠ c → s'.flight c' = s.flight c')
    (mine : Option.Rel (Flight.SplitInto w.pwmPinCount late') (s'.flight c) next)
    (others : w.pwmPinCount = t.world.pwmPinCount ∧ late' = late ∨
      t.world.pwmPinCount ≤ w.pwmPinCount ∧
        ∀ c' f, c' ≠ c → s.flight c' = some f → f.req.isInit = false)
    (stores : ∀ ref, late' = some ref → ∃ c f, s'.flight c = some f ∧ f.req.isInit = true) :
    Coarse D late' s' (t.put w c next) where
  inv := inv
  world := world
  late := stores
  flights := by
    intro c'
    by_cases same : c' = c
    · subst same
      rw [Contending.flight_put_self]
      exact mine
    · rw [Contending.flight_put_other same, unmoved c' same]
      have before := coarse.flights c'
      rcases others with ⟨count, rfl⟩ | ⟨le, alone⟩
      · rw [Contending.put_world, count]
        exact before
      · generalize there : s.flight c' = x at before
        generalize t.flight c' = y at before
        cases before with
        | none => exact .none
        | some split =>
            exact .some ⟨split.req, split.outcome,
              split.pc.other (coarse.inv.sound c' _ there) (alone c' _ same there) le⟩

theorem concurrent_plays (inv : s.Inv D) (here : s.flight c = some f) {next : ClientPc}
    (run : f.pc.step s.world = .ok raw (w, next)) :
    D.concurrent.Plays OneInit Occurrence.shown s
      ((raw.map Occurrence.event ++ f.answered c next).filterMap Occurrence.shown)
      (s.put w c (f.after next)) ∧ (s.put w c (f.after next)).Inv D := by
  have taken : D.concurrent.step s (.statement c) =
      some (.ok (raw.map .event ++ f.answered c next) (s.put w c (f.after next))) := by
    simp [Driver.concurrent, Concurrent.step, here, Concurrent.advance_ok run]
  have one : OneInit s (.statement c) := trivial
  have step : Concurrent.Step D s (.statement c) _ _ := inv.taken_ok taken
  exact ⟨Machine.Plays.step taken one, inv.next one step⟩

/-- The request of another client than the one that opens a channel. -/
theorem Coarse.moves_other {next : ClientPc} {next' : RacerPc} (coarse : Coarse D late s t)
    (here : s.flight c = some f) (other : f.req.isInit = false)
    (coarser : f.pc.step s.world = .ok raw (w.recording late, next))
    (finer : g.pc.step address t.world = .ok raw (w, next'))
    (count : w.pwmPinCount = t.world.pwmPinCount)
    (answers : g.answered c next' = f.answered c next)
    (mine : Option.Rel (Flight.SplitInto w.pwmPinCount late) (f.after next) (g.after next')) :
    ∃ tr t', t.advance address c g = .ok tr t' ∧ Matched D s tr t' := by
  obtain ⟨plays, inv⟩ := concurrent_plays coarse.inv here coarser
  refine ⟨_, _, Contending.advance_ok finer, _, by rw [answers]; exact plays, late, ?_⟩
  refine coarse.put inv rfl (fun c' away => Concurrent.flight_put_other away _ _) ?_
    (.inl ⟨count, rfl⟩) fun ref held => ?_
  · rw [Concurrent.flight_put_self]
    exact mine
  · obtain ⟨c', f', opener, init⟩ := coarse.late ref held
    have away : c' ≠ c := by
      rintro rfl
      obtain rfl := Option.some.inj (opener.symm.trans here)
      exact absurd (init.symm.trans other) (by decide)
    exact ⟨c', f', (Concurrent.flight_put_other away _ _).trans opener, init⟩

theorem answered_other (split : f.SplitInto count late g) (next : ClientPc) :
    g.answered c (.other next) = f.answered c next := by
  rw [Racer.answered.eq_def, Flight.answered.eq_def, split.req, split.outcome]
  cases next with
  | between => rfl
  | before call => cases call <;> rfl

theorem after_other (split : f.SplitInto count late g) {next : ClientPc}
    (ends : next = .before (.returned 0) ∨ ∃ pin type old, next = .between pin type old) :
    Option.Rel (Flight.SplitInto count late) (f.after next) (g.after (.other next)) := by
  rcases ends with rfl | ⟨pin, type, old, rfl⟩
  · exact .none
  · exact .some ⟨split.req, split.outcome, .same (by simp) (by simp)⟩

/-- A statement that opens no channel and scans for none. -/
theorem Flight.Sound.same {T : Tables} (sound : f.Sound D T)
    (noInit : ∀ args outcome todo, f.pc ≠ .before (.init args outcome todo))
    (noScan : ∀ pin duty i, f.pc ≠ .before (.scan pin duty i)) (w : World)
    (late : Option TaskRef) (inside : ∀ pos duty, f.pc = .before (.update pos duty) → pos < maxPwmNum) :
    ∃ raw v next, f.pc.step (w.recording late) = .ok raw (v.recording late, next) ∧
      f.pc.step w = .ok raw (v, next) ∧ v.pwmPinCount = w.pwmPinCount ∧
      (next = .before (.returned 0) ∨ ∃ pin type old, next = .between pin type old) := by
  obtain ⟨req, outcome, pc⟩ := f
  cases pc with
  | between pin type old =>
      obtain ⟨rfl, -⟩ := sound
      exact ⟨_, { w with gpio := w.gpio.store (modeWord pin) (modeValue pin type old) }, _, rfl, rfl, rfl,
        .inl rfl⟩
  | before call =>
      cases call with
      | init => exact absurd rfl (noInit _ _ _)
      | scan => exact absurd rfl (noScan _ _ _)
      | returned => exact sound.elim
      | pinSet pin type =>
          obtain rfl := sound
          by_cases valid : ValidType type
          · exact ⟨_, w, _, step_load pin (w.recording late) valid, step_load pin w valid, rfl,
              .inr ⟨_, _, _, rfl⟩⟩
          · exact ⟨[], w, _, step_ignore pin _ valid, step_ignore pin w valid, rfl, .inl rfl⟩
      | gpioSet pin status =>
          obtain rfl := sound
          have run : ∃ raw g, gpioStatus pin status w = .ok raw { w with gpio := g } ∧
              gpioStatus pin status (w.recording late) = .ok raw { w.recording late with gpio := g } := by
            unfold gpioStatus
            split
            · exact ⟨[], w.gpio, rfl, rfl⟩
            · split <;> exact ⟨_, _, rfl, rfl⟩
          obtain ⟨raw, g, run, run'⟩ := run
          exact ⟨raw, { w with gpio := g }, .before (.returned 0),
            by simp [ClientPc.step, Call.step_gpioSet run']; rfl,
            by simp [ClientPc.step, Call.step_gpioSet run], rfl, .inl rfl⟩
      | update pos duty =>
          obtain ⟨pin, slot, rfl, -⟩ := sound
          have inside := inside pos duty rfl
          exact ⟨[.subscript .dutyArray pos, .subscript .dutyArray pos], w.withDuty pos inside duty,
            .before (.returned 0), by simp [ClientPc.step, Call.step_update inside]; rfl,
            by simp [ClientPc.step, Call.step_update inside, World.withDuty], rfl, .inl rfl⟩

theorem Coarse.other_statement (coarse : Coarse D late s t) (address : Nat → Int)
    (here : s.flight c = some f) (split : f.SplitInto t.world.pwmPinCount late g)
    (other : f.req.isInit = false) :
    ∃ tr t', t.advance address c g = .ok tr t' ∧ Matched D s tr t' := by
  have sound := coarse.inv.sound c f here
  have bound : t.world.pwmPinCount ≤ maxPwmNum := by
    have established := coarse.inv.established.bound
    rw [coarse.world] at established
    exact established
  obtain ⟨req, outcome, pc⟩ := f
  obtain ⟨req', outcome', pc'⟩ := g
  obtain ⟨rfl, rfl, pcs⟩ := split
  simp only at pcs
  cases pcs with
  | reads | stores | fails | refused =>
      obtain ⟨rfl, -⟩ := sound
      cases other
  | @same pc noInit noScan =>
      have inside : ∀ pos duty, pc = .before (.update pos duty) → pos < maxPwmNum := by
        rintro pos duty rfl
        obtain ⟨pin, slot, -, below, -⟩ := sound
        rw [coarse.world] at below
        exact Nat.lt_of_lt_of_le below bound
      obtain ⟨raw, v, next, coarser, finer, count, ends⟩ :=
        sound.same noInit noScan t.world late inside
      have again : Flight.SplitInto v.pwmPinCount late ⟨req', outcome', pc⟩ ⟨req', outcome', .other pc⟩ :=
        ⟨rfl, rfl, .same noInit noScan⟩
      have steps : RacerPc.step address t.world (.other pc) = .ok raw (v, .other next) := by
        simp only at finer
        simp [RacerPc.step, finer]
      exact coarse.moves_other here other (coarse.world ▸ coarser) steps count
        (answered_other again next) (after_other again ends)
  | @scan pin duty i =>
      by_cases more : i < t.world.pwmPinCount
      · have steps : RacerPc.step address t.world (.scan pin duty i) =
            .ok [] (t.world, .look pin duty i) := by
          simp [RacerPc.step, more]
        refine ⟨_, _, Contending.advance_ok steps, s, .refl s, late, ?_⟩
        refine coarse.put coarse.inv coarse.world (fun _ _ => rfl) ?_ (.inl ⟨rfl, rfl⟩) coarse.late
        rw [here]
        exact .some ⟨rfl, rfl, .look more⟩
      · have finish : ¬ i < (t.world.recording late).pwmPinCount := more
        have steps : RacerPc.step address t.world (.scan pin duty i) =
            .ok [] (t.world, .returned 0) := by
          simp [RacerPc.step, more]
        have returns : (ClientPc.before (.scan pin duty i)).step s.world =
            .ok [] (t.world.recording late, .before (.returned 0)) := by
          simp [coarse.world, ClientPc.step, Call.step_scan_end finish]
        exact coarse.moves_other here other returns steps rfl rfl .none
  | @look pin duty i below =>
      have inside : i < maxPwmNum := Nat.lt_of_lt_of_le below bound
      have more : i < (t.world.recording late).pwmPinCount := below
      have looks : ∀ {next : Call} {next' : RacerPc},
          (if t.world.dutyArray[i].pin = pin then Call.update i duty else .scan pin duty (i + 1)) = next →
          (if t.world.dutyArray[i].pin = pin then RacerPc.other (.before (.update i duty))
            else .scan pin duty (i + 1)) = next' →
          (ClientPc.before (.scan pin duty i)).step s.world =
            .ok [.subscript .dutyArray i] (t.world.recording late, .before next) ∧
          RacerPc.step address t.world (.look pin duty i) =
            .ok [.subscript .dutyArray i] (t.world, next') := by
        rintro _ _ rfl rfl
        constructor
        · simp [coarse.world, ClientPc.step, Call.step_scan more inside]
          rfl
        · simp [RacerPc.step, World.slot_eq inside]
      by_cases found : t.world.dutyArray[i].pin = pin
      · obtain ⟨reads, steps⟩ := looks (if_pos found) (if_pos found)
        exact coarse.moves_other here other reads steps rfl rfl (.some ⟨rfl, rfl, .same (by simp) (by simp)⟩)
      · obtain ⟨reads, steps⟩ := looks (if_neg found) (if_neg found)
        exact coarse.moves_other here other reads steps rfl rfl (.some ⟨rfl, rfl, .scan⟩)

theorem Opener.opening_step (at_ : g.pc = .opening o) (steps : o.step address w = .ok raw (w', o')) :
    g.pc.step address w = .ok raw (w', .resume o') := by
  simp [at_, RacerPc.step, steps]

/-- The request that opens a channel makes the access with which its statement takes effect. -/
theorem Coarse.moves_opener {next : ClientPc} {raw' : List Event} (coarse : Coarse D late s t)
    (here : s.flight c = some f) (init : f.req.isInit = true) (at_ : g.pc = .opening o)
    (finer : o.step address t.world = .ok raw (w, o')) (hidden : Hidden raw)
    (coarser : f.pc.step s.world = .ok raw' (w.recording late', next)) (hidden' : Hidden raw')
    (count : t.world.pwmPinCount ≤ w.pwmPinCount)
    (answers : g.answered c (.resume o') = f.answered c next)
    (mine : Option.Rel (Flight.SplitInto w.pwmPinCount late') (f.after next) (g.after (.resume o')))
    (stores : late' = none ∨ ∃ f', f.after next = some f' ∧ f'.req.isInit = true) :
    ∃ tr t', t.advance address c g = .ok tr t' ∧ Matched D s tr t' := by
  obtain ⟨plays, inv⟩ := concurrent_plays coarse.inv here coarser
  refine ⟨_, _, Contending.advance_ok (Opener.opening_step at_ finer),
    s.put (w.recording late') c (f.after next), ?_, late', ?_⟩
  · rw [List.filterMap_append, hidden_shown hidden, answers]
    rw [List.filterMap_append, hidden_shown hidden'] at plays
    exact plays
  · refine coarse.put inv rfl (fun c' away => Concurrent.flight_put_other away _ _) ?_
      (.inr ⟨count, fun c' f' away there => ?_⟩) ?_
    · rw [Concurrent.flight_put_self]
      exact mine
    · rw [← Bool.not_eq_true]
      exact fun init' => away (coarse.inv.alone c' c f' f there here init' init)
    · rintro ref rfl
      obtain ⟨f', after, init'⟩ := stores.resolve_left (by simp)
      exact ⟨c, f', (Concurrent.flight_put_self _ _).trans after, init'⟩

/-- It makes one with which no statement takes effect. -/
theorem Coarse.rests (coarse : Coarse D late s t) (here : s.flight c = some f)
    (init : f.req.isInit = true) (at_ : g.pc = .opening o)
    (finer : o.step address t.world = .ok raw (w, o')) (hidden : Hidden raw)
    (world : s.world = w.recording late') (count : t.world.pwmPinCount ≤ w.pwmPinCount)
    (mine : f.SplitInto w.pwmPinCount late' { g with pc := .opening o' }) (more : o'.todo ≠ []) :
    ∃ tr t', t.advance address c g = .ok tr t' ∧ Matched D s tr t' := by
  have resumed : RacerPc.resume o' = .opening o' := if_neg more
  refine ⟨_, _, Contending.advance_ok (Opener.opening_step at_ finer), s, ?_, late', ?_⟩
  · rw [List.filterMap_append, hidden_shown hidden, resumed]
    exact .refl s
  · refine coarse.put coarse.inv world (fun _ _ => rfl) ?_ (.inr ⟨count, fun c' f' away there => ?_⟩)
      (fun _ _ => ⟨c, f, here, init⟩)
    · rw [here, resumed]
      exact .some mine
    · rw [← Bool.not_eq_true]
      exact fun init' => away (coarse.inv.alone c' c f' f there here init' init)

/-! ## Opening a channel -/

theorem recording_some (inside : w.pwmPinCount < maxPwmNum) (ref : TaskRef) :
    w.recording (some ref) = { w with taskTable := w.taskTable.set w.pwmPinCount ref } := by
  simp only [World.recording, inside, ↓reduceDIte]

/-- The next statement of the branch is to begin. -/
theorem Splits.begin (todo : o.todo = rest.flatMap Stmt.ops) (more : rest ≠ [])
    (fresh : o.Fresh args outcome) :
    Splits count none outcome (.before (.init args outcome rest)) (.opening o) := by
  obtain ⟨stmt, rest, rfl⟩ := List.exists_cons_of_ne_nil more
  refine .reads rfl (List.nil_append stmt.reads).symm ?_ fresh ⟨by simp, by simp, by simp⟩
  rw [todo, List.flatMap_cons, Stmt.ops_eq, List.append_assoc, List.cons_append]

theorem Coarse.reads (coarse : Coarse D none s t) (address : Nat → Int)
    (here : s.flight c = some ⟨.pwmInit args, outcome, .before (.init args outcome (stmt :: rest))⟩)
    (inside : t.world.pwmPinCount < maxPwmNum) (split : stmt.reads = done ++ op :: left)
    (todo : o.todo = op :: (left ++ stmt.effect :: (stmt.trailing ++ rest.flatMap Stmt.ops)))
    (fresh : o.Fresh args outcome) (seen : o.UpToDate t.world.pwmPinCount done) :
    ∃ tr t', t.advance address c ⟨.pwmInit args, outcome, .opening o⟩ = .ok tr t' ∧
      Matched D s tr t' := by
  obtain ⟨raw, o', steps, hidden, made, seen'⟩ :=
    Opener.step_read address split todo seen inside
  refine coarse.rests here rfl rfl steps hidden coarse.world (Nat.le_refl _) ⟨rfl, rfl, ?_⟩ ?_
  · exact .reads rfl (by rw [split, List.append_assoc]; rfl) made.todo (made.fresh fresh) seen'
  · rw [made.todo]
    simp

theorem Coarse.stores (coarse : Coarse D (some o.task) s t) (address : Nat → Int)
    (here : s.flight c = some ⟨.pwmInit args, outcome, .before (.init args outcome rest)⟩)
    (inside : t.world.pwmPinCount < maxPwmNum) (more : rest ≠ [])
    (todo : o.todo = .index :: .storeTask :: rest.flatMap Stmt.ops ∨
      o.index = t.world.pwmPinCount ∧ o.todo = .storeTask :: rest.flatMap Stmt.ops)
    (fresh : o.Fresh args outcome) :
    ∃ tr t', t.advance address c ⟨.pwmInit args, outcome, .opening o⟩ = .ok tr t' ∧
      Matched D s tr t' := by
  rcases todo with todo | ⟨index, todo⟩
  · have steps := Opener.step_index address t.world todo
    exact coarse.rests here rfl rfl steps hidden_nil coarse.world (Nat.le_refl _)
      ⟨rfl, rfl, .stores rfl more (.inr ⟨rfl, rfl⟩) fresh⟩ (List.cons_ne_nil _ _)
  · have within : o.index < maxPwmNum := index ▸ inside
    have steps := Opener.step_exec (w := t.world) address todo (Opener.free_of_ne (by decide))
      (Opener.exec_storeTask (o := { o with todo := rest.flatMap Stmt.ops }) within)
    refine coarse.rests here rfl rfl steps hidden_subscript ?_ (Nat.le_refl _)
      ⟨rfl, rfl, .begin rfl more fresh⟩ (flatMap_ops_ne_nil more)
    rw [coarse.world, recording_some inside]
    simp only [index]
    rfl

theorem Coarse.fails (coarse : Coarse D none s t) (address : Nat → Int) {why : Errno}
    (here : s.flight c =
      some ⟨.pwmInit args, .failed why, .before (.init args (.failed why) (.isErr :: rest))⟩)
    (inside : t.world.pwmPinCount < maxPwmNum)
    (error : t.world.taskTable[t.world.pwmPinCount] = .error why)
    (split : failedOps = done ++ o.todo) (todo : o.todo ≠ [])
    (index : .index ∈ done → o.index = t.world.pwmPinCount) (err : .ptrErr ∈ done → o.err = why.value) :
    ∃ tr t', t.advance address c ⟨.pwmInit args, .failed why, .opening o⟩ = .ok tr t' ∧
      Matched D s tr t' := by
  obtain ⟨op, more, todo⟩ := List.exists_cons_of_ne_nil todo
  rw [todo] at split
  have later : failedOps = (done ++ [op]) ++ more := by rw [split, List.append_assoc]; rfl
  rcases failedOps_split split with ⟨rfl, left⟩ | ⟨rfl, left, read⟩ | ⟨rfl, rfl, read, known⟩
  · have steps := Opener.step_index address t.world todo
    exact coarse.rests here rfl rfl steps hidden_nil coarse.world (Nat.le_refl _)
      ⟨rfl, rfl, .fails rfl rfl later left (fun _ => rfl) fun member => err (by simpa using member)⟩ left
  · have within : o.index < maxPwmNum := index read ▸ inside
    have steps := Opener.step_exec (w := t.world) address todo (Opener.free_of_ne (by decide))
      (Opener.exec_ptrErr (o := { o with todo := more }) within)
    refine coarse.rests here rfl rfl steps hidden_subscript coarse.world (Nat.le_refl _)
      ⟨rfl, rfl, .fails rfl rfl later left (fun _ => index read) fun _ => ?_⟩ left
    simp only [index read, error]
    rfl
  · have within : o.index < maxPwmNum := index read ▸ inside
    have steps := Opener.step_exec (w := t.world) address todo (Opener.free_of_ne (by decide))
      (Opener.exec_storeNull (o := { o with todo := [] }) within)
    have world : s.world = t.world := coarse.world
    have breaks : (ClientPc.before (.init args (.failed why) (.isErr :: rest))).step s.world =
        .ok [.subscript .taskTable t.world.pwmPinCount, .subscript .taskTable t.world.pwmPinCount]
          (({ t.world with taskTable := t.world.taskTable.set o.index .null } : World).recording none,
            .before (.returned why.value)) := by
      rw [world]
      simp [ClientPc.step, Call.step_init_break (Stmt.exec_isErr_error inside error), index read]
      rfl
    refine coarse.moves_opener here rfl rfl steps hidden_subscript breaks hidden_subscripts
      (Nat.le_refl _) ?_ .none (.inl rfl)
    simp [RacerPc.resume, RacerPc.returned, Racer.answered, Flight.answered, err known]

theorem Coarse.refused (coarse : Coarse D none s t) (address : Nat → Int) {why : Errno}
    (here : s.flight c =
      some ⟨.pwmInit args, .failed why, .before (.init args (.failed why) (.rtdmTaskInit :: rest))⟩)
    (inside : t.world.pwmPinCount < maxPwmNum) (todo : o.todo = [.index]) (err : o.err = why.value) :
    ∃ tr t', t.advance address c ⟨.pwmInit args, .failed why, .opening o⟩ = .ok tr t' ∧
      Matched D s tr t' := by
  have steps := Opener.step_index address t.world todo
  have world : s.world = t.world := coarse.world
  have breaks : (ClientPc.before (.init args (.failed why) (.rtdmTaskInit :: rest))).step s.world =
      .ok [.subscript .taskName t.world.pwmPinCount, .subscript .taskTable t.world.pwmPinCount]
        (t.world.recording none, .before (.returned why.value)) := by
    rw [world]
    simp [ClientPc.step, Call.step_init_break (Stmt.exec_rtdmTaskInit_failed inside)]
    rfl
  refine coarse.moves_opener here rfl rfl steps hidden_nil breaks hidden_subscripts (Nat.le_refl _) ?_ .none
    (.inl rfl)
  simp [RacerPc.resume, RacerPc.returned, Racer.answered, Flight.answered, err]

theorem Coarse.creates (coarse : Coarse D none s t) (address : Nat → Int)
    (here : s.flight c =
      some ⟨.pwmInit args, outcome, .before (.init args outcome (.kthreadCreate :: rest))⟩)
    (inside : t.world.pwmPinCount < maxPwmNum) (more : rest ≠ [])
    (todo : o.todo = .kthreadCreate :: .index :: .storeTask :: rest.flatMap Stmt.ops)
    (fresh : o.Fresh args outcome) (seen : o.UpToDate t.world.pwmPinCount Stmt.kthreadCreate.reads) :
    ∃ tr t', t.advance address c ⟨.pwmInit args, outcome, .opening o⟩ = .ok tr t' ∧
      Matched D s tr t' := by
  have world : s.world = t.world := coarse.world
  have position : o.position = t.world.pwmPinCount := seen.position (by simp [Stmt.reads])
  have name : o.name = taskName[t.world.pwmPinCount] := seen.name_eq (by simp [Stmt.reads]) inside
  have resumed : Call.resume args outcome rest = .init args outcome rest := by
    obtain ⟨stmt, rest, rfl⟩ := List.exists_cons_of_ne_nil more
    rfl
  have runs : ∀ {raw w'}, Stmt.kthreadCreate.exec args outcome t.world = .ok raw (w', none) →
      (ClientPc.before (.init args outcome (.kthreadCreate :: rest))).step s.world =
        .ok raw (w', .before (.init args outcome rest)) := by
    intro raw w' run
    simp [world, ClientPc.step, Call.step_init_next run, resumed]
  cases outcome with
  | created =>
      have steps := Opener.step_exec (w := t.world) address todo (Opener.free_of_ne (by decide))
        (Opener.exec_kthreadCreate_created fresh.2.1)
      have runs : (ClientPc.before (.init args .created (.kthreadCreate :: rest))).step s.world =
          .ok [.subscript .taskName t.world.pwmPinCount, .subscript .taskTable t.world.pwmPinCount]
            ((t.world.spawnAt o.position o.name o.args .asleep).recording
              (some (.thread t.world.tasks.length)), .before (.init args .created rest)) := by
        rw [runs (Stmt.exec_kthreadCreate_created inside),
          recording_some (w := t.world.spawnAt o.position o.name o.args .asleep) inside]
        simp only [World.spawnAt, World.spawn, position, name, fresh.1]
      exact coarse.moves_opener here rfl rfl steps hidden_nil runs hidden_subscripts (Nat.le_refl _) rfl
        (.some ⟨rfl, rfl, .stores rfl more (.inl rfl) fresh⟩) (.inr ⟨_, rfl, rfl⟩)
  | failed why =>
      have steps := Opener.step_exec (w := t.world) address todo (Opener.free_of_ne (by decide))
        (Opener.exec_kthreadCreate_failed fresh.2.1)
      have runs : (ClientPc.before (.init args (.failed why) (.kthreadCreate :: rest))).step s.world =
          .ok [.subscript .taskName t.world.pwmPinCount, .subscript .taskTable t.world.pwmPinCount]
            (t.world.recording (some (.error why)), .before (.init args (.failed why) rest)) := by
        rw [runs (Stmt.exec_kthreadCreate_failed inside), recording_some inside]
      exact coarse.moves_opener here rfl rfl steps hidden_nil runs hidden_subscripts (Nat.le_refl _) rfl
        (.some ⟨rfl, rfl, .stores rfl more (.inl rfl) fresh⟩) (.inr ⟨_, rfl, rfl⟩)

theorem Coarse.takes_effect (coarse : Coarse D none s t) (address : Nat → Int)
    (here : s.flight c = some ⟨.pwmInit args, outcome, .before (.init args outcome (stmt :: rest))⟩)
    (opening : t.world.tables.Opening D args outcome (stmt :: rest))
    (todo : o.todo = stmt.effect :: (stmt.trailing ++ rest.flatMap Stmt.ops))
    (fresh : o.Fresh args outcome) (seen : o.UpToDate t.world.pwmPinCount stmt.reads) :
    ∃ tr t', t.advance address c ⟨.pwmInit args, outcome, .opening o⟩ = .ok tr t' ∧
      Matched D s tr t' := by
  have inside : t.world.pwmPinCount < maxPwmNum := opening.room
  have world : s.world = t.world := coarse.world
  have index : o.index = t.world.pwmPinCount := seen.index (by cases stmt <;> simp [Stmt.reads])
  have within : o.index < maxPwmNum := index ▸ inside
  by_cases create : stmt = .kthreadCreate
  · subst create
    exact coarse.creates address here inside (code_more opening.code (by decide)) todo fresh seen
  have unrecorded : stmt = .rtdmTaskInit → t.world.taskTable[t.world.pwmPinCount]? = some .null := by
    rintro rfl
    obtain ⟨rfl, rfl⟩ := code_rtdmTaskInit opening.code
    have spawned := opening.spawned
    simp only [Tables.Spawned, Driver.creates, List.mem_cons, true_or, ↓reduceIte] at spawned
    exact spawned.2
  obtain ⟨raw, w', brk, run, -, -⟩ := opening.advances
  cases brk with
  | some err =>
      obtain ⟨why, rfl, rfl⟩ := opening.breaks run
      rcases Stmt.exec_breaks run inside with ⟨rfl, why', error⟩ | ⟨rfl, -⟩
      · have steps := Opener.step_exec (w := t.world) address todo (Opener.free_of_ne (by decide))
          (Opener.exec_isErr_error within (by simp only [index]; exact error))
        exact coarse.rests here rfl rfl steps hidden_subscript coarse.world (Nat.le_refl _)
          ⟨rfl, rfl, .fails rfl rfl (List.nil_append failedOps).symm (by simp [failedOps])
            (by simp) (by simp)⟩
          (by simp [failedOps])
      · have free : o.reuses t.world .rtdmTaskInit = false :=
          Opener.free_of_null (index ▸ unrecorded rfl)
        have steps := Opener.step_exec (w := t.world) address todo free
          (Opener.exec_rtdmTaskInit_failed within fresh.2.1)
        exact coarse.rests here rfl rfl steps hidden_subscript coarse.world (Nat.le_refl _)
          ⟨rfl, rfl, .refused rfl rfl rfl rfl⟩ (List.cons_ne_nil _ _)
  | none =>
      obtain ⟨args', same, err⟩ := fresh
      subst args' same
      obtain ⟨hidden', raw', o', steps, hidden, done⟩ :=
        stmt.takes_effect address run inside todo seen unrecorded create
      have runs : (ClientPc.before (.init o.args o.outcome (stmt :: rest))).step s.world =
          .ok raw (w'.recording none, .before (.resume o.args o.outcome rest)) := by
        simp [world, ClientPc.step, Call.step_init_next run]
        rfl
      have count : t.world.pwmPinCount ≤ w'.pwmPinCount := by
        rw [(Stmt.exec_frame run).count]
        exact Nat.le_add_right _ _
      have left : o'.todo = rest.flatMap Stmt.ops := by
        rw [done.todo]
        cases stmt <;> first | exact absurd rfl create | rfl
      cases rest with
      | nil =>
          have finished : RacerPc.resume o' = .returned 0 := by
            rw [RacerPc.resume, if_pos (show o'.todo = [] from left), done.err, err]
          refine coarse.moves_opener here rfl rfl steps hidden runs hidden' count ?_ ?_ (.inl rfl)
          · rw [finished]
            rfl
          · rw [finished]
            exact .none
      | cons next rest =>
          have goes : RacerPc.resume o' = .opening o' :=
            if_neg (left ▸ flatMap_ops_ne_nil (List.cons_ne_nil _ _))
          refine coarse.moves_opener here rfl rfl steps hidden runs hidden' count ?_ ?_ (.inl rfl)
          · rw [goes]
            rfl
          · rw [goes]
            exact .some ⟨rfl, rfl, .begin left (List.cons_ne_nil _ _) (done.fresh ⟨rfl, rfl, err⟩)⟩

theorem Coarse.opener_statement (coarse : Coarse D late s t) (address : Nat → Int)
    (here : s.flight c = some f) (split : f.SplitInto t.world.pwmPinCount late g)
    (init : f.req.isInit = true) :
    ∃ tr t', t.advance address c g = .ok tr t' ∧ Matched D s tr t' := by
  obtain ⟨args, outcome, todo, rfl, -, opening, -⟩ := (coarse.inv.sound c f here).opening init
  obtain ⟨req, outcome', pc⟩ := g
  obtain ⟨same, same', pcs⟩ := split
  simp only at same same' pcs
  subst same same'
  have world := coarse.world
  have inside : t.world.pwmPinCount < maxPwmNum := by
    have room := opening.room
    rw [world] at room
    exact room
  cases pcs with
  | same noInit => exact absurd rfl (noInit _ _ _)
  | @reads _ stmt rest done left o none_ split todo fresh seen =>
      subst none_
      cases left with
      | nil =>
          rw [List.append_nil] at split
          rw [show s.world = t.world from world] at opening
          exact coarse.takes_effect address here opening todo fresh (split ▸ seen)
      | cons op left => exact coarse.reads address here inside split todo fresh seen
  | stores late_ more todo fresh =>
      subst late_
      exact coarse.stores address here inside more todo fresh
  | @fails _ rest done why o none_ failed split todo index err =>
      subst none_ failed
      have error : t.world.taskTable[t.world.pwmPinCount] = .error why := by
        obtain ⟨rfl, rfl⟩ := code_isErr opening.code
        have spawned := opening.spawned
        rw [show s.world = t.world from world] at spawned
        exact Option.some.inj ((Vector.getElem?_eq_getElem inside).symm.trans spawned.2.1)
      exact coarse.fails address here inside error split todo index err
  | @refused _ rest why o none_ failed todo err =>
      subst none_ failed
      exact coarse.refused address here inside todo err

/-! ## Runs -/

theorem Coarse.enter {req : Request} (coarse : Coarse D late s t) (idle : t.flight c = none)
    (one : OneOpener t (.enter c req outcome)) :
    Matched D s [.entered c req]
      (t.put t.world c (some ⟨req, outcome, .start D outcome req⟩)) := by
  have idle' : s.flight c = none := by
    have rel := coarse.flights c
    rw [idle] at rel
    generalize s.flight c = x at rel
    cases rel
    rfl
  have alone : ∀ args, req = .pwmInit args → ∀ c' f, s.flight c' = some f → f.req.isInit = false := by
    rintro args rfl c' f there
    have rel := coarse.flights c'
    rw [there] at rel
    generalize other : t.flight c' = y at rel
    cases rel with
    | some split => exact split.req ▸ one.2 c' _ other
  have one' : OneInit s (.enter c req outcome) := by
    cases req with
    | pinSet | gpioSet | pwmSet => trivial
    | pwmInit args =>
        refine ⟨?_, alone args rfl⟩
        rw [coarse.world]
        exact one.1
  have taken : D.concurrent.step s (.enter c req outcome) = some (.ok [.entered c req]
      (s.put s.world c (some ⟨req, outcome, .before (.start D outcome req)⟩))) := by
    simp [Driver.concurrent, Concurrent.step, idle']
  have step : Concurrent.Step D s (.enter c req outcome) _ _ := coarse.inv.taken_ok taken
  refine ⟨_, Machine.Plays.step taken one', late, ?_⟩
  refine coarse.put (coarse.inv.next one' step) coarse.world
    (fun c' away => Concurrent.flight_put_other away _ _) ?_ (.inl ⟨rfl, rfl⟩) fun ref held => ?_
  · rw [Concurrent.flight_put_self]
    refine .some ⟨rfl, rfl, ?_⟩
    cases req with
    | pinSet | gpioSet => exact .same (by simp [Call.start]) (by simp [Call.start])
    | pwmSet => exact .scan
    | pwmInit args =>
        obtain rfl : late = none := by
          cases late with
          | none => rfl
          | some ref =>
              obtain ⟨c', f, there, init⟩ := coarse.late ref rfl
              exact absurd (init.symm.trans (alone args rfl c' f there)) (by decide)
        exact .begin rfl (by cases D <;> simp [Driver.initCode]) ⟨rfl, rfl, rfl⟩
  · obtain ⟨c', f, there, init⟩ := coarse.late ref held
    refine ⟨c', f, (Concurrent.flight_put_other ?_ _ _).trans there, init⟩
    rintro rfl
    cases idle'.symm.trans there

/-- A task does not look at the task table. -/
theorem pwmTask_recording {k : Nat} {swap : Bool} {task : Task} (late : Option TaskRef)
    (here : w.tasks[k]? = some task) (inside : task.pos < maxPwmNum)
    (stepped : D.pwmTask w k swap = some (.ok raw w')) :
    D.pwmTask (w.recording late) k swap = some (.ok raw (w'.recording late)) := by
  have here' : (w.recording late).tasks[k]? = some task := here
  cases at_ : task.pc with
  | asleep => simp [Driver.pwmTask_asleep here at_] at stepped
  | returned => simp [Driver.pwmTask_returned here at_] at stepped
  | entry =>
      rw [Driver.pwmTask_entry here inside at_] at stepped
      cases stepped
      exact Driver.pwmTask_entry here' inside at_
  | loopHead =>
      rw [Driver.pwmTask_loopHead here at_] at stepped
      cases stepped
      exact Driver.pwmTask_loopHead here' at_
  | set =>
      rw [Driver.pwmTask_set here inside at_] at stepped
      cases stepped
      exact Driver.pwmTask_set here' inside at_
  | clr =>
      rw [Driver.pwmTask_clr here inside at_] at stepped
      cases stepped
      exact Driver.pwmTask_clr here' inside at_
  | eval phase args =>
      by_cases short : args.length < D.sleepArity
      · rw [Driver.pwmTask_eval here inside at_ short] at stepped
        cases stepped
        exact Driver.pwmTask_eval here' inside at_ short
      · rw [Driver.pwmTask_sleep here at_ short] at stepped
        cases stepped
        exact Driver.pwmTask_sleep here' at_ short

theorem Coarse.task {k : Nat} {swap : Bool} {x : Kernel World} (coarse : Coarse D late s t)
    (stepped : D.pwmTask t.world k swap = some x) :
    ∃ raw w, x = .ok raw w ∧ Matched D s (raw.map .event) { t with world := w } := by
  obtain ⟨task, here, -⟩ := Driver.pwmTask_some stepped
  have placed := coarse.inv.placed (k := k) (by rw [coarse.world]; exact here)
  have pos : task.pos = k := placed.pos
  have inside : task.pos < maxPwmNum := pos ▸ placed.inside
  obtain ⟨pc, raw, level, -, rfl⟩ := Driver.pwmTask_move here inside stepped
  have count : ((t.world.driven t.world.dutyArray[task.pos].pin level).jump k pc).pwmPinCount =
      t.world.pwmPinCount := by
    cases level <;> rfl
  generalize (t.world.driven t.world.dutyArray[task.pos].pin level).jump k pc = w at count stepped
  have taken : D.concurrent.step s (.task k swap) =
      some (.ok (raw.map .event) { s with world := w.recording late }) := by
    have stepped' := pwmTask_recording late here inside stepped
    rw [← coarse.world] at stepped'
    simp [Driver.concurrent, Concurrent.step, stepped']
  have one : OneInit s (.task k swap) := trivial
  have step : Concurrent.Step D s (.task k swap) _ _ := coarse.inv.taken_ok taken
  exact ⟨raw, w, rfl, _, Machine.Plays.step taken one, late,
    ⟨coarse.inv.next one step, rfl, fun c => count ▸ coarse.flights c, coarse.late⟩⟩

theorem Coarse.step {turn : Turn} {x : Traced Occurrence RaceFault Contending}
    (coarse : Coarse D late s t) (one : OneOpener t turn)
    (taken : (D.contending address).step t turn = some x) :
    ∃ tr t', x = .ok tr t' ∧ Matched D s tr t' := by
  cases Contending.step_taken taken with
  | enter idle => exact ⟨_, _, rfl, coarse.enter idle one⟩
  | @statement c g there =>
      have rel := coarse.flights c
      rw [there] at rel
      generalize here : s.flight c = y at rel
      cases rel with
      | some split =>
          cases init : g.req.isInit with
          | true => exact coarse.opener_statement address here split (split.req ▸ init)
          | false => exact coarse.other_statement address here split (split.req ▸ init)
  | @task k swap y stepped =>
      obtain ⟨raw, w, rfl, matched⟩ := coarse.task stepped
      exact ⟨raw.map .event, _, by simp, matched⟩

theorem coarse_load (D : Driver) (gpio : Gpio) : Coarse D none (.load gpio) (.load gpio) where
  inv := Concurrent.load_inv D gpio
  world := rfl
  flights := fun _ => .none
  late := nofun

/-- As long as `PWM_INIT` is only issued while a slot is free and no other one is in flight, a run
    in which every access is a step does not go wrong, and it shows what some run shows in which
    every statement is one.  Where the world is not the same, a thread of the `PWM_INIT` in flight
    has not been stored in the task table yet. -/
theorem accesses_show_statements (D : Driver) (address : Nat → Int) (gpio : Gpio)
    (turns : List Turn) (one : (D.contending address).Guarded OneOpener (.load gpio) turns) :
    (∀ x, (D.contending address).run (.load gpio) turns = some x → ∃ tr t, x = .ok tr t) ∧
    ∀ tr t, (D.contending address).Reaches (.load gpio) turns tr t →
      ∃ turns' tr' s, D.concurrent.Reaches (.load gpio) turns' tr' s ∧
        D.concurrent.Guarded OneInit (.load gpio) turns' ∧
        tr'.filterMap Occurrence.shown = tr.filterMap Occurrence.shown ∧
        ∃ late, s.world = t.world.recording late ∧
          ((∀ c g, t.flight c = some g → g.req.isInit = false) → late = none) := by
  constructor
  · refine fun x run => one.run_ok (I := fun t => ∃ late s, Coarse D late s t)
      ⟨none, _, coarse_load D gpio⟩ ?_ run
    rintro t turn x ⟨late, s, coarse⟩ one taken
    obtain ⟨tr, t', rfl, s', -, late', next⟩ := coarse.step one taken
    exact ⟨tr, t', rfl, late', s', next⟩
  · intro tr t reach
    obtain ⟨s, ⟨turns', tr', reach', one', same⟩, late, coarse⟩ :=
      reach.played (H := OneInit) (N := D.concurrent) (R := fun t s => ∃ late, Coarse D late s t) one
        ⟨none, coarse_load D gpio⟩ (by
          rintro t turn tr t' s ⟨late, coarse⟩ one taken
          obtain ⟨_, _, same, s', plays, next⟩ := coarse.step one taken
          cases same
          exact ⟨s', plays, next⟩)
    refine ⟨turns', tr', s, reach', one', same, late, coarse.world, fun alone => ?_⟩
    cases late with
    | none => rfl
    | some ref =>
        obtain ⟨c, f, here, init⟩ := coarse.late ref rfl
        have rel := coarse.flights c
        rw [here] at rel
        generalize there : t.flight c = y at rel
        cases rel with
        | some split =>
            have other := alone c _ there
            rw [split.req, init] at other
            cases other

end KsoftPWM
