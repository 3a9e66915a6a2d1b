import Mathlib.Data.List.Count
import KsoftPWM.Ownership

/-! # Unloading softPWM

`pwm_exit` stops the recorded threads one after the other, waits for each to return,
and only then unmaps the registers.  A thread looks at the stop request at its loop
head only, so whatever it was doing it clears its pin before it returns.

The invariant speaks about the trace so far.  How many threads have returned and that
the registers are quiet once unmapped holds of both drivers (`Teardown`); how often each
thread has been stopped, and that a pin whose last store by a task set it belongs to a
task that is still in the high half of its period, is softPWM's (`Unloading`).
-/

namespace KsoftPWM

def taskStores (pin : Int32) (tr : List (Agent × Event)) : List (Nat × Access) :=
  tr.filterMap fun e =>
    match e with
    | (.task k, .gpio p access) => if p = pin then some (k, access) else none
    | _ => none

def driveStore (pin : Int32) : Bool → Access
  | true => .store 7 (shl 1 pin.toInt)
  | false => .store 10 (shl 1 pin.toInt)

def TaskPc.High : TaskPc → Prop
  | .eval .high _ => True
  | .clr => True
  | _ => False

variable {D : Driver} {s s' : Sys} {label : Label} {tr tr' : List (Agent × Event)}

/-! ## What the trace says -/

theorem taskStores_append (pin : Int32) (tr tr' : List (Agent × Event)) :
    taskStores pin (tr ++ tr') = taskStores pin tr ++ taskStores pin tr' :=
  List.filterMap_append

theorem taskStores_foreign {agent : Agent} (foreign : ∀ k, agent ≠ .task k) (pin : Int32)
    (raw : List Event) : taskStores pin (raw.map (agent, ·)) = [] := by
  simp only [taskStores, List.filterMap_map, List.filterMap_eq_nil_iff, Function.comp_apply]
  intro e _
  cases agent with
  | task k => exact absurd rfl (foreign k)
  | client | exit => rfl

theorem count_foreign {agent agent' : Agent} (foreign : agent ≠ agent') (e : Event)
    (raw : List Event) : (raw.map (agent, ·)).count (agent', e) = 0 := by
  simp [List.count_eq_zero, foreign]

theorem Driver.Move.stores {slot : Dutycycle} {pos k : Nat} {stop swap : Bool}
    {pc pc' : TaskPc} {raw : List Event} {level : Option Bool}
    (move : D.Move slot pos stop swap pc pc' raw level) (pin : Int32) :
    taskStores pin (raw.map (Agent.task k, ·)) =
      if slot.pin = pin then level.toList.map (fun l => (k, driveStore pin l)) else [] := by
  by_cases same : slot.pin = pin
  · subst same
    cases move <;> simp [taskStores, driveStore]
  · cases move <;> simp [taskStores, same]

theorem Driver.Move.high {slot : Dutycycle} {pos : Nat} {stop swap : Bool}
    {pc pc' : TaskPc} {raw : List Event} {level : Option Bool}
    (move : D.Move slot pos stop swap pc pc' raw level) :
    pc'.High ↔ level.elim pc.High (· = true) := by
  cases move with
  | sleep => rename_i phase _ _; cases phase <;> simp [Phase.next, TaskPc.High]
  | eval => rename_i phase _ _; cases phase <;> simp [TaskPc.High]
  | entry | halt | goOn | set | clr => simp [TaskPc.High]

namespace ExitPc

def stops (count k : Nat) : ExitPc → Nat
  | idle => 0
  | loop i => if k < i then 1 else 0
  | join i _ => if k < i + 1 then 1 else 0
  | tail _ => if k < count then 1 else 0

def joined (count : Nat) : ExitPc → Nat
  | idle => 0
  | loop i => i
  | join i _ => i
  | tail _ => count

def unmaps : ExitPc → Nat
  | tail todo => todo.count .iounmap
  | _ => 1

def Within (count : Nat) : ExitPc → Prop
  | loop i => i ≤ count
  | join i k => k = i ∧ i < count
  | _ => True

end ExitPc

/-! ## Module exit -/

/-- No access of the registers after their unmapping. -/
def Quiet (tr : List (Agent × Event)) : Prop :=
  tr.Pairwise fun e later => e = (.exit, .exit .iounmap) → later.2.Silent

instance : DecidablePred Quiet :=
  fun tr => inferInstanceAs (Decidable (tr.Pairwise fun e later =>
    e = (.exit, .exit .iounmap) → later.2.Silent))

theorem Quiet.append (quiet : Quiet tr) (silent : ∀ e ∈ tr', e.2.Silent) : Quiet (tr ++ tr') := by
  rw [Quiet, List.pairwise_append]
  exact ⟨quiet, List.pairwise_of_forall_mem_list (fun _ _ later member _ => silent later member),
    fun _ _ later member _ => silent later member⟩

theorem Quiet.of_mapped (mapped : ∀ e ∈ tr, e ≠ (.exit, .exit .iounmap)) : Quiet tr :=
  List.pairwise_of_forall_mem_list fun e member _ _ same => absurd same (mapped e member)

/-- How far module exit has come, as the threads and the trace show it. -/
structure Teardown (tr : List (Agent × Event)) (s : Sys) : Prop where
  within : s.exit.Within s.world.pwmPinCount
  returned : ∀ k < s.exit.joined s.world.pwmPinCount, ∃ t, s.world.tasks[k]? = some t ∧
    t.pc = .returned
  unmapped : tr.count (.exit, .exit .iounmap) + s.exit.unmaps = 1
  quiet : Quiet tr

theorem Teardown.load (gpio : Gpio) : Teardown [] (Sys.load gpio) where
  within := trivial
  returned := by simp [Sys.load, ExitPc.joined]
  unmapped := rfl
  quiet := .nil

theorem Teardown.mapped (teardown : Teardown tr s) (early : s.exit.unmaps = 1) :
    ∀ e ∈ tr, e ≠ (.exit, .exit .iounmap) := by
  have unmapped := teardown.unmapped
  rintro e member rfl
  have := List.count_pos_iff.mpr member
  omega

/-- A step that is not module exit's, as long as it accesses no register that has been
    unmapped. -/
theorem Teardown.foreign {agent : Agent} {raw : List Event} (teardown : Teardown tr s)
    (foreign : agent ≠ .exit) (exit : s'.exit = s.exit)
    (within : s.exit.Within s'.world.pwmPinCount)
    (returned : ∀ k < s.exit.joined s'.world.pwmPinCount, ∃ t, s'.world.tasks[k]? = some t ∧
      t.pc = .returned)
    (access : s.exit.unmaps = 1 ∨ ∀ e ∈ raw, e.Silent) :
    Teardown (tr ++ raw.map (agent, ·)) s' where
  within := exit ▸ within
  returned := exit ▸ returned
  unmapped := by
    rw [List.count_append, count_foreign foreign, exit]
    exact teardown.unmapped
  quiet := by
    rcases access with early | silent
    · refine .of_mapped fun e member => ?_
      rcases List.mem_append.mp member with before | now
      · exact teardown.mapped early e before
      · obtain ⟨_, _, rfl⟩ := List.mem_map.mp now
        intro same
        exact foreign (congrArg Prod.fst same)
    · exact teardown.quiet.append (by simpa using silent)

theorem Teardown.pc_returned {k : Nat} {t : Task} (teardown : Teardown tr s)
    (below : k < s.exit.joined s.world.pwmPinCount) (here : s.world.tasks[k]? = some t) :
    t.pc = .returned := by
  obtain ⟨t', here', returned⟩ := teardown.returned k below
  obtain rfl : t = t' := by simpa [here] using here'
  exact returned

/-- Once the loop of module exit has ended, every thread has returned. -/
theorem Teardown.all_returned {k : Nat} {t : Task} {todo : List ExitStmt}
    (teardown : Teardown tr s) (settled : s.world.tables.Settled) (past : s.exit = .tail todo)
    (here : s.world.tasks[k]? = some t) : t.pc = .returned := by
  refine teardown.pc_returned ?_ here
  rw [past, ExitPc.joined, ← settled.threads]
  exact (List.getElem?_eq_some_iff.mp here).1

/-- A step of a task: its thread has not been waited for, so exit is still in its loop. -/
theorem Teardown.task {k : Nat} {swap : Bool} {t : Task} {slot : Dutycycle} {pc : TaskPc}
    {raw : List Event} {level : Option Bool} (teardown : Teardown tr s)
    (settled : ∀ todo, s.exit = .tail todo → s.world.tables.Settled)
    (step : s.TaskStep D k swap tr' s' t slot pc raw level) : Teardown (tr ++ tr') s' := by
  obtain ⟨here, -, going, -, -, -, -, rfl, rfl⟩ := step
  have early : ¬ k < s.exit.joined s.world.pwmPinCount :=
    fun below => going (teardown.pc_returned below here)
  have count : ((s.world.driven slot.pin level).jump k pc).pwmPinCount =
      s.world.pwmPinCount := by
    cases level <;> rfl
  refine teardown.foreign (by simp) rfl (count.symm ▸ teardown.within) ?_ (.inl ?_)
  · intro j below
    rw [count] at below
    obtain ⟨t', here', returned⟩ := teardown.returned j below
    have other : k ≠ j := by
      rintro rfl
      exact early below
    exact ⟨t', (tasks_unmoved other).trans here', returned⟩
  · cases exit : s.exit with
    | idle | loop | join => rfl
    | tail todo => exact absurd (teardown.all_returned (settled todo exit) exit here) going

theorem Sys.ExitMove.silent {raw : List Event} (move : Sys.ExitMove D s s' raw) :
    ∀ e ∈ raw, e.Silent := by
  cases move <;> simp [Event.Silent]

structure Accounts (s s' : Sys) (raw : List Event) : Prop where
  within : s'.exit.Within s'.world.pwmPinCount
  stopped : ∀ k, s.exit.stops s.world.pwmPinCount k + raw.count (.stop k) =
    s'.exit.stops s'.world.pwmPinCount k
  returned : ∀ k < s'.exit.joined s'.world.pwmPinCount,
    k < s.exit.joined s.world.pwmPinCount ∨ s.world.tasks[k]?.map (·.pc) = some .returned
  unmapped : raw.count (.exit .iounmap) + s'.exit.unmaps = s.exit.unmaps

theorem Sys.ExitMove.accounts {raw : List Event} (settled : s.world.tables.Settled)
    (within : s.exit.Within s.world.pwmPinCount) (move : Sys.ExitMove D s s' raw) :
    Accounts s s' raw := by
  cases move with
  | start at_ =>
      rw [at_] at within
      exact ⟨Nat.zero_le _, by simp [at_, ExitPc.stops], by simp [ExitPc.joined],
        by simp [at_, ExitPc.unmaps]⟩
  | @stop i k at_ more thread =>
      obtain rfl : i = k := by
        simpa using (settled.thread more).symm.trans thread
      refine ⟨⟨rfl, more⟩, ?_, ?_, by simp [at_, ExitPc.unmaps]⟩
      · intro j
        simp only [at_, ExitPc.stops, List.count_cons, List.count_nil, beq_iff_eq,
          Event.stop.injEq, reduceCtorEq, ↓reduceIte]
        rcases Nat.lt_trichotomy j i with below | rfl | above
        · rw [if_pos below, if_neg (by omega), if_pos (by omega)]
        · simp
        · rw [if_neg (by omega), if_neg (by omega), if_neg (by omega)]
      · intro j below
        rw [at_]
        exact .inl below
  | @leave i at_ done =>
      rw [at_] at within
      obtain rfl : i = s.world.pwmPinCount := Nat.le_antisymm within (Nat.not_lt.mp done)
      refine ⟨trivial, fun k => by rw [at_]; rfl, ?_, by rw [at_]; cases D <;> rfl⟩
      intro j below
      rw [at_]
      exact .inl below
  | @joined i k at_ returned =>
      rw [at_] at within
      obtain ⟨rfl, below⟩ := within
      refine ⟨below, fun k => by rw [at_]; rfl, ?_, by rw [at_]; rfl⟩
      intro j before
      rcases Nat.eq_or_lt_of_le (Nat.le_of_lt_succ before) with rfl | earlier
      · exact .inr returned
      · rw [at_]
        exact .inl earlier
  | @tail stmt rest at_ =>
      refine ⟨trivial, fun k => by rw [at_]; rfl, ?_, ?_⟩
      · intro j below
        rw [at_]
        exact .inl below
      · simp only [at_, ExitPc.unmaps, List.count_cons, List.count_nil, beq_iff_eq,
          Event.exit.injEq]
        omega

theorem count_exit (raw : List Event) (e : Event) :
    (raw.map (Agent.exit, ·)).count (Agent.exit, e) = raw.count e :=
  List.count_map_of_injective raw _ (Prod.mk_right_injective Agent.exit) e

theorem Teardown.exit {raw : List Event} (teardown : Teardown tr s)
    (settled : s.world.tables.Settled) (move : Sys.ExitMove D s s' raw) :
    Teardown (tr ++ raw.map (Agent.exit, ·)) s' := by
  have accounts := move.accounts settled teardown.within
  exact
    { within := accounts.within
      returned := by
        intro k below
        obtain ⟨t, here, pc⟩ : ∃ t, s.world.tasks[k]? = some t ∧ t.pc = .returned := by
          rcases accounts.returned k below with before | now
          · exact teardown.returned k before
          · exact Option.map_eq_some_iff.mp now
        obtain ⟨t', here', -, same⟩ := move.grows.awake here (by simp [pc])
        exact ⟨t', here', same.trans pc⟩
      unmapped := by
        have before := teardown.unmapped
        have now := accounts.unmapped
        rw [List.count_append, count_exit]
        omega
      quiet := teardown.quiet.append (by simpa using move.silent) }

/-! ## The levels of the pins -/

/-- The last store a task made for the pin cleared it, or that task is still in the
    high half of its period. -/
def SettlesLow (tr : List (Agent × Event)) (w : World) : Prop :=
  ∀ pin k access, (taskStores pin tr).getLast? = some (k, access) →
    access = driveStore pin false ∨
      ∃ t, w.tasks[k]? = some t ∧ t.pc.High ∧ t.creator.pin = pin

theorem SettlesLow.grows {w w' : World} {agent : Agent} {raw : List Event}
    (low : SettlesLow tr w) (grows : Grows w.tasks w'.tasks) (foreign : ∀ k, agent ≠ .task k) :
    SettlesLow (tr ++ raw.map (agent, ·)) w' := by
  intro pin k access last
  rw [taskStores_append, taskStores_foreign foreign, List.append_nil] at last
  rcases low pin k access last with cleared | ⟨t, here, high, mine⟩
  · exact .inl cleared
  · obtain ⟨t', here', creator, pc⟩ := grows.awake here (by
      intro asleep
      simp [asleep, TaskPc.High] at high)
    exact .inr ⟨t', here', pc ▸ high, creator ▸ mine⟩

/-- The state of an unloading, with the trace that led there. -/
structure Unloading (tr : List (Agent × Event)) (s : Sys) : Prop where
  inv : s.Inv .softPWM
  alone : s.exit ≠ .idle → s.call = none
  within : s.exit.Within s.world.pwmPinCount
  stopped : ∀ k, tr.count (.exit, .stop k) = s.exit.stops s.world.pwmPinCount k
  returned : ∀ k < s.exit.joined s.world.pwmPinCount, ∃ t, s.world.tasks[k]? = some t ∧
    t.pc = .returned
  unmapped : tr.count (.exit, .exit .iounmap) + s.exit.unmaps = 1
  quiet : tr.Pairwise fun e later => e = (.exit, .exit .iounmap) →
    ∀ pin access, later.2 ≠ .gpio pin access
  low : SettlesLow tr s.world

theorem Unloading.teardown (unloading : Unloading tr s) : Teardown tr s :=
  ⟨unloading.within, unloading.returned, unloading.unmapped, unloading.quiet⟩

theorem Teardown.unloading (teardown : Teardown tr s) (inv : s.Inv .softPWM)
    (alone : s.exit ≠ .idle → s.call = none)
    (stopped : ∀ k, tr.count (.exit, .stop k) = s.exit.stops s.world.pwmPinCount k)
    (low : SettlesLow tr s.world) : Unloading tr s :=
  ⟨inv, alone, teardown.within, stopped, teardown.returned, teardown.unmapped, teardown.quiet, low⟩

theorem Unloading.load (gpio : Gpio) : Unloading [] (Sys.load gpio) :=
  (Teardown.load gpio).unloading (Sys.load_inv .softPWM gpio) (fun running => absurd rfl running)
    (by simp [Sys.load, ExitPc.stops]) (by simp [SettlesLow, taskStores])

theorem Unloading.client {raw : List Event} {call : Call} (unloading : Unloading tr s)
    (idle : s.exit = .idle) (run : s.advance call = .ok raw s') (inv : s'.Inv .softPWM) :
    Unloading (tr ++ raw.map (Agent.client, ·)) s' := by
  obtain ⟨exit, -, tasks⟩ := Sys.advance_frame run
  have idle' : s'.exit = .idle := exit.trans idle
  have teardown : Teardown (tr ++ raw.map (Agent.client, ·)) s' := by
    refine unloading.teardown.foreign (by decide) exit (by rw [idle]; trivial) ?_
      (.inl (by rw [idle]; rfl))
    intro k below
    rw [idle] at below
    exact absurd below (Nat.not_lt_zero k)
  refine teardown.unloading inv (fun running => absurd idle' running) ?_
    (unloading.low.grows tasks (by simp))
  intro k
  have before := unloading.stopped k
  rw [idle] at before
  rw [List.count_append, count_foreign (by decide), before, idle']
  rfl

theorem SettlesLow.move {w : World} {slot : Dutycycle} {p : Int32} {pos k : Nat}
    {stop swap : Bool} {t : Task} {pc : TaskPc} {raw : List Event} {level : Option Bool}
    (low : SettlesLow tr w) (here : w.tasks[k]? = some t) (mine : slot.pin = t.creator.pin)
    (move : D.Move slot pos stop swap t.pc pc raw level) :
    SettlesLow (tr ++ raw.map (Agent.task k, ·)) ((w.driven p level).jump k pc) := by
  intro pin j access last
  rw [taskStores_append, move.stores, mine] at last
  have high := move.high
  by_cases stores : t.creator.pin = pin ∧ level ≠ none
  · obtain ⟨own, some_⟩ := stores
    obtain ⟨l, rfl⟩ := Option.ne_none_iff_exists'.mp some_
    obtain ⟨rfl, rfl⟩ : k = j ∧ driveStore pin l = access := by simpa [own] using last
    cases l with
    | false => exact .inl rfl
    | true => exact .inr ⟨_, tasks_moved here, high.mpr rfl, own⟩
  · have silent : (if t.creator.pin = pin then
        level.toList.map (fun l => (k, driveStore pin l)) else []) = [] := by
      split
      · rename_i own
        have none_ : level = none := by
          by_contra some_
          exact stores ⟨own, some_⟩
        rw [none_]
        rfl
      · rfl
    rw [silent, List.append_nil] at last
    rcases low pin j access last with cleared | ⟨t', here', high', own'⟩
    · exact .inl cleared
    · refine .inr ?_
      by_cases same : k = j
      · subst same
        obtain rfl : t = t' := by simpa [here] using here'
        have none_ : level = none := by
          by_contra some_
          exact stores ⟨own', some_⟩
        rw [none_] at high ⊢
        exact ⟨_, tasks_moved here, high.mpr high', own'⟩
      · exact ⟨t', (tasks_unmoved same).trans here', high', own'⟩

theorem Unloading.task {k : Nat} {swap : Bool} {x : Kernel World} (unloading : Unloading tr s)
    (stepped : Driver.softPWM.pwmTask s.world k swap = some x)
    (run : ((x.tag (Agent.task k, ·)) >>= fun w => pure { s with world := w }) =
      (.ok tr' s' : Traced (Agent × Event) Fault Sys)) (inv : s'.Inv .softPWM) :
    Unloading (tr ++ tr') s' := by
  obtain ⟨t, slot, pc, raw, level, step⟩ := unloading.inv.taskStep stepped run
  have teardown := unloading.teardown.task (fun todo exit =>
    unloading.inv.settled (unloading.alone (by simp [exit]))) step
  obtain ⟨here, -, -, -, -, ⟨pin, -⟩, move, rfl, rfl⟩ := step
  refine teardown.unloading inv unloading.alone ?_ (unloading.low.move here pin move)
  intro j
  rw [List.count_append, count_foreign (by simp)]
  cases level <;> exact unloading.stopped j

theorem Unloading.exit {raw : List Event} (unloading : Unloading tr s) (idle : s.call = none)
    (move : Sys.ExitMove .softPWM s s' raw) (inv : s'.Inv .softPWM)
    (call : s'.call = s.call) : Unloading (tr ++ raw.map (Agent.exit, ·)) s' := by
  have settled := unloading.inv.settled idle
  refine (unloading.teardown.exit settled move).unloading inv (fun _ => call.trans idle) ?_
    (unloading.low.grows move.grows (by simp))
  intro k
  rw [List.count_append, count_exit, unloading.stopped,
    (move.accounts settled unloading.within).stopped]

/-- Every step of the system. -/
theorem Unloading.step (unloading : Unloading tr s) (admitted : Admits s label)
    (taken : s.step .softPWM label = some (.ok tr' s')) : Unloading (tr ++ tr') s' := by
  have inv := unloading.inv.step_ok admitted taken
  generalize shape : (Traced.ok tr' s' : Traced (Agent × Event) Fault Sys) = x at taken
  cases Sys.step_taken taken with
  | request ready accepts =>
      obtain ⟨raw, run, rfl⟩ := Traced.tag_eq_ok.mp shape.symm
      exact unloading.client (by simpa [Driver.accepts] using accepts) run inv
  | @statement call here =>
      obtain ⟨raw, run, rfl⟩ := Traced.tag_eq_ok.mp shape.symm
      have idle : s.exit = .idle := by
        by_contra running
        simp [unloading.alone running] at here
      exact unloading.client idle run inv
  | task stepped => exact unloading.task stepped shape.symm inv
  | exit idle stepped =>
      obtain ⟨raw, s₁, rfl, move, -, -, call⟩ :=
        exitStep_keeps (unloading.inv.settled idle) stepped
      cases shape
      exact unloading.exit idle move inv call

theorem Unloading.of_reaches {gpio : Gpio} {labels : List Label}
    (reach : Driver.softPWM.system.Reaches (Sys.load gpio) labels tr s)
    (admitted : Driver.softPWM.system.Guarded Admits (Sys.load gpio) labels) : Unloading tr s :=
  reach.guarded_induction admitted (Unloading.load gpio)
    (fun unloading here taken => unloading.step here taken)

/-- A run of softPWM with at most `MAX_PWM_NUM` requests to open a channel never goes
    wrong and stores nothing after the unmapping.  When `pwm_exit` is through, every
    thread has been stopped exactly once, and the last store a task made for a pin
    cleared it. -/
theorem unload_is_safe (gpio : Gpio) (labels : List Label)
    (x : Traced (Agent × Event) Fault Sys) (few : inits labels ≤ maxPwmNum)
    (run : Driver.softPWM.system.run (Sys.load gpio) labels = some x) :
    ∃ tr s, x = .ok tr s ∧
      (tr.Pairwise fun e later => e = (.exit, .exit .iounmap) →
        ∀ pin access, later.2 ≠ .gpio pin access) ∧
      (s.exit = .tail [] →
        (∀ k < s.world.tasks.length, tr.count (.exit, .stop k) = 1) ∧
        ∀ pin k access, (taskStores pin tr).getLast? = some (k, access) →
          access = .store 10 (shl 1 pin.toInt)) := by
  have start := Sys.load_inv .softPWM gpio
  have admitted := Sys.few_admitted .softPWM gpio few
  obtain ⟨tr, s, rfl⟩ := admitted.run_ok (I := Sys.Inv .softPWM) start (by
    intro s label x inv here taken
    obtain ⟨tr, s', rfl, -, held⟩ := inv.step here taken
    exact ⟨tr, s', rfl, held⟩) run
  have unloading : Unloading tr s := .of_reaches run admitted
  refine ⟨tr, s, rfl, unloading.quiet, fun done => ?_⟩
  have settled := unloading.inv.settled (unloading.alone (by simp [done]))
  constructor
  · intro k below
    rw [unloading.stopped, done, ExitPc.stops, if_pos (settled.threads ▸ below)]
  · intro pin k access last
    rcases unloading.low pin k access last with cleared | ⟨t, here, high, -⟩
    · exact cleared
    · have returned := unloading.teardown.all_returned settled done here
      simp [returned, TaskPc.High] at high

/-- A channel is opened, its task sets its pin, and `pwm_exit` begins at that moment: the
    task comes round to its loop head and returns, and the exit completes. -/
theorem unload_is_safe_first :
    ∃ tr s, Driver.softPWM.system.Reaches (Sys.load .reset)
        (Driver.softPWM.openSchedule ⟨16, 0, 100⟩ ++ [.task 0 false, .task 0 false, .exit, .exit] ++
          List.replicate 8 (.task 0 false) ++ List.replicate 5 .exit) tr s ∧
      s.exit = .tail [] ∧ s.world.tasks.length = 1 ∧ tr.count (.exit, .stop 0) = 1 := by
  obtain ⟨tr, s, reach, done⟩ := Machine.exists_reaches Driver.softPWM.system (Sys.load .reset)
    (Driver.softPWM.openSchedule ⟨16, 0, 100⟩ ++ [.task 0 false, .task 0 false, .exit, .exit] ++
      List.replicate 8 (.task 0 false) ++ List.replicate 5 .exit)
    (fun _ s => s.exit == .tail [] && s.world.tasks.length == 1) (by decide)
  obtain ⟨exit, length⟩ : s.exit = .tail [] ∧ s.world.tasks.length = 1 := by
    simpa using done
  obtain ⟨tr', s', same, -, finished⟩ := unload_is_safe .reset _ _ (by decide) reach
  cases same
  exact ⟨tr, s, reach, exit, length, (finished exit).1 0 (by omega)⟩

end KsoftPWM
