import Mathlib.Data.List.Count
import KsoftPWM.Bounds
import KsoftPWM.Requests

/-! # Two clients that open channels at the same time

`pwm_ioctl` is an `unlocked_ioctl`: two requests run their statements in any order, each
statement with the value `pwm_pin_count` has just then.  Two `PWM_INIT` requests that
overlap at all create both threads for the same slot, and the first of them is gone
from `pwm_tsk` for good; only requests that follow one another are both served.
-/

namespace KsoftPWM

inductive Client where
  | left
  | right
  deriving Repr, DecidableEq

def Client.other : Client → Client
  | .left => .right
  | .right => .left

theorem Client.other_ne (c : Client) : c.other ≠ c := by
  cases c <;> simp [Client.other]

theorem Client.eq_other {c d : Client} (differs : d ≠ c) : d = c.other := by
  cases c <;> cases d <;> simp_all [Client.other]

theorem Client.other_other (c : Client) : c.other.other = c := by
  cases c <;> rfl

structure Race where
  world : World
  calls : Client → Call

def Race.step (r : Race) (c : Client) : Option (Kernel Race) :=
  match r.calls c with
  | .returned _ => none
  | call => some do
      let (w, next) ← call.step r.world
      pure ⟨w, Function.update r.calls c next⟩

def race : Machine Race Client Event Fault := ⟨Race.step⟩

/-- Both clients are about to start a softPWM `PWM_INIT` whose thread will be created. -/
def Race.start (w : World) (args : Client → InitArgs) : Race :=
  ⟨w, fun c => .init (args c) .created Driver.softPWM.initCode⟩

/-- The thread is recorded at index `i`, which is its argument, and the slot there holds
    the pin, minimum and maximum of its request. -/
structure World.Records (w : World) (thread : Nat) (args : InitArgs) (i : Nat) : Prop where
  below : i < w.pwmPinCount
  ref : w.taskTable[i]? = some (.thread thread)
  task : ∃ t, w.tasks[thread]? = some t ∧ t.pos = i ∧ t.creator = args
  slot : ∃ slot, w.dutyArray[i]? = some slot ∧ slot.Serves args

/-- Both requests have returned, two slots have been counted, and the two new threads
    are recorded, each for its own request. -/
def BothServed (w : World) (args : Client → InitArgs) (r : Race) : Prop :=
  (∀ c, r.calls c = .returned 0) ∧ r.world.pwmPinCount = w.pwmPinCount + 2 ∧
    ∃ c i j, i ≠ j ∧ r.world.Records w.tasks.length (args c) i ∧
      r.world.Records (w.tasks.length + 1) (args c.other) j

/-- One request comes after the other. -/
def OneAfterTheOther (order : List Client) : Prop :=
  ∃ c : Client, order = List.replicate Driver.softPWM.initCode.length c ++
    List.replicate Driver.softPWM.initCode.length c.other

variable {w w' : World} {args : Client → InitArgs} {r r' : Race} {c : Client} {tr : List Event}
  {stmt : Stmt} {rest : List Stmt} {a : InitArgs} {outcome : CreateOutcome} {brk : Option Int}

theorem race_step (here : r.calls c = .init a outcome (stmt :: rest))
    (taken : race.step r c = some (.ok tr r')) :
    ∃ w' brk, stmt.exec a outcome r.world = .ok tr (w', brk) ∧
      r' = ⟨w', Function.update r.calls c (brk.elim (.resume a outcome rest) .returned)⟩ := by
  simp only [race, Race.step, here, Option.some.injEq] at taken
  obtain ⟨first, ⟨w', next⟩, second, stepped, done, rfl⟩ := Traced.bind_eq_ok.mp taken
  obtain ⟨raw, ⟨w₁, brk⟩, tail, run, resumed, rfl⟩ := Traced.bind_eq_ok.mp stepped
  cases done
  cases brk <;> cases resumed <;> exact ⟨_, _, by simpa using run, rfl⟩

/-! ## Lost threads -/

/-- Every request is on its way or has returned. -/
def Race.Racing (args : Client → InitArgs) (r : Race) : Prop :=
  ∀ c, (∃ stmt rest, r.calls c = .init (args c) .created (stmt :: rest)) ∨
    ∃ err, r.calls c = .returned err

/-- The thread exists and is nowhere in the task table. -/
def World.Lost (w : World) (thread : Nat) : Prop :=
  thread < w.tasks.length ∧ ∀ k : Nat, w.taskTable[k]? ≠ some (.thread thread)

theorem World.Lost.exec {thread : Nat} (lost : w.Lost thread)
    (run : stmt.exec a outcome w = .ok tr (w', brk)) : w'.Lost thread := by
  have frame := Stmt.exec_frame run
  refine ⟨Nat.lt_of_lt_of_le lost.1 frame.tasks.length_le, fun k here => ?_⟩
  rcases frame.refs k thread here with before | ⟨-, new⟩
  · exact lost.2 k before
  · exact absurd lost.1 (by omega)

theorem racing_update {call : Call} (racing : r.Racing args) (world : World)
    (mine : (∃ stmt rest, call = .init (args c) .created (stmt :: rest)) ∨
      ∃ err, call = .returned err) :
    Race.Racing args ⟨world, Function.update r.calls c call⟩ := by
  intro d
  by_cases same : d = c
  · subst same
    simpa using mine
  · simpa [Function.update_of_ne same] using racing d

theorem resume_racing (brk : Option Int) (rest : List Stmt) :
    (∃ stmt rest', brk.elim (Call.resume a .created rest) .returned =
        .init a .created (stmt :: rest')) ∨
      ∃ err, brk.elim (Call.resume a .created rest) .returned = .returned err := by
  cases brk with
  | some err => exact .inr ⟨err, rfl⟩
  | none =>
      cases rest with
      | nil => exact .inr ⟨0, rfl⟩
      | cons stmt rest => exact .inl ⟨stmt, rest, rfl⟩

theorem racing_step (racing : r.Racing args) (taken : race.step r c = some (.ok tr r')) :
    r'.Racing args ∧ ∀ thread, r.world.Lost thread → r'.world.Lost thread := by
  rcases racing c with ⟨stmt, rest, here⟩ | ⟨err, here⟩
  · obtain ⟨w', brk, run, rfl⟩ := race_step here taken
    exact ⟨racing_update racing w' (resume_racing brk rest), fun thread lost => lost.exec run⟩
  · simp [race, Race.step, here] at taken

/-- A lost thread stays lost. -/
theorem lost_forever {thread : Nat} {order : List Client} (racing : r.Racing args)
    (lost : r.world.Lost thread) (reach : race.Reaches r order tr r') : r'.world.Lost thread := by
  have kept : r'.Racing args ∧ r'.world.Lost thread := by
    refine reach.invariant (I := fun r => r.Racing args ∧ r.world.Lost thread) ⟨racing, lost⟩ ?_
    rintro r c tr r' ⟨racing, lost⟩ taken
    obtain ⟨racing', keeps⟩ := racing_step racing taken
    exact ⟨racing', keeps thread lost⟩
  exact kept.2

/-- The first client has run `n` statements, but not all of them: its thread exists and
    is recorded at `pwm_pin_count` at most, which it has not increased yet. -/
structure Underway (w : World) (args : Client → InitArgs) (c : Client) (n : Nat) (r : Race) :
    Prop where
  racing : r.Racing args
  call : r.calls c = .init (args c) .created (Driver.softPWM.initCode.drop n) ∨
    ∃ err, r.calls c = .returned err
  other : r.calls c.other = .init (args c.other) .created Driver.softPWM.initCode
  count : r.world.pwmPinCount = w.pwmPinCount
  created : n ≠ 0 → w.tasks.length < r.world.tasks.length
  grown : w.tasks.length ≤ r.world.tasks.length
  recorded : ∀ k : Nat, r.world.taskTable[k]? = some (.thread w.tasks.length) → k = w.pwmPinCount

theorem start_underway (settled : w.tables.Settled) : Underway w args c 0 (Race.start w args) where
  racing := fun c => .inl ⟨_, _, rfl⟩
  call := .inl rfl
  other := rfl
  count := rfl
  created := fun nonzero => absurd rfl nonzero
  grown := Nat.le_refl _
  recorded := by
    intro k here
    have inside : k < maxPwmNum := (Vector.getElem?_eq_some_iff.mp here).1
    rw [settled.threads] at here
    by_cases below : k < w.pwmPinCount
    · have recorded := (settled.thread below).symm.trans here
      simpa using recorded
    · have free := (settled.free k (Nat.le_of_not_lt below) inside).symm.trans here
      cases free

theorem early_statement {n : Nat} (early : n < 8) :
    Driver.softPWM.initCode.get ⟨n, Nat.lt_succ_of_lt early⟩ ≠ .incr := by
  revert n
  decide

theorem Underway.step {n : Nat} (underway : Underway w args c n r) (early : n < 8)
    (taken : race.step r c = some (.ok tr r')) : Underway w args c (n + 1) r' := by
  rcases underway.call with here | ⟨err, here⟩
  · have inside : n < Driver.softPWM.initCode.length := by
      simp only [Driver.initCode, List.length_cons, List.length_nil]
      omega
    rw [List.drop_eq_getElem_cons inside] at here
    have notLast : Driver.softPWM.initCode[n] ≠ .incr := early_statement early
    obtain ⟨w', brk, run, rfl⟩ := race_step here taken
    have frame := Stmt.exec_frame run
    exact
      { racing := (racing_step underway.racing taken).1
        call := by
          have more : n + 1 < Driver.softPWM.initCode.length := Nat.succ_lt_succ early
          simp only [Function.update_self]
          cases brk with
          | some err => exact .inr ⟨err, rfl⟩
          | none =>
              rw [List.drop_eq_getElem_cons more]
              exact .inl rfl
        other := by simpa [Function.update_of_ne c.other_ne] using underway.other
        count := by
          rw [← underway.count]
          simpa [notLast] using frame.count
        created := by
          intro _
          cases n with
          | succ n =>
              have earlier := underway.created (Nat.succ_ne_zero n)
              exact Nat.lt_of_lt_of_le earlier frame.tasks.length_le
          | zero =>
              have room := Stmt.exec_inside run notLast
              have spawned : Stmt.kthreadCreate.exec (args c) .created r.world = .ok tr (w', brk) :=
                run
              rw [Stmt.exec_kthreadCreate_created room] at spawned
              cases spawned
              simpa [World.spawn] using Nat.lt_succ_of_le underway.grown
        grown := underway.grown.trans frame.tasks.length_le
        recorded := by
          intro k here'
          rcases frame.refs k _ here' with before | ⟨mine, -⟩
          · exact underway.recorded k before
          · exact mine.trans underway.count }
  · simp [race, Race.step, here] at taken

theorem Underway.run {n : Nat} (settled : w.tables.Settled) (early : n ≤ 8)
    (reach : race.Reaches (Race.start w args) (List.replicate n c) tr r) :
    Underway w args c n r := by
  induction n generalizing tr r with
  | zero =>
      obtain ⟨-, rfl⟩ := Machine.reaches_nil.mp reach
      exact start_underway settled
  | succ n ih =>
      rw [List.replicate_succ'] at reach
      obtain ⟨first, r₁, last, earlier, step, -⟩ := Machine.reaches_append.mp reach
      exact (ih (by omega) earlier).step (by omega) (Machine.reaches_single.mp step)

/-- When the other client creates its thread while the first is underway, the first
    client's thread is lost. -/
theorem Underway.overwrites {n : Nat} (underway : Underway w args c n r) (begun : n ≠ 0)
    (taken : race.step r c.other = some (.ok tr r')) :
    r'.Racing args ∧ r'.world.Lost w.tasks.length := by
  refine ⟨(racing_step underway.racing taken).1, ?_⟩
  obtain ⟨w', brk, run, rfl⟩ := race_step underway.other taken
  have room := Stmt.exec_inside run (by decide)
  rw [Stmt.exec_kthreadCreate_created room] at run
  cases run
  have created := underway.created begun
  refine ⟨?_, fun k here => ?_⟩
  · simpa [World.spawn] using Nat.lt_succ_of_lt created
  · by_cases mine : r.world.pwmPinCount = k
    · subst mine
      have same : r.world.tasks.length = w.tasks.length := by simpa using here
      omega
    · simp only [Vector.getElem?_set_ne room mine] at here
      exact mine (underway.count.trans (underway.recorded k here).symm)

theorem leading_run (c : Client) (order : List Client) :
    ∃ n tail, order = List.replicate n c ++ tail ∧ (tail = [] ∨ ∃ rest, tail = c.other :: rest) := by
  induction order with
  | nil => exact ⟨0, [], rfl, .inl rfl⟩
  | cons d order ih =>
      by_cases same : d = c
      · subst same
        obtain ⟨n, tail, rfl, shape⟩ := ih
        exact ⟨n + 1, tail, rfl, shape⟩
      · exact ⟨0, d :: order, rfl, .inr ⟨order, by rw [Client.eq_other same]⟩⟩

theorem BothServed.not_lost (served : BothServed w args r) : ¬ r.world.Lost w.tasks.length := by
  obtain ⟨-, -, _, i, _, -, recorded, -⟩ := served
  exact fun lost => lost.2 i recorded.ref

/-- If both requests are served, they did not overlap. -/
theorem BothServed.oneAfterTheOther {order : List Client} (served : BothServed w args r)
    (settled : w.tables.Settled)
    (whole : ∀ c, order.count c = Driver.softPWM.initCode.length)
    (reach : race.Reaches (Race.start w args) order tr r) : OneAfterTheOther order := by
  have nine : Driver.softPWM.initCode.length = 9 := rfl
  cases order with
  | nil =>
      have none_ := whole .left
      cases none_
  | cons c order =>
      obtain ⟨n, tail, rfl, shape⟩ := leading_run c order
      have mine : n + 1 + tail.count c = 9 := by
        have total := whole c
        simp only [List.count_cons_self, List.count_append, List.count_replicate_self] at total
        omega
      have theirs : tail.count c.other = 9 := by
        have total := whole c.other
        simpa [List.count_cons, List.count_replicate, c.other_ne.symm, nine] using total
      rcases shape with rfl | ⟨rest, rfl⟩
      · cases theirs
      · by_cases overlap : n + 1 ≤ 8
        · have split : c :: (List.replicate n c ++ c.other :: rest) =
              List.replicate (n + 1) c ++ c.other :: rest := rfl
          rw [split] at reach
          obtain ⟨_, r₁, _, first, later, -⟩ := Machine.reaches_append.mp reach
          obtain ⟨_, r₂, _, create, run, -⟩ := Machine.reaches_cons.mp later
          obtain ⟨racing, lost⟩ := (Underway.run settled overlap first).overwrites
            (Nat.succ_ne_zero n) create
          exact absurd (lost_forever racing lost run) served.not_lost
        · refine ⟨c, ?_⟩
          have only : ∀ d ∈ c.other :: rest, c.other = d := by
            intro d member
            have absent : c ∉ c.other :: rest := List.count_eq_zero.mp (by omega)
            have differs : d ≠ c := fun same => absent (same ▸ member)
            exact (Client.eq_other differs).symm
          have all : c.other :: rest = List.replicate 9 c.other := by
            rw [← theirs, List.count_eq_length.mpr only]
            exact List.eq_replicate_of_mem fun d member => (only d member).symm
          obtain rfl : n = 8 := by omega
          rw [all]
          rfl

/-! ## Requests that follow one another -/

theorem solo_opens (room : r.world.pwmPinCount < maxPwmNum)
    (here : r.calls c = .init a .created Driver.softPWM.initCode) :
    ∃ tr, race.Reaches r (List.replicate Driver.softPWM.initCode.length c) tr
      ⟨r.world.opened .softPWM a room, Function.update r.calls c (.returned 0)⟩ := by
  simp [Machine.Reaches, Machine.run, race, Race.step, here, Driver.initCode, Call.step, Call.resume,
    Stmt.exec, subscript, assign, room, World.setSlot, World.setRef, World.spawn, World.wake,
    World.slot, World.opened, Driver.fresh, InitArgs.slot, Driver.startPc, Driver.creationDuty,
    modify_newest]

theorem records_opened (room : w.pwmPinCount < maxPwmNum) :
    (w.opened .softPWM a room).Records w.tasks.length a w.pwmPinCount where
  below := Nat.lt_succ_self _
  ref := Vector.getElem?_set_self room
  task := ⟨_, List.getElem?_concat_length, rfl, rfl⟩
  slot := ⟨_, Vector.getElem?_set_self room, rfl, rfl, rfl⟩

theorem World.Records.opened {thread i : Nat} {b : InitArgs} (records : w.Records thread b i)
    (room : w.pwmPinCount < maxPwmNum) : (w.opened .softPWM a room).Records thread b i := by
  obtain ⟨below, ref, ⟨t, here, pos, creator⟩, ⟨slot, held, serves⟩⟩ := records
  have other : w.pwmPinCount ≠ i := Nat.ne_of_gt below
  have inside := (List.getElem?_eq_some_iff.mp here).1
  exact
    { below := Nat.lt_succ_of_lt below
      ref := (Vector.getElem?_set_ne room other).trans ref
      task := ⟨t, (List.getElem?_append_left inside).trans here, pos, creator⟩
      slot := ⟨slot, (Vector.getElem?_set_ne room other).trans held, serves⟩ }

theorem oneAfterTheOther_served (args : Client → InitArgs) (room : w.pwmPinCount + 2 ≤ maxPwmNum)
    (c : Client) :
    ∃ tr r, race.Reaches (Race.start w args)
        (List.replicate Driver.softPWM.initCode.length c ++
          List.replicate Driver.softPWM.initCode.length c.other) tr r ∧ BothServed w args r := by
  have first : w.pwmPinCount < maxPwmNum := by omega
  have second : (w.opened .softPWM (args c) first).pwmPinCount < maxPwmNum := room
  let between : Race :=
    ⟨w.opened .softPWM (args c) first, Function.update (Race.start w args).calls c (.returned 0)⟩
  have waiting : between.calls c.other = .init (args c.other) .created Driver.softPWM.initCode :=
    Function.update_of_ne c.other_ne _ _
  obtain ⟨tr, run⟩ := solo_opens (r := Race.start w args) (c := c) first rfl
  obtain ⟨tr', run'⟩ := solo_opens (r := between) second waiting
  refine ⟨tr ++ tr', _, Machine.reaches_append.mpr ⟨tr, between, tr', run, run', rfl⟩, ?_, rfl,
    c, w.pwmPinCount, w.pwmPinCount + 1, by omega, (records_opened first).opened second, ?_⟩
  · intro d
    by_cases same : d = c.other
    · subst same
      exact Function.update_self _ _ _
    · obtain rfl : d = c := (Client.eq_other same).trans c.other_other
      exact (Function.update_of_ne same _ _).trans (Function.update_self _ _ _)
  · have length : (w.opened .softPWM (args c) first).tasks.length = w.tasks.length + 1 := by
      simp [World.opened]
    rw [← length]
    exact records_opened second

/-- From every state softPWM reaches between requests with two slots free, two `PWM_INIT`
    requests whose threads are created are both served exactly if one comes after the
    other. -/
theorem both_served_iff (gpio : Gpio) (labels : List Label) (events : List (Agent × Event))
    (s : Sys) (reach : Driver.softPWM.system.Reaches (Sys.load gpio) labels events s)
    (idle : s.call = none) (room : s.world.pwmPinCount + 2 ≤ maxPwmNum)
    (args : Client → InitArgs) (order : List Client)
    (whole : ∀ c, order.count c = Driver.softPWM.initCode.length) :
    (∃ tr r, race.Reaches (Race.start s.world args) order tr r ∧ BothServed s.world args r) ↔
      OneAfterTheOther order := by
  have settled := (Sys.inv_of_reaches reach).settled idle
  constructor
  · rintro ⟨tr, r, run, served⟩
    exact served.oneAfterTheOther settled whole run
  · rintro ⟨c, rfl⟩
    exact oneAfterTheOther_served args room c

/-- One client asks for pin 16, the other for pin 21. -/
def twoPins : Client → InitArgs
  | .left => ⟨16, 0, 100⟩
  | .right => ⟨21, 0, 10000⟩

/-- The right client after the left one, right after load. -/
theorem both_served_left_first :
    ∃ tr r, race.Reaches (Race.start (World.load .reset) twoPins)
        (List.replicate 9 .left ++ List.replicate 9 .right) tr r ∧
      BothServed (World.load .reset) twoPins r :=
  (both_served_iff .reset [] [] (Sys.load .reset) (Machine.reaches_nil.mpr ⟨rfl, rfl⟩) rfl
    (by decide) twoPins _ (fun c => by cases c <;> decide)).mpr ⟨.left, rfl⟩

/-- The clients take turns, statement by statement: both return, two slots are counted,
    and the first thread is in none of them. -/
theorem taking_turns_loses_thread :
    ∃ tr r, race.Reaches (Race.start (World.load .reset) twoPins)
        (List.replicate 9 [Client.left, Client.right]).flatten tr r ∧
      (∀ c, r.calls c = .returned 0) ∧ r.world.pwmPinCount = 2 ∧
      (∀ k : Nat, r.world.taskTable[k]? ≠ some (.thread 0)) ∧
      ¬ BothServed (World.load .reset) twoPins r := by
  obtain ⟨tr, r, reach, passed⟩ := Machine.exists_reaches race
    (Race.start (World.load .reset) twoPins) (List.replicate 9 [Client.left, Client.right]).flatten
    (fun _ r => r.calls .left == .returned 0 && r.calls .right == .returned 0 &&
      r.world.pwmPinCount == 2 && r.world.taskTable == #v[.thread 1, .null, .null, .null, .null])
    (by decide)
  simp only [Bool.and_eq_true, beq_iff_eq] at passed
  obtain ⟨⟨⟨left, right⟩, count⟩, table⟩ := passed
  have lost : ∀ k : Nat, r.world.taskTable[k]? ≠ some (.thread 0) := by
    intro k here
    have inside : k < maxPwmNum := (Vector.getElem?_eq_some_iff.mp here).1
    have absent : ∀ k < maxPwmNum, #v[TaskRef.thread 1, .null, .null, .null, .null][k]? ≠
        some (.thread 0) := by decide
    exact absent k inside (table ▸ here)
  refine ⟨tr, r, reach, fun c => by cases c <;> assumption, count, lost, ?_⟩
  rintro ⟨-, -, _, i, _, -, recorded, -⟩
  exact lost i recorded.ref

end KsoftPWM
