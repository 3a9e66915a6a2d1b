import Mathlib.Data.Finset.Card
import KsoftPWM.Concurrent
import KsoftPWM.Model.Contending

/-! # Clients that open channels at the same time

`PWM_INIT` requests that overlap mix up their channels, and increments of `pwm_pin_count` get
lost.  Still they stay in the tables: a request has at any time read of `pwm_pin_count` at most
the number of those that have stored an increment, so with the requests still in flight it is
within the number of those that were ever issued.  What may go wrong is the wake-up in softPWM,
which finds no thread in an entry that another client has skipped, and the creation of a task in
xenoPWM, which finds the entry in use.
-/

namespace KsoftPWM

def Turn.isInit : Turn → Bool
  | .enter _ req _ => req.isInit
  | _ => false

/-- A `PWM_INIT` that returns zero. -/
def Answer.opened (a : Answer) : Bool := a.req.isInit && a.err == 0

def opened (tr : List Occurrence) : Nat := (answers tr).countP Answer.opened

/-- An access after a failure: it counts nothing and needs no thread. -/
def InitOp.Closing (op : InitOp) : Prop := op = .index ∨ op = .ptrErr ∨ op = .storeNull

/-- What is left comes from the branch of the driver, or from the end of it after a failure. -/
def Opener.FromBranch (D : Driver) (o : Opener) : Prop :=
  o.todo <:+ D.initOps ∧ o.err = 0 ∨ ∀ op ∈ o.todo, op.Closing

/-- What a request in flight may rely on, where `n` requests to open a channel have been issued,
    `card` of them are in flight and `counted` are through and return zero. -/
def Racer.Fit (D : Driver) (n counted card : Nat) : Racer → Prop
  | ⟨req, _, .opening o⟩ => req.isInit = true ∧ o.todo ≠ [] ∧ o.FromBranch D ∧
      o.index + card ≤ n ∧ o.position + card ≤ n ∧ o.index ≤ counted
  | ⟨req, _, .look _ _ i⟩ => req.isInit = false ∧ i < n
  | ⟨req, _, .other (.before (.update pos _))⟩ => req.isInit = false ∧ pos < n
  | ⟨req, _, .scan ..⟩ | ⟨req, _, .other (.between ..)⟩ | ⟨req, _, .other (.before (.pinSet ..))⟩
  | ⟨req, _, .other (.before (.gpioSet ..))⟩ => req.isInit = false
  | ⟨_, _, .other (.before (.init ..))⟩ | ⟨_, _, .other (.before (.scan ..))⟩
  | ⟨_, _, .other (.before (.returned _))⟩ => False

variable {D : Driver} {address : Nat → Int} {s s' : Contending} {w w' : World} {c n n' : Nat}
  {f : Racer} {o o' : Opener} {op : InitOp} {rest : List InitOp} {raw : List Event}
  {openers openers' : Finset Nat} {turn : Turn} {tr more : List Occurrence}

/-! ## Accesses -/

theorem initOps_ne_nil (D : Driver) : D.initOps ≠ [] := by
  cases D <;> decide

theorem initOps_storeCount (code : .storeCount :: rest <:+ D.initOps) : rest = [] := by
  have all : ∀ todo ∈ D.initOps.tails, todo.head? = some .storeCount → todo.tail = [] := by
    cases D <;> decide
  exact code_forall all code rfl

theorem ptrErr_notMem (D : Driver) : .ptrErr ∉ D.initOps := by
  cases D <;> decide

theorem softPWM_of_wakeUp (code : .wakeUp ∈ D.initOps) : D = .softPWM := by
  cases D with
  | softPWM => rfl
  | xenoPWM => exact absurd code (by decide)

theorem xenoPWM_of_rtdmTaskInit (code : .rtdmTaskInit ∈ D.initOps) : D = .xenoPWM := by
  cases D with
  | softPWM => exact absurd code (by decide)
  | xenoPWM => rfl

/-- What an access changes of the numbers that requests subscript with. -/
structure InitOp.Changes (op : InitOp) (w : World) (o : Opener) (w' : World) (o' : Opener) : Prop where
  count : w'.pwmPinCount = if op = .storeCount then o.index + 1 else w.pwmPinCount
  index : o'.index = o.index ∨ o'.index = w.pwmPinCount
  position : o'.position = o.position ∨ o'.position = w.pwmPinCount
  tasks : ∀ t ∈ w'.tasks, t.pos = o.position ∨ ∃ t₀ ∈ w.tasks, t₀.pos = t.pos
  left : o'.todo = o.todo ∧ (op ≠ .ptrErr → o'.err = o.err) ∨
    op ≠ .storeCount ∧ ∀ x ∈ o'.todo, x.Closing

theorem InitOp.Changes.same (count : w'.pwmPinCount = w.pwmPinCount) (tasks : w'.tasks = w.tasks)
    (other : op ≠ .storeCount) : op.Changes w o w' o where
  count := by rw [if_neg other, count]
  index := .inl rfl
  position := .inl rfl
  tasks := fun t member => .inr ⟨t, tasks ▸ member, rfl⟩
  left := .inl ⟨rfl, fun _ => rfl⟩

theorem spawnAt_tasks (w : World) (o : Opener) (pc : TaskPc) :
    ∀ t ∈ (w.spawnAt o.position o.name o.args pc).tasks,
      t.pos = o.position ∨ ∃ t₀ ∈ w.tasks, t₀.pos = t.pos := by
  intro t member
  rcases List.mem_append.mp member with old | new
  · exact .inr ⟨t, old, rfl⟩
  · rw [List.mem_singleton.mp new]
    exact .inl rfl

theorem wake_tasks (w : World) (k : Nat) : ∀ t ∈ (w.wake k).tasks, ∃ t₀ ∈ w.tasks, t₀.pos = t.pos := by
  intro t member
  obtain ⟨j, here⟩ := List.mem_iff_getElem?.mp member
  rw [World.wake, List.getElem?_modify] at here
  obtain ⟨t₀, there, rfl⟩ := Option.map_eq_some_iff.mp here
  refine ⟨t₀, List.mem_of_getElem? there, ?_⟩
  split
  · split <;> rfl
  · rfl

/-- An access with an index in the tables, whatever they hold: it is done, or it wakes no
    thread. -/
theorem Opener.exec_bounded (address : Nat → Int) (w : World) (op : InitOp)
    (inside : o.index < maxPwmNum) :
    (∃ raw w' o', o.exec address w op = .ok raw (w', o') ∧ (∀ e ∈ raw, e.InBounds) ∧
      op.Changes w o w' o') ∨
    op = .wakeUp ∧ ∃ raw ref, o.exec address w op = .fault raw (.notAThread ref) ∧
      ∀ e ∈ raw, e.InBounds := by
  have here : ∀ table, (Event.subscript table o.index).InBounds := fun _ => inside
  have old : ∀ t ∈ w.tasks, t.pos = o.position ∨ ∃ t₀ ∈ w.tasks, t₀.pos = t.pos :=
    fun t member => .inr ⟨t, member, rfl⟩
  cases op with
  | index => exact .inl ⟨[], w, _, rfl, nofun, rfl, .inr rfl, .inl rfl, old, .inl ⟨rfl, fun _ => rfl⟩⟩
  | position => exact .inl ⟨[], w, _, rfl, nofun, rfl, .inl rfl, .inr rfl, old, .inl ⟨rfl, fun _ => rfl⟩⟩
  | name =>
      exact .inl ⟨_, w, _, exec_name inside, by simp [here], rfl, .inl rfl, .inl rfl, old,
        .inl ⟨rfl, fun _ => rfl⟩⟩
  | kthreadCreate =>
      cases made : o.outcome with
      | created =>
          exact .inl ⟨[], _, _, exec_kthreadCreate_created made, nofun, rfl, .inl rfl, .inl rfl,
            spawnAt_tasks w o .asleep, .inl ⟨rfl, fun _ => rfl⟩⟩
      | failed why =>
          exact .inl ⟨[], w, _, exec_kthreadCreate_failed made, nofun, rfl, .inl rfl, .inl rfl, old,
            .inl ⟨rfl, fun _ => rfl⟩⟩
  | storeTask => exact .inl ⟨_, _, o, exec_storeTask inside, by simp [here], .same rfl rfl nofun⟩
  | storeNull => exact .inl ⟨_, _, o, exec_storeNull inside, by simp [here], .same rfl rfl nofun⟩
  | setPin => exact .inl ⟨_, _, o, exec_setPin inside, by simp [here], .same rfl rfl nofun⟩
  | setMin => exact .inl ⟨_, _, o, exec_setMin inside, by simp [here], .same rfl rfl nofun⟩
  | setMax => exact .inl ⟨_, _, o, exec_setMax inside, by simp [here], .same rfl rfl nofun⟩
  | setDuty => exact .inl ⟨_, _, o, exec_setDuty inside, by simp [here], .same rfl rfl nofun⟩
  | printField => exact .inl ⟨_, w, o, exec_printField inside, by simp [here], .same rfl rfl nofun⟩
  | isErr =>
      by_cases failed : ∃ why, w.taskTable[o.index] = .error why
      · obtain ⟨why, failed⟩ := failed
        exact .inl ⟨_, w, _, exec_isErr_error inside failed, by simp [here], rfl, .inl rfl, .inl rfl, old,
          .inr ⟨nofun, by simp [failedOps, InitOp.Closing]⟩⟩
      · exact .inl ⟨_, w, o, exec_isErr_valid inside fun why same => failed ⟨why, same⟩, by simp [here],
          .same rfl rfl nofun⟩
  | ptrErr =>
      exact .inl ⟨_, w, _, exec_ptrErr inside, by simp [here], rfl, .inl rfl, .inl rfl, old,
        .inl ⟨rfl, fun other => absurd rfl other⟩⟩
  | wakeUp =>
      by_cases thread : ∃ k, w.taskTable[o.index] = .thread k
      · obtain ⟨k, thread⟩ := thread
        exact .inl ⟨_, w.wake k, o, exec_wakeUp inside thread, by simp [here], rfl, .inl rfl, .inl rfl,
          fun t member => .inr (wake_tasks w k t member), .inl ⟨rfl, fun _ => rfl⟩⟩
      · exact .inr ⟨rfl, _, _, exec_wakeUp_wrong inside fun k same => thread ⟨k, same⟩, by simp [here]⟩
  | rtdmTaskInit =>
      cases made : o.outcome with
      | created =>
          exact .inl ⟨_, _, o, exec_rtdmTaskInit_created inside made, by simp [here], rfl, .inl rfl,
            .inl rfl, spawnAt_tasks w o .entry, .inl ⟨rfl, fun _ => rfl⟩⟩
      | failed why =>
          exact .inl ⟨_, w, _, exec_rtdmTaskInit_failed inside made, by simp [here], rfl, .inl rfl,
            .inl rfl, old, .inr ⟨nofun, by simp [InitOp.Closing]⟩⟩
  | storeCount =>
      exact .inl ⟨[], _, o, rfl, nofun, rfl, .inl rfl, .inl rfl, old, .inl ⟨rfl, fun _ => rfl⟩⟩

theorem Opener.FromBranch.tail (branch : o.FromBranch D) (todo : o.todo = op :: rest)
    (same : o'.todo = rest) (err : op ≠ .ptrErr → o'.err = o.err) : o'.FromBranch D := by
  rcases branch with ⟨code, zero⟩ | closing
  · left
    rw [todo] at code
    refine ⟨same ▸ (List.suffix_cons op rest).trans code, (err ?_).trans zero⟩
    rintro rfl
    exact ptrErr_notMem D (code.subset List.mem_cons_self)
  · right
    intro x member
    exact closing x (todo ▸ List.mem_cons_of_mem op (same ▸ member))

theorem Opener.FromBranch.counts (branch : o.FromBranch D) (todo : o.todo = .storeCount :: rest) :
    rest = [] ∧ o.err = 0 := by
  rcases branch with ⟨code, zero⟩ | closing
  · rw [todo] at code
    exact ⟨initOps_storeCount code, zero⟩
  · have last := closing .storeCount (todo ▸ List.mem_cons_self)
    simp [InitOp.Closing] at last

theorem Opener.FromBranch.mem (branch : o.FromBranch D) (todo : o.todo = op :: rest)
    (other : ¬ op.Closing) : op ∈ D.initOps := by
  rcases branch with ⟨code, -⟩ | closing
  · rw [todo] at code
    exact code.subset List.mem_cons_self
  · exact absurd (closing op (todo ▸ List.mem_cons_self)) other

theorem Opener.reuses_iff : o.reuses w op = true ↔
    op = .rtdmTaskInit ∧ ∃ k, w.taskTable[o.index]? = some (.thread k) := by
  unfold Opener.reuses
  split
  · rename_i k held
    simp [held]
  · rename_i other
    constructor
    · rintro ⟨⟩
    · rintro ⟨rfl, k, held⟩
      exact absurd held (other k rfl)

structure Opener.Advances (D : Driver) (w : World) (o : Opener) (w' : World) (o' : Opener) : Prop where
  branch : o'.FromBranch D
  index : o'.index = o.index ∨ o'.index = w.pwmPinCount
  position : o'.position = o.position ∨ o'.position = w.pwmPinCount
  tasks : ∀ t ∈ w'.tasks, t.pos = o.position ∨ ∃ t₀ ∈ w.tasks, t₀.pos = t.pos
  count : w'.pwmPinCount = w.pwmPinCount ∨
    w'.pwmPinCount = o.index + 1 ∧ o'.todo = [] ∧ o'.err = 0

/-- What may go wrong where requests race. -/
def RaceFault.Expected (D : Driver) : RaceFault → Prop
  | .kernel (.notAThread _) => D = .softPWM
  | .inUse _ => D = .xenoPWM
  | .kernel (.outOfBounds ..) => False

theorem Opener.FromBranch.step (branch : o.FromBranch D) (address : Nat → Int) (w : World)
    (more : o.todo ≠ []) (inside : o.index < maxPwmNum) :
    (∃ raw w' o', o.step address w = .ok raw (w', o') ∧ (∀ e ∈ raw, e.InBounds) ∧
      o.Advances D w w' o') ∨
    ∃ raw why, o.step address w = .fault raw why ∧ why.Expected D ∧ ∀ e ∈ raw, e.InBounds := by
  obtain ⟨op, rest, todo⟩ := List.exists_cons_of_ne_nil more
  by_cases reuse : o.reuses w op = true
  · have occupied := Opener.reuses_iff.mp reuse
    refine .inr ⟨[.subscript .taskTable o.index], .inUse o.index,
      by simp only [Opener.step, todo, reuse, ↓reduceIte], ?_, by simpa [Event.InBounds] using inside⟩
    exact xenoPWM_of_rtdmTaskInit (occupied.1 ▸ branch.mem todo (by simp [occupied.1, InitOp.Closing]))
  · have steps : o.step address w =
        (Opener.exec address w { o with todo := rest } op).mapFault .kernel := by
      simp only [Opener.step, todo, reuse, Bool.false_eq_true, ↓reduceIte]
    rcases Opener.exec_bounded (o := { o with todo := rest }) address w op inside with
      ⟨raw, w', o', run, bounds, changes⟩ | ⟨rfl, raw, ref, run, bounds⟩
    · refine .inl ⟨raw, w', o', by rw [steps, run]; rfl, bounds, ?_, changes.index, changes.position,
        changes.tasks, ?_⟩
      · rcases changes.left with ⟨same, err⟩ | ⟨-, closing⟩
        · exact branch.tail todo same err
        · exact .inr closing
      · by_cases counts : op = .storeCount
        · subst counts
          obtain ⟨rfl, zero⟩ := branch.counts todo
          rcases changes.left with ⟨same, err⟩ | ⟨other, -⟩
          · exact .inr ⟨changes.count, same, (err (by decide)).trans zero⟩
          · exact absurd rfl other
        · exact .inl (by rw [changes.count, if_neg counts])
    · exact .inr ⟨raw, .kernel (.notAThread ref), by rw [steps, run]; rfl,
        softPWM_of_wakeUp (branch.mem todo (by simp [InitOp.Closing])), bounds⟩

theorem other_proceeds {pc : ClientPc} {req : Request} {outcome : CreateOutcome} {counted card : Nat}
    (fit : Racer.Fit D n counted card ⟨req, outcome, .other pc⟩) (few : n ≤ maxPwmNum) (w : World) :
    ∃ raw w' next, pc.step w = .ok raw (w', next) ∧ (∀ e ∈ raw, e.InBounds) ∧ req.isInit = false ∧
      w'.tasks = w.tasks ∧ w'.pwmPinCount = w.pwmPinCount ∧
      (next = .before (.returned 0) ∨ ∃ pin type old, next = .between pin type old) := by
  cases pc with
  | between pin type old =>
      exact ⟨_, _, _, rfl, by simp [Event.InBounds], fit, rfl, rfl, .inl rfl⟩
  | before call =>
      cases call with
      | init | scan | returned => exact fit.elim
      | pinSet pin type =>
          by_cases valid : ValidType type
          · exact ⟨_, w, _, step_load pin w valid, by simp [Event.InBounds], fit, rfl, rfl,
              .inr ⟨_, _, _, rfl⟩⟩
          · exact ⟨[], w, _, step_ignore pin w valid, by simp, fit, rfl, rfl, .inl rfl⟩
      | gpioSet pin status =>
          obtain ⟨raw, gpio, run, bounds⟩ := gpioStatus_keeps pin status w
          exact ⟨raw, { w with gpio := gpio }, .before (.returned 0),
            by simp [ClientPc.step, Call.step_gpioSet run], bounds, fit, rfl, rfl, .inl rfl⟩
      | update pos duty =>
          obtain ⟨other, below⟩ := fit
          have inside : pos < maxPwmNum := Nat.lt_of_lt_of_le below few
          exact ⟨[.subscript .dutyArray pos, .subscript .dutyArray pos], w.withDuty pos inside duty,
            .before (.returned 0), by simp [ClientPc.step, Call.step_update inside, World.withDuty],
            by simp [Event.InBounds, inside], other, rfl, rfl, .inl rfl⟩

/-! ## Runs -/

/-- The state of a run in which `n` `PWM_INIT` requests have entered so far, and those of the
    openers are in flight. -/
structure Contended (D : Driver) (n : Nat) (openers : Finset Nat) (tr : List Occurrence)
    (s : Contending) : Prop where
  budget : s.world.pwmPinCount + openers.card ≤ n
  fit : ∀ c f, s.flight c = some f → f.Fit D n (opened tr) openers.card
  member : ∀ c f, s.flight c = some f → f.req.isInit = true → c ∈ openers
  pos : ∀ t ∈ s.world.tasks, t.pos < n
  bounds : ∀ e, .event e ∈ tr → e.InBounds
  counted : s.world.pwmPinCount ≤ opened tr

theorem Contended.load (D : Driver) (gpio : Gpio) : Contended D 0 ∅ [] (.load gpio) where
  budget := Nat.le_refl _
  fit := nofun
  member := nofun
  pos := by simp [Contending.load, World.load]
  bounds := by simp
  counted := Nat.le_refl _

theorem opened_append (tr more : List Occurrence) : opened (tr ++ more) = opened tr + opened more := by
  simp only [opened, answers, List.filterMap_append, List.countP_append]

theorem opened_events (raw : List Event) : opened (raw.map .event) = 0 := by
  simp [opened, answers]

theorem Racer.Fit.mono {counted counted' card card' : Nat} (fit : f.Fit D n counted card)
    (more : n ≤ n') (slack : n + card' ≤ n' + card) (later : counted ≤ counted') :
    f.Fit D n' counted' card' := by
  obtain ⟨req, outcome, pc⟩ := f
  cases pc with
  | opening o =>
      obtain ⟨init, todo, branch, index, position, seen⟩ := fit
      exact ⟨init, todo, branch, by omega, by omega, seen.trans later⟩
  | look pin duty i => exact ⟨fit.1, Nat.lt_of_lt_of_le fit.2 more⟩
  | scan => exact fit
  | other pc =>
      cases pc with
      | between => exact fit
      | before call =>
          cases call with
          | update pos duty => exact ⟨fit.1, Nat.lt_of_lt_of_le fit.2 more⟩
          | init | pinSet | gpioSet | scan | returned => exact fit

theorem Contended.put {next : Option Racer} (contended : Contended D n openers tr s)
    (le : n ≤ n') (slack : n + openers'.card ≤ n' + openers.card)
    (kept : ∀ c' ∈ openers, c' ≠ c → c' ∈ openers')
    (budget : w.pwmPinCount + openers'.card ≤ n')
    (mine : ∀ g, next = some g → g.Fit D n' (opened (tr ++ more)) openers'.card ∧
      (g.req.isInit = true → c ∈ openers'))
    (pos : ∀ t ∈ w.tasks, t.pos < n') (bounds : ∀ e, .event e ∈ more → e.InBounds)
    (counted : w.pwmPinCount ≤ opened (tr ++ more)) :
    Contended D n' openers' (tr ++ more) (s.put w c next) where
  budget := budget
  fit := by
    intro c' f there
    by_cases same : c' = c
    · subst same
      rw [Contending.flight_put_self] at there
      exact (mine f there).1
    · rw [Contending.flight_put_other same] at there
      refine (contended.fit c' f there).mono le slack ?_
      rw [opened_append]
      exact Nat.le_add_right _ _
  member := by
    intro c' f there init
    by_cases same : c' = c
    · subst same
      rw [Contending.flight_put_self] at there
      exact (mine f there).2 init
    · rw [Contending.flight_put_other same] at there
      exact kept c' (contended.member c' f there init) same
  pos := pos
  bounds := by
    intro e member
    rcases List.mem_append.mp member with before | now
    · exact contended.bounds e before
    · exact bounds e now
  counted := counted

theorem Contended.enter {req : Request} {outcome : CreateOutcome}
    (contended : Contended D n openers tr s) :
    ∃ openers', Contended D (n + if req.isInit then 1 else 0) openers' (tr ++ [.entered c req])
      (s.put s.world c (some ⟨req, outcome, .start D outcome req⟩)) := by
  have budget := contended.budget
  have pos : ∀ m, ∀ t ∈ s.world.tasks, t.pos < n + m :=
    fun m t member => Nat.lt_of_lt_of_le (contended.pos t member) (Nat.le_add_right _ _)
  have counted : s.world.pwmPinCount ≤ opened (tr ++ [.entered c req]) := by
    rw [opened_append]
    exact contended.counted
  cases init : req.isInit with
  | true =>
      have card := Finset.card_insert_le c openers
      refine ⟨insert c openers, contended.put (Nat.le_add_right _ _) (by simp; omega)
        (fun c' old _ => Finset.mem_insert_of_mem old) (by simp; omega) ?_ (pos _) (by simp) counted⟩
      rintro g ⟨⟩
      refine ⟨?_, fun _ => Finset.mem_insert_self c openers⟩
      cases req with
      | pinSet | gpioSet | pwmSet => cases init
      | pwmInit args =>
          refine ⟨rfl, initOps_ne_nil D, .inl ⟨List.suffix_rfl, rfl⟩, ?_, ?_, Nat.zero_le _⟩
          · simp [Opener.start]
            omega
          · simp [Opener.start]
            omega
  | false =>
      refine ⟨openers, contended.put (Nat.le_add_right _ _) (by simp) (fun c' old _ => old)
        (by simpa using budget) ?_ (pos _) (by simp) counted⟩
      rintro g ⟨⟩
      refine ⟨?_, fun flag => absurd (init.symm.trans flag) nofun⟩
      cases req with
      | pwmInit => cases init
      | pinSet | gpioSet | pwmSet => rfl

theorem answered_inBounds (f : Racer) (c : Nat) (next : RacerPc) (within : ∀ e ∈ raw, e.InBounds) :
    ∀ e, .event e ∈ raw.map .event ++ f.answered c next → e.InBounds := by
  intro e member
  rcases List.mem_append.mp member with mine | answer
  · exact within e (by simpa using mine)
  · unfold Racer.answered at answer
    split at answer <;> simp at answer

theorem Contended.opener (contended : Contended D n openers tr s) (here : s.flight c = some f)
    (at_ : f.pc = .opening o) (bounds : ∀ e ∈ raw, e.InBounds) (advances : o.Advances D s.world w o') :
    ∃ openers', Contended D n openers' (tr ++ (raw.map .event ++ f.answered c (.resume o')))
      (s.put w c (f.after (.resume o'))) := by
  have fit := contended.fit c f here
  obtain ⟨req, outcome, pc⟩ := f
  subst at_
  obtain ⟨init, -, -, index, position, seen⟩ := fit
  have member := contended.member c _ here init
  have one : 0 < openers.card := Finset.card_pos.mpr ⟨c, member⟩
  have budget := contended.budget
  have counted := contended.counted
  have pos : ∀ t ∈ w.tasks, t.pos < n := by
    intro t mine
    rcases advances.tasks t mine with new | ⟨t₀, old, same⟩
    · omega
    · exact same ▸ contended.pos t₀ old
  by_cases last : o'.todo = []
  · have card := Finset.card_erase_of_mem member
    have resumed : RacerPc.resume o' = .returned o'.err := if_pos last
    rw [resumed]
    have answers_ : opened (tr ++ (raw.map .event ++
        [.returned c ⟨req, outcome, o'.err⟩])) = opened tr + if o'.err = 0 then 1 else 0 := by
      rw [opened_append, opened_append, opened_events, Nat.zero_add]
      by_cases zero : o'.err = 0 <;> simp [opened, answers, Answer.opened, init, zero]
    refine ⟨openers.erase c, contended.put (Nat.le_refl n) (by omega)
      (fun c' old other => Finset.mem_erase.mpr ⟨other, old⟩) ?_ nofun pos
      (answered_inBounds _ c _ bounds) ?_⟩
    · rcases advances.count with same | ⟨stored, -, -⟩ <;> omega
    · refine le_of_le_of_eq ?_ answers_.symm
      rcases advances.count with same | ⟨stored, -, zero⟩
      · omega
      · rw [stored, if_pos zero]
        omega
  · have resumed : RacerPc.resume o' = .opening o' := if_neg last
    have count : w.pwmPinCount = s.world.pwmPinCount :=
      advances.count.resolve_right fun stored => last stored.2.1
    have more : opened (tr ++ (raw.map .event ++ [])) = opened tr := by
      rw [List.append_nil, opened_append, opened_events, Nat.add_zero]
    rw [resumed]
    refine ⟨openers, contended.put (Nat.le_refl n) (Nat.le_refl _) (fun c' old _ => old)
      (count ▸ budget) ?_ pos (answered_inBounds _ c _ bounds)
      (le_of_le_of_eq (count ▸ counted) more.symm)⟩
    rintro g ⟨⟩
    refine ⟨⟨init, last, advances.branch, ?_, ?_, ?_⟩, fun _ => member⟩
    · rcases advances.index with same | same <;> omega
    · rcases advances.position with same | same <;> omega
    · refine le_of_le_of_eq ?_ more.symm
      rcases advances.index with same | same <;> omega

theorem Contended.passes (contended : Contended D n openers tr s) (f : Racer) (next : RacerPc)
    (other : f.req.isInit = false) (tasks : w.tasks = s.world.tasks)
    (count : w.pwmPinCount = s.world.pwmPinCount) (bounds : ∀ e ∈ raw, e.InBounds)
    (mine : ∀ g counted, f.after next = some g → g.Fit D n counted openers.card) :
    ∃ openers', Contended D n openers' (tr ++ (raw.map .event ++ f.answered c next))
      (s.put w c (f.after next)) := by
  refine ⟨openers, contended.put (Nat.le_refl n) (Nat.le_refl _) (fun c' old _ => old)
    (count ▸ contended.budget) (fun g after => ⟨mine g _ after, fun init => ?_⟩)
    (fun t member => contended.pos t (tasks ▸ member)) (answered_inBounds f c next bounds) ?_⟩
  · have kept : g.req = f.req := by
      unfold Racer.after at after
      split at after <;> cases after
      rfl
    rw [kept, other] at init
    cases init
  · rw [opened_append, count]
    exact contended.counted.trans (Nat.le_add_right _ _)

theorem Contended.statement (contended : Contended D n openers tr s) (few : n ≤ maxPwmNum)
    (address : Nat → Int) (here : s.flight c = some f) :
    (∃ tr' s' openers', s.advance address c f = .ok tr' s' ∧ Contended D n openers' (tr ++ tr') s') ∨
    ∃ tr' why, s.advance address c f = .fault tr' why ∧ why.Expected D ∧
      ∀ e, .event e ∈ tr' → e.InBounds := by
  have fit := contended.fit c f here
  have bound : s.world.pwmPinCount ≤ n := Nat.le_of_add_right_le contended.budget
  obtain ⟨req, outcome, pc⟩ := f
  cases pc with
  | opening o =>
      obtain ⟨init, more, branch, index, -⟩ := fit
      have one : 0 < openers.card := Finset.card_pos.mpr ⟨c, contended.member c _ here init⟩
      rcases branch.step address s.world more (by omega) with
        ⟨raw, w, o', run, bounds, advances⟩ | ⟨raw, why, run, expected, bounds⟩
      · obtain ⟨openers', held⟩ := contended.opener here rfl bounds advances
        exact .inl ⟨_, _, openers', Contending.advance_ok (by simp [RacerPc.step, run]), held⟩
      · refine .inr ⟨raw.map .event, why, ?_, expected, by simpa using bounds⟩
        simp [Contending.advance, RacerPc.step, run]
  | scan pin duty i =>
      have mine : ∀ g counted, Racer.after ⟨req, outcome, .scan pin duty i⟩
          (if i < s.world.pwmPinCount then .look pin duty i else .returned 0) = some g →
          g.Fit D n counted openers.card := by
        intro g counted after
        split at after
        · cases after
          exact ⟨fit, by omega⟩
        · cases after
      obtain ⟨openers', held⟩ := contended.passes (c := c) ⟨req, outcome, .scan pin duty i⟩ _ fit rfl rfl
        (List.forall_mem_nil Event.InBounds) mine
      exact .inl ⟨_, _, openers', Contending.advance_ok rfl, held⟩
  | look pin duty i =>
      obtain ⟨other, below⟩ := fit
      have inside : i < maxPwmNum := Nat.lt_of_lt_of_le below few
      have mine : ∀ g counted, Racer.after ⟨req, outcome, .look pin duty i⟩
          (if s.world.dutyArray[i].pin = pin then .other (.before (.update i duty))
            else .scan pin duty (i + 1)) = some g → g.Fit D n counted openers.card := by
        intro g counted after
        split at after
        · cases after
          exact ⟨other, below⟩
        · cases after
          exact other
      have read : ∀ e ∈ [Event.subscript .dutyArray i], e.InBounds := by
        simp [Event.InBounds, inside]
      obtain ⟨openers', held⟩ := contended.passes (c := c) ⟨req, outcome, .look pin duty i⟩ _ other
        rfl rfl read mine
      exact .inl ⟨_, _, openers',
        Contending.advance_ok (by simp [RacerPc.step, World.slot_eq inside]), held⟩
  | other pc =>
      obtain ⟨raw, w, next, run, bounds, other, tasks, count, ends⟩ := other_proceeds fit few s.world
      have mine : ∀ g counted, Racer.after ⟨req, outcome, .other pc⟩ (.other next) = some g →
          g.Fit D n counted openers.card := by
        intro g counted after
        rcases ends with rfl | ⟨pin, type, old, rfl⟩
        · cases after
        · cases after
          exact other
      obtain ⟨openers', held⟩ := contended.passes (c := c) ⟨req, outcome, .other pc⟩ _ other tasks
        count bounds mine
      exact .inl ⟨_, _, openers', Contending.advance_ok (by simp [RacerPc.step, run]), held⟩

theorem Contended.task {k : Nat} {swap : Bool} {x : Kernel World}
    (contended : Contended D n openers tr s) (few : n ≤ maxPwmNum)
    (stepped : D.pwmTask s.world k swap = some x) :
    ∃ raw w, x = .ok raw w ∧ Contended D n openers (tr ++ raw.map .event) { s with world := w } := by
  obtain ⟨t, here, -⟩ := Driver.pwmTask_some stepped
  have inside : t.pos < maxPwmNum :=
    Nat.lt_of_lt_of_le (contended.pos t (List.mem_of_getElem? here)) few
  obtain ⟨pc, raw, level, move, rfl⟩ := Driver.pwmTask_move here inside stepped
  have count : ((s.world.driven s.world.dutyArray[t.pos].pin level).jump k pc).pwmPinCount =
      s.world.pwmPinCount := by
    cases level <;> rfl
  have same : opened (tr ++ raw.map .event) = opened tr := by
    rw [opened_append, opened_events, Nat.add_zero]
  refine ⟨raw, _, rfl, ?_⟩
  exact
    { budget := count ▸ contended.budget
      fit := same ▸ contended.fit
      member := contended.member
      pos := by
        intro t' member
        obtain ⟨j, there⟩ := List.mem_iff_getElem?.mp member
        by_cases mine : k = j
        · subst mine
          obtain rfl := Option.some.inj ((tasks_moved here).symm.trans there)
          exact contended.pos t (List.mem_of_getElem? here)
        · rw [tasks_unmoved mine] at there
          exact contended.pos t' (List.mem_of_getElem? there)
      bounds := by
        intro e member
        rcases List.mem_append.mp member with before | now
        · exact contended.bounds e before
        · exact move.inBounds inside e (by simpa using now)
      counted := same ▸ count ▸ contended.counted }

/-- A step in a state of such a run ends in another one, or it goes wrong in the way expected. -/
theorem Contended.step {x : Traced Occurrence RaceFault Contending}
    (contended : Contended D n openers tr s) (few : n + (if turn.isInit then 1 else 0) ≤ maxPwmNum)
    (taken : (D.contending address).step s turn = some x) :
    (∃ tr' s' openers', x = .ok tr' s' ∧
      Contended D (n + if turn.isInit then 1 else 0) openers' (tr ++ tr') s') ∨
    ∃ tr' why, x = .fault tr' why ∧ why.Expected D ∧ ∀ e, .event e ∈ tr' → e.InBounds := by
  cases Contending.step_taken taken with
  | enter idle =>
      obtain ⟨openers', held⟩ := contended.enter
      exact .inl ⟨_, _, openers', rfl, held⟩
  | @statement c f here =>
      have few : n ≤ maxPwmNum := by simpa [Turn.isInit] using few
      exact contended.statement few address here
  | @task k swap y stepped =>
      have few : n ≤ maxPwmNum := by simpa [Turn.isInit] using few
      obtain ⟨raw, w, rfl, held⟩ := contended.task few stepped
      exact .inl ⟨raw.map .event, _, openers, by simp, held⟩

theorem Contended.of_reaches {gpio : Gpio} {turns : List Turn}
    (reach : (D.contending address).Reaches (.load gpio) turns tr s)
    (few : turns.countP Turn.isInit ≤ maxPwmNum) :
    ∃ openers, Contended D (turns.countP Turn.isInit) openers tr s := by
  revert few
  refine reach.induction (Q := fun turns tr s => turns.countP Turn.isInit ≤ maxPwmNum →
    ∃ openers, Contended D (turns.countP Turn.isInit) openers tr s) (fun _ => ⟨∅, .load D gpio⟩) ?_
  intro turns tr s turn tr' s' left held taken few
  have split : (turns ++ [turn]).countP Turn.isInit =
      turns.countP Turn.isInit + if turn.isInit then 1 else 0 := by
    rw [List.countP_append, List.countP_singleton]
  rw [split] at few ⊢
  obtain ⟨openers, contended⟩ := held (by omega)
  rcases contended.step few taken with ⟨_, _, openers', same, next⟩ | ⟨_, _, wrong, -⟩
  · cases same
    exact ⟨openers', next⟩
  · cases wrong

end KsoftPWM
