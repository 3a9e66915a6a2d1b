import KsoftPWM.Duty
import KsoftPWM.Timing

/-! # The iterations of a task

Between two visits to its loop head a task reads `duty_cycle` once for every argument
of its two sleeps, and any `PWM_SET` may come in between: four reads in softPWM, where
each sleep takes a lower and an upper bound, two in xenoPWM.  The reads and sleeps of
a task form a sequence of completed iterations followed by a begun one, and what an
iteration asks for is decided by what its reads found.
-/

namespace KsoftPWM

def InitArgs.InScale (args : InitArgs) (duty : Int32) : Prop :=
  0 ≤ duty.toInt ∧ duty.toInt ≤ args.range

instance (args : InitArgs) (duty : Int32) : Decidable (args.InScale duty) :=
  inferInstanceAs (Decidable (_ ∧ _))

def ownEvents (k : Nat) (tr : List (Agent × Event)) : List Event :=
  tr.filterMap fun e =>
    match e with
    | (.task j, .duty value) => if j = k then some (.duty value) else none
    | (.task j, .sleep phase args) => if j = k then some (.sleep phase args) else none
    | _ => none

/-- A completed iteration: what each half has read, and how it called its sleep. -/
structure Iteration where
  highReads : List Int32
  high : List (Option Int32)
  lowReads : List Int32
  low : List (Option Int32)
  deriving Repr, DecidableEq

def Iteration.events (it : Iteration) : List Event :=
  it.highReads.map .duty ++ [.sleep .high it.high] ++
    (it.lowReads.map .duty ++ [.sleep .low it.low])

structure Reading (D : Driver) (args : InitArgs) (phase : Phase) (reads : List Int32)
    (times : List (Option Int32)) : Prop where
  short : reads.length ≤ D.sleepArity
  inScale : ∀ d ∈ reads, args.InScale d
  times : times = reads.map fun d => D.sleepTime phase (args.slot d)

/-- A half of an iteration: one read for each argument of the sleep, which gets their
    times in the one or the other order. -/
structure Half (D : Driver) (args : InitArgs) (phase : Phase) (reads : List Int32)
    (sleep : List (Option Int32)) : Prop where
  arity : reads.length = D.sleepArity
  inScale : ∀ d ∈ reads, args.InScale d
  sleep : ∃ swap : Bool, sleep =
    let times := reads.map fun d => D.sleepTime phase (args.slot d)
    if swap then times.reverse else times

def Iteration.Runs (D : Driver) (args : InitArgs) (it : Iteration) : Prop :=
  Half D args .high it.highReads it.high ∧ Half D args .low it.lowReads it.low

/-- The events of the iteration a task has begun, by where it is. -/
def Begun (D : Driver) (args : InitArgs) : TaskPc → List Event → Prop
  | .eval .high times, evs => ∃ reads, Reading D args .high reads times ∧ evs = reads.map .duty
  | .clr, evs => ∃ reads sleep, Half D args .high reads sleep ∧
      evs = reads.map .duty ++ [.sleep .high sleep]
  | .eval .low times, evs => ∃ reads sleep reads', Half D args .high reads sleep ∧
      Reading D args .low reads' times ∧
      evs = reads.map .duty ++ [.sleep .high sleep] ++ reads'.map .duty
  | _, evs => evs = []

/-- Completed iterations, then a begun one. -/
def Iterates (D : Driver) (args : InitArgs) (pc : TaskPc) (evs : List Event) : Prop :=
  ∃ (its : List Iteration) (rest : List Event),
    evs = (its.map Iteration.events).flatten ++ rest ∧
    (∀ it ∈ its, it.Runs D args) ∧ Begun D args pc rest

variable {D : Driver} {args : InitArgs} {s s' : Sys} {tr tr' : List (Agent × Event)} {k : Nat}

theorem ownEvents_append (k : Nat) (tr tr' : List (Agent × Event)) :
    ownEvents k (tr ++ tr') = ownEvents k tr ++ ownEvents k tr' :=
  List.filterMap_append

theorem ownEvents_foreign {agent : Agent} (foreign : agent ≠ .task k) (raw : List Event) :
    ownEvents k (raw.map (agent, ·)) = [] := by
  simp only [ownEvents, List.filterMap_map, List.filterMap_eq_nil_iff, Function.comp_apply]
  intro e _
  cases agent with
  | task j =>
      have other : j ≠ k := fun same => foreign (congrArg Agent.task same)
      cases e <;> simp [other]
  | client | exit => rfl

theorem Reading.snoc {phase : Phase} {reads : List Int32} {times : List (Option Int32)} {d : Int32}
    (reading : Reading D args phase reads times) (short : times.length < D.sleepArity)
    (inScale : args.InScale d) :
    Reading D args phase (reads ++ [d]) (times ++ [D.sleepTime phase (args.slot d)]) where
  short := by
    rw [reading.times, List.length_map] at short
    rw [List.length_append]
    exact short
  inScale := by
    intro e member
    rcases List.mem_append.mp member with old | new
    · exact reading.inScale e old
    · rw [List.mem_singleton.mp new]
      exact inScale
  times := by simp [reading.times]

theorem Reading.half {phase : Phase} {reads : List Int32} {times : List (Option Int32)}
    (reading : Reading D args phase reads times) (full : ¬ times.length < D.sleepArity)
    (swap : Bool) : Half D args phase reads (if swap then times.reverse else times) where
  arity := by
    have short := reading.short
    rw [reading.times, List.length_map] at full
    omega
  inScale := reading.inScale
  sleep := ⟨swap, by rw [reading.times]⟩

/-- A move of the task extends what it has begun, or completes it. -/
theorem Iterates.move {slot : Dutycycle} {pos : Nat} {stop swap : Bool} {pc pc' : TaskPc}
    {raw : List Event} {level : Option Bool} {evs : List Event} (iterates : Iterates D args pc evs)
    (move : D.Move slot pos stop swap pc pc' raw level) (serves : slot.Serves args)
    (inScale : args.InScale slot.dutyCycle) :
    Iterates D args pc' (evs ++ ownEvents k (raw.map (Agent.task k, ·))) := by
  obtain ⟨its, rest, rfl, runs, begun⟩ := iterates
  have slot_eq := serves.eq_slot
  cases move with
  | entry | halt | goOn =>
      obtain rfl := begun
      exact ⟨its, [], by simp [ownEvents], runs, rfl⟩
  | set =>
      obtain rfl := begun
      exact ⟨its, [], by simp [ownEvents], runs, [], ⟨Nat.zero_le _, by simp, rfl⟩, rfl⟩
  | clr =>
      obtain ⟨reads, sleep, half, rfl⟩ := begun
      exact ⟨its, reads.map .duty ++ [.sleep .high sleep], by simp [ownEvents], runs, reads, sleep,
        [], half, ⟨Nat.zero_le _, by simp, rfl⟩, by simp⟩
  | @eval phase times short =>
      refine ⟨its, rest ++ [.duty slot.dutyCycle], by simp [ownEvents], runs, ?_⟩
      rw [slot_eq]
      cases phase with
      | high =>
          obtain ⟨reads, reading, rfl⟩ := begun
          exact ⟨reads ++ [slot.dutyCycle], reading.snoc short inScale, by simp [InitArgs.slot]⟩
      | low =>
          obtain ⟨reads, sleep, reads', half, reading, rfl⟩ := begun
          exact ⟨reads, sleep, reads' ++ [slot.dutyCycle], half, reading.snoc short inScale,
            by simp [InitArgs.slot]⟩
  | @sleep phase times full =>
      cases phase with
      | high =>
          obtain ⟨reads, reading, rfl⟩ := begun
          exact ⟨its, _, by simp [ownEvents], runs, reads, _, reading.half full swap, rfl⟩
      | low =>
          obtain ⟨reads, sleep, reads', half, reading, rfl⟩ := begun
          have half' := reading.half full swap
          refine ⟨its ++ [⟨reads, sleep, reads', if swap then times.reverse else times⟩], [],
            ?_, ?_, rfl⟩
          · simp [ownEvents, Iteration.events]
          · intro it member
            rcases List.mem_append.mp member with old | new
            · exact runs it old
            · rw [List.mem_singleton.mp new]
              exact ⟨half, half'⟩

def Scaled (args : InitArgs) (slot : Dutycycle) : Prop :=
  slot.Serves args → args.InScale slot.dutyCycle

/-- What is known of the tasks that serve a request after a trace. -/
structure Tracked (D : Driver) (args : InitArgs) (tr : List (Agent × Event)) (s : Sys) : Prop where
  keeps : s.Keeps D (Scaled args)
  absent : ∀ k : Nat, s.world.tasks[k]? = none → ownEvents k tr = []
  iterates : ∀ (k : Nat) (t : Task), s.world.tasks[k]? = some t → t.creator = args →
    Iterates D args t.pc (ownEvents k tr)

theorem Tracked.load (D : Driver) (args : InitArgs) (gpio : Gpio) :
    Tracked D args [] (Sys.load gpio) where
  keeps := Sys.load_keeps D _ gpio
  absent := fun _ _ => rfl
  iterates := by simp [Sys.load, World.load]

theorem Tracked.grows {agent : Agent} {raw : List Event} (tracked : Tracked D args tr s)
    (keeps : s'.Keeps D (Scaled args)) (grows : Grows s.world.tasks s'.world.tasks)
    (foreign : ∀ k, agent ≠ .task k) : Tracked D args (tr ++ raw.map (agent, ·)) s' where
  keeps := keeps
  absent := by
    intro k none_
    rw [ownEvents_append, ownEvents_foreign (foreign k), List.append_nil]
    refine tracked.absent k ?_
    by_contra some_
    obtain ⟨t, here⟩ := Option.ne_none_iff_exists'.mp some_
    obtain ⟨t', here', -⟩ := grows.kept k t here
    simp [none_] at here'
  iterates := by
    intro k t here mine
    rw [ownEvents_append, ownEvents_foreign (foreign k), List.append_nil]
    cases before : s.world.tasks[k]? with
    | none =>
        rw [tracked.absent k before]
        refine ⟨[], [], rfl, by simp, ?_⟩
        rcases grows.fresh k t before here with pc | pc <;> rw [pc] <;> rfl
    | some t₀ =>
        obtain ⟨t', here', creator, pc⟩ := grows.kept k t₀ before
        obtain rfl : t = t' := by simpa [here] using here'
        have held := tracked.iterates k t₀ before (creator ▸ mine)
        rcases pc with same | ⟨asleep, woken⟩
        · rw [same]
          exact held
        · rw [asleep] at held
          rw [woken]
          exact held

theorem Tracked.task {swap : Bool} {t : Task} {slot : Dutycycle} {pc : TaskPc} {raw : List Event}
    {level : Option Bool} (tracked : Tracked D args tr s)
    (step : s.TaskStep D k swap tr' s' t slot pc raw level) (keeps : s'.Keeps D (Scaled args)) :
    Tracked D args (tr ++ tr') s' := by
  obtain ⟨here, awake, -, rfl, held, serves, move, rfl, rfl⟩ := step
  obtain ⟨_, held', scaled⟩ := tracked.keeps.awake here awake
  obtain rfl := Option.some.inj (held.symm.trans held')
  have other : ∀ j, t.pos ≠ j → ownEvents j (raw.map (Agent.task t.pos, ·)) = [] :=
    fun j differs => ownEvents_foreign (by simpa using differs) raw
  refine ⟨keeps, ?_, ?_⟩
  · intro j none_
    have differs : t.pos ≠ j := by
      rintro rfl
      simp [tasks_moved here] at none_
    rw [ownEvents_append, other j differs, List.append_nil]
    exact tracked.absent j ((tasks_unmoved differs).symm.trans none_)
  · intro j t' here' mine
    rw [ownEvents_append]
    by_cases same : t.pos = j
    · subst same
      obtain rfl : { t with pc := pc } = t' := by simpa [tasks_moved here] using here'
      change t.creator = args at mine
      subst mine
      exact (tracked.iterates t.pos t here rfl).move move serves (scaled serves)
    · rw [other j same, List.append_nil]
      exact tracked.iterates j t' ((tasks_unmoved same).symm.trans here') mine

def InScaleRequests (args : InitArgs) : Label → Prop
  | .request (.pwmSet pin duty) _ => pin = args.pin → args.InScale duty
  | _ => True

instance (args : InitArgs) : DecidablePred (InScaleRequests args)
  | .request (.pwmSet pin duty) _ => inferInstanceAs (Decidable (pin = args.pin → args.InScale duty))
  | .request (.pinSet ..) _ | .request (.gpioSet ..) _ | .request (.pwmInit _) _ => .isTrue trivial
  | .statement | .task .. | .exit => .isTrue trivial

theorem InScaleRequests.respects {label : Label} (inScale : InScaleRequests args label)
    (zero : args.InScale D.creationDuty) : Respects D (Scaled args) s label := by
  cases label with
  | statement | task | exit => trivial
  | request req outcome =>
      cases req with
      | pinSet | gpioSet => trivial
      | pwmInit args' =>
          intro _ _
          exact zero
      | pwmSet pin duty =>
          intro j _ _ slot _ found _ serves
          exact inScale (found.symm.trans serves.1)

theorem Tracked.step {label : Label} (tracked : Tracked D args tr s) (admitted : Admits s label)
    (respects : Respects D (Scaled args) s label)
    (taken : s.step D label = some (.ok tr' s')) : Tracked D args (tr ++ tr') s' := by
  have keeps := tracked.keeps.step admitted respects taken
  rcases tracked.keeps.inv.moves taken with ⟨agent, raw, rfl, foreign, grows⟩ |
    ⟨k, swap, t, slot, pc, raw, level, step⟩
  · exact tracked.grows keeps grows foreign
  · exact tracked.task step keeps

end KsoftPWM
