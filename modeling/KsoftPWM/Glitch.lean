import KsoftPWM.Iterations

/-! # Updates that land inside an iteration

softPWM reads `duty_cycle` four times in an iteration.  If the four reads find the
same value the iteration is a clean one of that value, whatever `PWM_SET` requests
came before, between and after; they do if no `PWM_SET` writes the slot between the first
read and the last one.  If they do not, its bounds may be inverted and its period wrong;
for ranges up to the period in microseconds they always differ then.
-/

namespace KsoftPWM

/-- All reads of the iteration found the same duty cycle. -/
def Iteration.Steady (it : Iteration) : Prop :=
  ∃ d, ∀ r ∈ it.highReads ++ it.lowReads, r = d

/-- Both calls of `usleep_range` have ordered bounds, they ask for `HIGH_TIME` and
    `LOW_TIME` of one duty cycle, and together for a period. -/
def Iteration.GlitchFree (args : InitArgs) (it : Iteration) : Prop :=
  ∃ d lo hi lo' hi' : Int32, args.InScale d ∧
    it.high = [some lo, some hi] ∧ it.low = [some lo', some hi'] ∧ lo ≤ hi ∧ lo' ≤ hi' ∧
    Driver.softPWM.highTime (args.slot d) = some lo ∧
    Driver.softPWM.highTime (args.slot d) = some hi ∧
    Driver.softPWM.lowTime (args.slot d) = some lo' ∧
    Driver.softPWM.lowTime (args.slot d) = some hi' ∧
    (lo.toInt + lo'.toInt = 9999 ∨ lo.toInt + lo'.toInt = 10000)

variable {D : Driver} {w w' : World} {s s' : Sys} {k : Nat} {t : Task} {tr : List (Agent × Event)}
  {args : InitArgs} {it : Iteration}

/-- Up to a range of 10000 each unit of duty cycle changes the time. -/
theorem floor_injective {range a b : Int} (low : 0 < range) (high : range ≤ 10000)
    (same : 10000 * a / range = 10000 * b / range) : a = b := by
  have step : ∀ x y : Int, x < y → 10000 * x / range < 10000 * y / range := by
    intro x y less
    calc 10000 * x / range < 10000 * x / range + 1 := Int.lt_succ _
      _ = (10000 * x + 1 * range) / range := (Int.add_mul_ediv_right _ 1 low.ne').symm
      _ ≤ 10000 * y / range := Int.ediv_le_ediv low (by omega)
  rcases Int.lt_trichotomy a b with less | equal | greater
  · exact absurd same (step a b less).ne
  · exact equal
  · exact absurd same (step b a greater).ne'

theorem soft_times_of (low : 0 < args.range) (high : args.range ≤ 214748) {d : Int32}
    (inScale : args.InScale d) :
    ∃ h l, Driver.softPWM.highTime (args.slot d) = some h ∧
      Driver.softPWM.lowTime (args.slot d) = some l ∧
      h.toInt = 10000 * d.toInt / args.range ∧
      l.toInt = 10000 * (args.range - d.toInt) / args.range := by
  obtain ⟨nonneg, inRange⟩ := inScale
  have small : d.toInt ≤ 214748 := inRange.trans high
  have rest : args.range - d.toInt ≤ 214748 := by omega
  exact soft_times (args.slot d) low nonneg inRange small rest

theorem highTime_injective (low : 0 < args.range) (high : args.range ≤ 10000) {a b time : Int32}
    (scaleA : args.InScale a) (scaleB : args.InScale b)
    (timeA : Driver.softPWM.highTime (args.slot a) = some time)
    (timeB : Driver.softPWM.highTime (args.slot b) = some time) : a = b := by
  obtain ⟨h, _, h_eq, -, value, -⟩ := soft_times_of low (by omega) scaleA
  obtain ⟨h', _, h'_eq, -, value', -⟩ := soft_times_of low (by omega) scaleB
  rw [timeA] at h_eq
  rw [timeB] at h'_eq
  cases h_eq
  cases h'_eq
  exact Int32.toInt_inj.mp (floor_injective low high (value.symm.trans value'))

theorem lowTime_injective (low : 0 < args.range) (high : args.range ≤ 10000) {a b time : Int32}
    (scaleA : args.InScale a) (scaleB : args.InScale b)
    (timeA : Driver.softPWM.lowTime (args.slot a) = some time)
    (timeB : Driver.softPWM.lowTime (args.slot b) = some time) : a = b := by
  obtain ⟨_, l, -, l_eq, -, value⟩ := soft_times_of low (by omega) scaleA
  obtain ⟨_, l', -, l'_eq, -, value'⟩ := soft_times_of low (by omega) scaleB
  rw [timeA] at l_eq
  rw [timeB] at l'_eq
  cases l_eq
  cases l'_eq
  have rest := floor_injective low high (value.symm.trans value')
  exact Int32.toInt_inj.mp (by omega)

theorem Half.steady {phase : Phase} {reads : List Int32} {sleep : List (Option Int32)} {d time : Int32}
    (half : Half .softPWM args phase reads sleep) (all : ∀ r ∈ reads, r = d)
    (value : Driver.softPWM.sleepTime phase (args.slot d) = some time) :
    sleep = [some time, some time] := by
  obtain ⟨a, b, rfl⟩ := List.length_eq_two.mp half.arity
  obtain ⟨swap, rfl⟩ := half.sleep
  obtain rfl := all a (by simp)
  obtain rfl := all b (by simp)
  cases swap <;> simp [value]

theorem Half.times {phase : Phase} {reads : List Int32} {sleep : List (Option Int32)} {time : Int32}
    (half : Half .softPWM args phase reads sleep) (bounds : sleep = [some time, some time]) :
    ∀ r ∈ reads, args.InScale r ∧ Driver.softPWM.sleepTime phase (args.slot r) = some time := by
  obtain ⟨a, b, rfl⟩ := List.length_eq_two.mp half.arity
  obtain ⟨swap, rfl⟩ := half.sleep
  intro r member
  refine ⟨half.inScale r member, ?_⟩
  rcases List.mem_pair.mp member with rfl | rfl <;> cases swap <;> simp_all

theorem Iteration.Runs.glitchFree (runs : it.Runs .softPWM args) (low : 0 < args.range)
    (high : args.range ≤ 214748) (steady : it.Steady) : it.GlitchFree args := by
  obtain ⟨d, all⟩ := steady
  obtain ⟨highHalf, lowHalf⟩ := runs
  have inScale : args.InScale d := by
    obtain ⟨a, b, reads⟩ := List.length_eq_two.mp highHalf.arity
    have member : a ∈ it.highReads := by simp [reads]
    exact all a (List.mem_append_left _ member) ▸ highHalf.inScale a member
  obtain ⟨h, l, high_eq, low_eq, h_eq, l_eq⟩ := soft_times_of low high inScale
  have total := CInt.ediv_add_ediv_rest (10000 * d.toInt) 10000 low
  rw [← Int.mul_sub, ← h_eq, ← l_eq] at total
  refine ⟨d, h, h, l, l, inScale, highHalf.steady (fun r member => all r (by simp [member])) high_eq,
    lowHalf.steady (fun r member => all r (by simp [member])) low_eq, Int32.le_refl h,
    Int32.le_refl l, high_eq, high_eq, low_eq, low_eq, ?_⟩
  rw [total]
  split <;> simp

theorem Iteration.Runs.steady (runs : it.Runs .softPWM args) (low : 0 < args.range)
    (high : args.range ≤ 10000) (clean : it.GlitchFree args) : it.Steady := by
  obtain ⟨d, lo, hi, lo', hi', inScale, highBounds, lowBounds, -, -, h, h', l, l', -⟩ := clean
  obtain rfl : lo = hi := by simpa [h] using h'
  obtain rfl : lo' = hi' := by simpa [l] using l'
  refine ⟨d, fun r member => ?_⟩
  rcases List.mem_append.mp member with inHigh | inLow
  · obtain ⟨scale, time⟩ := runs.1.times highBounds r inHigh
    exact highTime_injective low high scale inScale time h
  · obtain ⟨scale, time⟩ := runs.2.times lowBounds r inLow
    exact lowTime_injective low high scale inScale time l

theorem Begun.incomplete {pc : TaskPc} {evs : List Event} (begun : Begun D args pc evs)
    (times : List (Option Int32)) : .sleep .low times ∉ evs := by
  cases pc with
  | asleep | entry | loopHead | set | returned =>
      obtain rfl := begun
      simp
  | clr =>
      obtain ⟨reads, sleep, -, rfl⟩ := begun
      simp
  | eval phase done =>
      cases phase with
      | high =>
          obtain ⟨reads, -, rfl⟩ := begun
          simp
      | low =>
          obtain ⟨reads, sleep, reads', -, -, rfl⟩ := begun
          simp

/-! ## Where the updates land -/

/-- The next step writes the duty cycle of slot `k`: a `PWM_SET` has found it. -/
def Lands (k : Nat) (s : Sys) (label : Label) : Prop :=
  label = .statement ∧ ∃ duty, s.call = some (.update k duty)

theorem Call.Inv.keeps_slot {call next : Call} {raw : List Event} (inv : call.Inv D w.tables)
    (here : w.tasks[k]? = some t) (awake : t.pc ≠ .asleep) (other : ∀ duty, call ≠ .update k duty)
    (run : call.step w = .ok raw (w', next)) : w'.dutyArray[k]? = w.dutyArray[k]? := by
  cases call with
  | init args outcome todo =>
      cases todo with
      | nil => exact absurd rfl inv.1
      | cons stmt rest =>
          obtain ⟨_, ⟨w₁, brk⟩, _, ran, done, -⟩ := Traced.bind_eq_ok.mp run
          have slots : w₁.dutyArray[k]? = w.dutyArray[k]? := by
            by_cases newest : k = w.pwmPinCount
            · -- a thread that is awake has only the counting before it
              have owner : w.tables.owners[k]? = some t.owner := by simp [World.tables, here]
              obtain ⟨-, -, spawned, owns⟩ := inv.2.newest owner newest.symm.le.not_gt
              have flag : (t.pc != .asleep) = !(stmt :: rest).contains .wakeUp :=
                congrArg Owner.awake owns
              have woken : .wakeUp ∉ stmt :: rest := by simpa [bne_iff_ne.mpr awake] using flag
              rcases code_woken inv.2.code spawned woken with last | none_
              · cases last
                cases ran
                rfl
              · cases none_
            · exact (Stmt.exec_frame ran).slots k newest
          cases brk <;> cases done <;> exact slots
  | pinSet pin type =>
      obtain ⟨_, w₁, _, ran, done, -⟩ := Traced.bind_eq_ok.mp run
      rw [pinSet_eq] at ran
      obtain ⟨gpio, rfl⟩ := actOnPin_frame ran
      cases done
      rfl
  | gpioSet pin status =>
      obtain ⟨_, w₁, _, ran, done, -⟩ := Traced.bind_eq_ok.mp run
      rw [gpioStatus_eq] at ran
      obtain ⟨gpio, rfl⟩ := actOnPin_frame ran
      cases done
      rfl
  | scan pin duty i =>
      by_cases more : i < w.pwmPinCount
      · rw [Call.step_scan more (Nat.lt_of_lt_of_le more inv.bound)] at run
        cases run
        rfl
      · rw [Call.step_scan_end more] at run
        cases run
        rfl
  | update pos duty =>
      have differs : pos ≠ k := fun same => other duty (by rw [same])
      have inside : pos < maxPwmNum := Nat.lt_of_lt_of_le inv.2 inv.1.bound
      rw [Call.step_update inside] at run
      cases run
      exact Vector.getElem?_set_ne inside differs
  | returned err =>
      cases run
      rfl

theorem Call.Inv.advance_keeps_slot {call : Call} {raw : List Event}
    (inv : call.Inv D s.world.tables) (here : s.world.tasks[k]? = some t) (awake : t.pc ≠ .asleep)
    (other : ∀ duty, call ≠ .update k duty) (run : s.advance call = .ok raw s') :
    s'.world.dutyArray[k]? = s.world.dutyArray[k]? := by
  obtain ⟨_, ⟨w, next⟩, _, ran, done, -⟩ := Traced.bind_eq_ok.mp run
  have kept := inv.keeps_slot here awake other ran
  cases next <;> cases done <;> exact kept

/-- No other step writes the slot of a task that is awake. -/
theorem Sys.Inv.keeps_slot {label : Label} (inv : s.Inv D) (here : s.world.tasks[k]? = some t)
    (awake : t.pc ≠ .asleep) (admitted : Admits s label) (other : ¬ Lands k s label)
    (taken : s.step D label = some (.ok tr s')) :
    s'.world.dutyArray[k]? = s.world.dutyArray[k]? := by
  generalize shape : (Traced.ok tr s' : Traced (Agent × Event) Fault Sys) = x at taken
  cases Sys.step_taken taken with
  | @request req outcome ready _ =>
      obtain ⟨raw, run, -⟩ := Traced.tag_eq_ok.mp shape.symm
      have started := (inv.settled ready).start D req outcome
        (fun args same => by subst same; exact admitted)
      exact started.advance_keeps_slot here awake (fun duty => by cases req <;> simp [Call.start]) run
  | @statement call flies =>
      obtain ⟨raw, run, -⟩ := Traced.tag_eq_ok.mp shape.symm
      have sound : call.Inv D s.world.tables := by simpa only [Sys.Inv, flies] using inv
      exact sound.advance_keeps_slot here awake
        (fun duty same => other ⟨rfl, duty, same ▸ flies⟩) run
  | @task j swap y stepped =>
      obtain ⟨t', slot, pc, raw, level, step⟩ := inv.taskStep stepped shape.symm
      rw [step.after]
      cases level <;> rfl
  | @exit y idle stepped =>
      obtain ⟨raw, s₁, rfl, -, -, tables, -⟩ := exitStep_keeps (inv.settled idle) stepped
      cases shape
      exact congrArg (fun T : Tables => T.dutyArray[k]?) tables

theorem Driver.Move.reads {slot : Dutycycle} {pos : Nat} {stop swap : Bool} {pc pc' : TaskPc}
    {raw : List Event} {level : Option Bool} {d : Int32}
    (move : D.Move slot pos stop swap pc pc' raw level) (read : .duty d ∈ raw) :
    d = slot.dutyCycle := by
  cases move with
  | eval => simpa using read
  | entry | halt | goOn | set | clr | sleep => simp at read

theorem mem_of_ownEvents {raw : List Event} {d : Int32}
    (member : .duty d ∈ ownEvents k (raw.map (Agent.task k, ·))) : .duty d ∈ raw := by
  obtain ⟨⟨agent, e⟩, made, shown⟩ := List.mem_filterMap.mp member
  obtain ⟨e, made, same⟩ := List.mem_map.mp made
  cases same
  cases e <;> simp_all

/-- From a state in which a task is awake on, as long as no `PWM_SET` lands in its slot, all its
    reads find the duty cycle that is there. -/
theorem reads_between_landings {slot : Dutycycle} {labels : List Label} (inv : s.Inv D)
    (here : s.world.tasks[k]? = some t) (awake : t.pc ≠ .asleep)
    (held : s.world.dutyArray[k]? = some slot) (reach : D.system.Reaches s labels tr s')
    (quiet : D.system.Guarded (fun s l => Admits s l ∧ ¬ Lands k s l) s labels) :
    ∀ d, .duty d ∈ ownEvents k tr → d = slot.dutyCycle := by
  refine (reach.guarded_induction (Q := fun tr s => s.Inv D ∧
    (∃ t, s.world.tasks[k]? = some t ∧ t.pc ≠ .asleep) ∧ s.world.dutyArray[k]? = some slot ∧
    ∀ d, .duty d ∈ ownEvents k tr → d = slot.dutyCycle) quiet
    ⟨inv, ⟨t, here, awake⟩, held, by simp [ownEvents]⟩ ?_).2.2.2
  rintro tr s label tr' s' ⟨inv, ⟨t, here, awake⟩, held, reads⟩ ⟨admitted, other⟩ taken
  have held' := (inv.keeps_slot here awake admitted other taken).trans held
  refine ⟨inv.step_ok admitted taken, ?_, held', ?_⟩
  · rcases inv.moves taken with ⟨agent, raw, -, -, grows⟩ | ⟨j, swap, t', slot', pc, raw, level, step⟩
    · obtain ⟨t', here', -, pc⟩ := grows.awake here awake
      exact ⟨t', here', pc ▸ awake⟩
    · rw [step.after]
      by_cases mine : j = k
      · subst mine
        exact ⟨_, tasks_moved step.here, step.move.awake⟩
      · exact ⟨t, (tasks_unmoved mine).trans here, awake⟩
  · intro d member
    rw [ownEvents_append] at member
    rcases List.mem_append.mp member with before | now
    · exact reads d before
    · rcases inv.moves taken with
        ⟨agent, raw, rfl, foreign, -⟩ | ⟨j, swap, t', slot', pc, raw, level, step⟩
      · rw [ownEvents_foreign (foreign k)] at now
        cases now
      · rw [step.trace] at now
        by_cases mine : j = k
        · subst mine
          obtain rfl := Option.some.inj (step.held.symm.trans held)
          exact step.move.reads (mem_of_ownEvents now)
        · rw [ownEvents_foreign (by simpa using mine)] at now
          cases now

/-- An iteration is steady if no `PWM_SET` lands in the slot of its task between its first read and
    its last one. -/
theorem steady_between_landings {slot : Dutycycle} {labels : List Label} (inv : s.Inv D)
    (here : s.world.tasks[k]? = some t) (awake : t.pc ≠ .asleep)
    (held : s.world.dutyArray[k]? = some slot) (reach : D.system.Reaches s labels tr s')
    (quiet : D.system.Guarded (fun s l => Admits s l ∧ ¬ Lands k s l) s labels)
    (within : it.highReads.map .duty ++ [.sleep .high it.high] ++ it.lowReads.map .duty <:+:
      ownEvents k tr) : it.Steady := by
  refine ⟨slot.dutyCycle, fun r member => ?_⟩
  refine reads_between_landings inv here awake held reach quiet r (within.subset ?_)
  rcases List.mem_append.mp member with inHigh | inLow
  · simp [inHigh]
  · simp [inLow]

/-- For every interleaving with updates in scale, the reads and sleeps of a task are
    completed iterations followed by an incomplete one, and an iteration whose reads
    find one value is free of glitches.  Up to a range of 10000 no other is. -/
theorem steady_iterations_glitch_free (args : InitArgs) (low : 0 < args.range)
    (high : args.range ≤ 214748) (gpio : Gpio) (labels : List Label) (tr : List (Agent × Event))
    (s : Sys) (reach : Driver.softPWM.system.Reaches (Sys.load gpio) labels tr s)
    (admitted : Driver.softPWM.system.Guarded Admits (Sys.load gpio) labels)
    (inScale : ∀ l ∈ labels, InScaleRequests args l) (k : Nat) (t : Task)
    (here : s.world.tasks[k]? = some t) (mine : t.creator = args) :
    ∃ (its : List Iteration) (rest : List Event),
      ownEvents k tr = (its.map Iteration.events).flatten ++ rest ∧
      (∀ times, .sleep .low times ∉ rest) ∧
      ∀ it ∈ its, (it.Steady → it.GlitchFree args) ∧
        (args.range ≤ 10000 → it.GlitchFree args → it.Steady) := by
  have zero : args.InScale Driver.softPWM.creationDuty := ⟨Int.le_refl 0, low.le⟩
  have guarded : Driver.softPWM.system.Guarded
      (fun s l => Admits s l ∧ InScaleRequests args l) (Sys.load gpio) labels := by
    exact admitted.and (Machine.Guarded.of_forall (fun l member _ => inScale l member))
  have tracked : Tracked .softPWM args tr s :=
    reach.guarded_induction (Q := Tracked .softPWM args) guarded (Tracked.load _ _ gpio)
      (fun tracked here taken => tracked.step here.1 (here.2.respects zero) taken)
  obtain ⟨its, rest, split, runs, begun⟩ := tracked.iterates k t here mine
  refine ⟨its, rest, split, begun.incomplete, fun it member => ?_⟩
  exact ⟨(runs it member).glitchFree low high, (runs it member).steady low⟩

/-- One iteration of a fresh channel, undisturbed. -/
theorem steady_iterations_glitch_free_first :
    ∃ tr s, Driver.softPWM.system.Reaches (Sys.load .reset)
        (Driver.softPWM.openSchedule ⟨16, 0, 100⟩ ++ List.replicate 9 (.task 0 false)) tr s ∧
      ownEvents 0 tr = Iteration.events
        ⟨[0, 0], [some 0, some 0], [0, 0], [some 10000, some 10000]⟩ ∧
      ∃ (its : List Iteration) (rest : List Event),
        ownEvents 0 tr = (its.map Iteration.events).flatten ++ rest ∧
        ∀ it ∈ its, it.Steady → it.GlitchFree ⟨16, 0, 100⟩ := by
  obtain ⟨tr, s, reach, passed⟩ := Machine.exists_reaches Driver.softPWM.system (Sys.load .reset)
    (Driver.softPWM.openSchedule ⟨16, 0, 100⟩ ++ List.replicate 9 (.task 0 false))
    (fun tr s => (s.world.tasks[0]?.map (·.creator) == some ⟨16, 0, 100⟩) &&
      ownEvents 0 tr == Iteration.events
        ⟨[0, 0], [some 0, some 0], [0, 0], [some 10000, some 10000]⟩) (by decide)
  rw [Bool.and_eq_true, beq_iff_eq, beq_iff_eq] at passed
  obtain ⟨t, here, mine⟩ := Option.map_eq_some_iff.mp passed.1
  obtain ⟨its, rest, split, -, clean⟩ := steady_iterations_glitch_free ⟨16, 0, 100⟩ (by decide)
    (by decide) .reset _ tr s reach (Sys.few_admitted _ _ (by decide)) (by decide) 0 t here mine
  exact ⟨tr, s, reach, passed.2, its, rest, split, fun it member => (clean it member).1⟩

/-- A `PWM_SET` from 50 to 0 lands between the two reads of the high half. -/
def glitchSchedule (swap : Bool) : List Label :=
  Driver.softPWM.openSchedule ⟨16, 0, 100⟩ ++
    [.request (.pwmSet 16 50) .created, .statement] ++ List.replicate 3 (.task 0 swap) ++
    [.request (.pwmSet 16 0) .created, .statement] ++ List.replicate 6 (.task 0 swap)

theorem glitchSchedule_glitches (swap : Bool) :
    ∃ tr s it, Driver.softPWM.system.Reaches (Sys.load .reset) (glitchSchedule swap) tr s ∧
      ownEvents 0 tr = Iteration.events it ∧
      it.high = (if swap then [some 0, some 5000] else [some 5000, some 0]) ∧
      ¬ it.GlitchFree ⟨16, 0, 100⟩ := by
  obtain ⟨tr, s, reach, passed⟩ := Machine.exists_reaches Driver.softPWM.system (Sys.load .reset)
    (glitchSchedule swap)
    (fun tr _ => ownEvents 0 tr == Iteration.events
      ⟨[50, 0], if swap then [some 0, some 5000] else [some 5000, some 0], [0, 0],
        [some 10000, some 10000]⟩) (by cases swap <;> decide)
  refine ⟨tr, s, _, reach, beq_iff_eq.mp passed, rfl, ?_⟩
  rintro ⟨d, lo, hi, lo', hi', -, bounds, -, -, -, h, h', -⟩
  obtain rfl : lo = hi := by simpa [h] using h'
  cases swap with
  | false =>
      simp only [Bool.false_eq_true, ↓reduceIte, List.cons.injEq, Option.some.injEq] at bounds
      exact absurd (bounds.1.trans bounds.2.1.symm) (by decide)
  | true =>
      simp only [↓reduceIte, List.cons.injEq, Option.some.injEq] at bounds
      exact absurd (bounds.1.trans bounds.2.1.symm) (by decide)

/-- The updates are in scale, and the lower bound of the sleep exceeds the upper one. -/
theorem update_inside_iteration_glitches :
    (∀ l ∈ glitchSchedule false, InScaleRequests ⟨16, 0, 100⟩ l) ∧
      ∃ tr s it, Driver.softPWM.system.Reaches (Sys.load .reset) (glitchSchedule false) tr s ∧
        ownEvents 0 tr = Iteration.events it ∧ it.high = [some 5000, some 0] ∧
        ¬ it.GlitchFree ⟨16, 0, 100⟩ := by
  refine ⟨by decide, ?_⟩
  simpa using glitchSchedule_glitches false

end KsoftPWM
