import KsoftPWM.Ownership

/-! # What the slots of running tasks satisfy

A property of a slot that every new channel has and that every `PWM_SET` leaves alone
holds of the slot of a task whenever that task runs, however the steps are
interleaved.  A task may run before its slot is counted, so the slot being opened has
to be looked at too.
-/

namespace KsoftPWM

def InitArgs.slot (args : InitArgs) (duty : Int32) : Dutycycle :=
  ⟨args.pin, duty, args.min, args.max⟩

def Driver.fresh (D : Driver) (args : InitArgs) : Dutycycle := args.slot D.creationDuty

theorem Dutycycle.Serves.eq_slot {slot : Dutycycle} {args : InitArgs} (serves : slot.Serves args) :
    slot = args.slot slot.dutyCycle := by
  obtain ⟨pin, min, max⟩ := serves
  rw [InitArgs.slot, ← pin, ← min, ← max]

variable {D : Driver} {Q : Dutycycle → Prop} {w w' : World} {T : Tables} {s s' : Sys}

def Tables.Passed (T : Tables) (pin : Int32) (i : Nat) : Prop :=
  ∀ j < i, ∀ slot, T.dutyArray[j]? = some slot → slot.pin ≠ pin

/-- A `PWM_SET` leaves the property alone in the slot it finds. -/
def Tables.Accepts (Q : Dutycycle → Prop) (T : Tables) (pin duty : Int32) : Prop :=
  ∀ j < T.pwmPinCount, T.Passed pin j → ∀ slot, T.dutyArray[j]? = some slot → slot.pin = pin →
    Q slot → Q { slot with dutyCycle := duty }

/-- A request that leaves the property alone. -/
def Respects (D : Driver) (Q : Dutycycle → Prop) (s : Sys) : Label → Prop
  | .request (.pwmInit args) outcome => outcome = .created → Q (D.fresh args)
  | .request (.pwmSet pin duty) _ => s.world.tables.Accepts Q pin duty
  | _ => True

/-- What the request in flight is still going to do leaves the property alone. -/
def Call.Keeps (D : Driver) (Q : Dutycycle → Prop) (T : Tables) : Call → Prop
  | .init args outcome todo => (outcome = .created → Q (D.fresh args)) ∧
      (.setDuty D.creationDuty ∉ todo →
        T.dutyArray[T.pwmPinCount]?.map (·.dutyCycle) = some D.creationDuty)
  | .scan pin duty i => T.Accepts Q pin duty ∧ T.Passed pin i
  | .update pos duty => ∀ slot, T.dutyArray[pos]? = some slot → Q slot →
      Q { slot with dutyCycle := duty }
  | _ => True

/-- Every active slot has the property. -/
def Tables.Active (Q : Dutycycle → Prop) (T : Tables) : Prop :=
  ∀ k < T.pwmPinCount, ∀ slot, T.dutyArray[k]? = some slot → Q slot

structure Sys.Keeps (D : Driver) (Q : Dutycycle → Prop) (s : Sys) : Prop where
  inv : s.Inv D
  active : s.world.tables.Active Q
  call : ∀ call, s.call = some call → call.Keeps D Q s.world.tables

theorem code_setDuty {value : Int32} {rest : List Stmt}
    (code : .setDuty value :: rest <:+ D.initCode) : value = D.creationDuty := by
  cases D with
  | softPWM =>
      obtain ⟨rfl, -⟩ := by simpa [Driver.initCode, List.suffix_cons_iff] using code
      rfl
  | xenoPWM =>
      obtain ⟨rfl, -⟩ := by simpa [Driver.initCode, List.suffix_cons_iff] using code
      rfl

theorem Tables.Opening.fresh {args : InitArgs} {outcome : CreateOutcome} {todo : List Stmt}
    {slot : Dutycycle} (opening : T.Opening D args outcome todo)
    (held : T.dutyArray[T.pwmPinCount]? = some slot) (pin : .setPin ∉ todo)
    (min : .setMin ∉ todo) (max : .setMax ∉ todo)
    (duty : T.dutyArray[T.pwmPinCount]?.map (·.dutyCycle) = some D.creationDuty) :
    slot = D.fresh args := by
  have serves : slot.Serves args :=
    ⟨opening.pin slot held pin, opening.min slot held min, opening.max slot held max⟩
  have duty : slot.dutyCycle = D.creationDuty := by simpa [held] using duty
  rw [serves.eq_slot, duty, Driver.fresh]

theorem Sys.Keeps.awake {k : Nat} {t : Task} (keeps : s.Keeps D Q)
    (here : s.world.tasks[k]? = some t) (awake : t.pc ≠ .asleep) :
    ∃ slot, s.world.dutyArray[t.pos]? = some slot ∧ Q slot := by
  have owner : s.world.tables.owners[k]? = some t.owner := by simp [World.tables, here]
  have placed := keeps.inv.placed here
  obtain rfl : t.pos = k := placed.pos
  obtain ⟨slot, held, -⟩ := placed.serves (bne_iff_ne.mpr awake)
  refine ⟨slot, held, ?_⟩
  by_cases below : t.pos < s.world.pwmPinCount
  · exact keeps.active t.pos below slot held
  · have settledNot : ¬ s.world.tables.Settled := by
      intro settled
      have length := (List.getElem?_eq_some_iff.mp owner).1
      rw [settled.count] at length
      exact below length
    have inv := keeps.inv
    unfold Sys.Inv at inv
    cases call : s.call with
    | none =>
        rw [call] at inv
        exact absurd inv settledNot
    | some c =>
        rw [call] at inv
        have held' := keeps.call c call
        cases c with
        | pinSet | gpioSet | scan | returned => exact absurd inv settledNot
        | update => exact absurd inv.1 settledNot
        | init args outcome todo =>
            obtain ⟨pos, rfl, created, same⟩ := inv.2.newest owner below
            have woken : .wakeUp ∉ todo := by
              have flag := congrArg Owner.awake same
              simpa [Task.owner, bne_iff_ne.mpr awake] using flag
            obtain ⟨pin, min, max, duty⟩ := code_written inv.2.code created woken
            rw [pos] at held
            rw [inv.2.fresh held pin min max (held'.2 duty)]
            exact held'.1 rfl

theorem Tables.Active.stmt {args : InitArgs} {outcome : CreateOutcome} {stmt : Stmt}
    {rest : List Stmt} {tr : List Event} {brk : Option Int}
    (opening : w.tables.Opening D args outcome (stmt :: rest))
    (keeps : (Call.init args outcome (stmt :: rest)).Keeps D Q w.tables)
    (active : w.tables.Active Q) (run : stmt.exec args outcome w = .ok tr (w', brk)) :
    w'.tables.Active Q := by
  have frame := Stmt.exec_frame run
  intro k below slot held
  by_cases old : k < w.pwmPinCount
  · exact active k old slot ((frame.slots k (Nat.ne_of_lt old)).symm.trans held)
  · have count : k < w.pwmPinCount + if stmt = .incr then 1 else 0 := frame.count ▸ below
    obtain rfl : stmt = .incr := by
      by_contra other
      exact old (by simpa [other] using count)
    obtain rfl : k = w.pwmPinCount := by
      have next : k < w.pwmPinCount + 1 := by simpa using count
      omega
    obtain rfl := code_incr opening.code
    cases run
    have created := (opening.thread (by cases D <;> decide) (by decide)).1
    rw [opening.fresh held (by decide) (by decide) (by decide) (keeps.2 (by simp))]
    exact keeps.1 created

/-- Once the duty cycle is written no statement of the branch writes it again. -/
theorem Call.Keeps.stmt {args : InitArgs} {outcome : CreateOutcome} {stmt : Stmt}
    {rest : List Stmt} {tr : List Event} {brk : Option Int}
    (opening : w.tables.Opening D args outcome (stmt :: rest)) (more : rest ≠ [])
    (keeps : (Call.init args outcome (stmt :: rest)).Keeps D Q w.tables)
    (run : stmt.exec args outcome w = .ok tr (w', brk)) :
    (Call.init args outcome rest).Keeps D Q w'.tables := by
  have frame := Stmt.exec_frame run
  refine ⟨keeps.1, fun absent => ?_⟩
  have notLast : stmt ≠ .incr := by
    rintro rfl
    exact more (code_incr opening.code)
  have count : w'.pwmPinCount = w.pwmPinCount := by
    simpa [notLast] using frame.count
  change w'.dutyArray[w'.pwmPinCount]?.map (·.dutyCycle) = some D.creationDuty
  rw [count, frame.duty]
  by_cases writes : ∃ value, stmt = .setDuty value
  · obtain ⟨value, rfl⟩ := writes
    obtain rfl := code_setDuty opening.code
    have room : w.pwmPinCount < maxPwmNum := opening.room
    rw [Vector.getElem?_eq_getElem room]
    rfl
  · have same : ∀ old, stmt.dutyAfter old = old := by
      intro old
      cases stmt with
      | setDuty value => exact absurd ⟨value, rfl⟩ writes
      | _ => rfl
    simp only [same]
    refine keeps.2 ?_
    rw [List.mem_cons, not_or]
    exact ⟨fun clash => writes ⟨_, clash.symm⟩, absent⟩

theorem Tables.Active.update {pos : Nat} {duty : Int32} (active : T.Active Q)
    (inside : pos < maxPwmNum) (keeps : (Call.update pos duty).Keeps D Q T) :
    Active Q { T with
      dutyArray := T.dutyArray.set pos ({ T.dutyArray[pos] with dutyCycle := duty }) } := by
  intro k below slot held
  by_cases same : pos = k
  · subst same
    have entry : slot = { T.dutyArray[pos] with dutyCycle := duty } := by
      simpa using held.symm
    have old : T.dutyArray[pos]? = some T.dutyArray[pos] := Vector.getElem?_eq_getElem inside
    exact entry ▸ keeps _ old (active pos below _ old)
  · exact active k below slot ((Vector.getElem?_set_ne inside same).symm.trans held)

theorem Call.Keeps.scan {pin duty : Int32} {i : Nat} (more : i < w.pwmPinCount)
    (inside : i < maxPwmNum) (keeps : (Call.scan pin duty i).Keeps D Q w.tables) :
    Call.Keeps D Q w.tables
      (if w.dutyArray[i].pin = pin then .update i duty else .scan pin duty (i + 1)) := by
  obtain ⟨accepts, passed⟩ := keeps
  have here : ∀ slot, w.tables.dutyArray[i]? = some slot → slot = w.dutyArray[i] := by
    intro slot held
    simpa [World.tables, inside] using held.symm
  split
  · rename_i found
    intro slot held
    exact accepts i more passed slot held (here slot held ▸ found)
  · rename_i other
    refine ⟨accepts, fun j below slot held => ?_⟩
    rcases Nat.lt_succ_iff_lt_or_eq.mp below with earlier | rfl
    · exact passed j earlier slot held
    · exact here slot held ▸ other

theorem Call.Keeps.step {call next : Call} {tr : List Event} (inv : call.Inv D w.tables)
    (keeps : call.Keeps D Q w.tables) (active : w.tables.Active Q)
    (run : call.step w = .ok tr (w', next)) :
    w'.tables.Active Q ∧ next.Keeps D Q w'.tables := by
  cases call with
  | init args outcome todo =>
      cases todo with
      | nil => exact absurd rfl inv.1
      | cons stmt rest =>
          obtain ⟨_, ⟨w₁, brk⟩, _, ran, done, -⟩ := Traced.bind_eq_ok.mp run
          have active' := active.stmt inv.2 keeps ran
          cases brk with
          | some err =>
              cases done
              exact ⟨active', trivial⟩
          | none =>
              cases done
              refine ⟨active', ?_⟩
              cases rest with
              | nil => exact trivial
              | cons stmt' rest => exact keeps.stmt inv.2 (List.cons_ne_nil _ _) ran
  | pinSet pin type =>
      obtain ⟨_, w₁, _, ran, done, -⟩ := Traced.bind_eq_ok.mp run
      rw [pinSet_eq] at ran
      obtain ⟨gpio, rfl⟩ := actOnPin_frame ran
      cases done
      exact ⟨active, trivial⟩
  | gpioSet pin status =>
      obtain ⟨_, w₁, _, ran, done, -⟩ := Traced.bind_eq_ok.mp run
      rw [gpioStatus_eq] at ran
      obtain ⟨gpio, rfl⟩ := actOnPin_frame ran
      cases done
      exact ⟨active, trivial⟩
  | scan pin duty i =>
      by_cases more : i < w.pwmPinCount
      · have inside : i < maxPwmNum := Nat.lt_of_lt_of_le more inv.bound
        rw [Call.step_scan more inside] at run
        cases run
        exact ⟨active, keeps.scan more inside⟩
      · rw [Call.step_scan_end more] at run
        cases run
        exact ⟨active, trivial⟩
  | update pos duty =>
      have inside : pos < maxPwmNum := Nat.lt_of_lt_of_le inv.2 inv.1.bound
      rw [Call.step_update inside] at run
      cases run
      exact ⟨active.update inside keeps, trivial⟩
  | returned err =>
      cases run
      exact ⟨active, trivial⟩

theorem Sys.Keeps.advance {call : Call} {tr : List Event} (inv : call.Inv D s.world.tables)
    (keeps : call.Keeps D Q s.world.tables) (active : s.world.tables.Active Q)
    (run : s.advance call = .ok tr s') : s'.Keeps D Q := by
  obtain ⟨_, s₁, again, -, held⟩ := inv.advance
  rw [run] at again
  cases again
  obtain ⟨_, ⟨w, next⟩, _, ran, done, -⟩ := Traced.bind_eq_ok.mp run
  obtain ⟨active', keeps'⟩ := keeps.step inv active ran
  cases next with
  | returned err =>
      cases done
      exact ⟨held, active', by simp⟩
  | init | pinSet | gpioSet | scan | update =>
      cases done
      refine ⟨held, active', ?_⟩
      rintro call ⟨⟩
      exact keeps'

/-- Every step that respects the property keeps it. -/
theorem Sys.Keeps.step {label : Label} {tr : List (Agent × Event)} (keeps : s.Keeps D Q)
    (admitted : Admits s label) (respects : Respects D Q s label)
    (taken : s.step D label = some (.ok tr s')) : s'.Keeps D Q := by
  generalize shape : (Traced.ok tr s' : Traced (Agent × Event) Fault Sys) = x at taken
  cases Sys.step_taken taken with
  | @request req outcome ready _ =>
      obtain ⟨raw, run, -⟩ := Traced.tag_eq_ok.mp shape.symm
      have started := (keeps.inv.settled ready).start D req outcome
        (fun args same => by subst same; exact admitted)
      refine Sys.Keeps.advance started ?_ keeps.active run
      cases req with
      | pinSet | gpioSet => trivial
      | pwmSet =>
          refine ⟨respects, fun j below => ?_⟩
          exact absurd below (Nat.not_lt_zero j)
      | pwmInit args =>
          refine ⟨respects, fun absent => absurd ?_ absent⟩
          cases D <;> decide
  | @statement call here =>
      obtain ⟨raw, run, -⟩ := Traced.tag_eq_ok.mp shape.symm
      have inv : call.Inv D s.world.tables := by
        simpa only [Sys.Inv, here] using keeps.inv
      exact Sys.Keeps.advance inv (keeps.call call here) keeps.active run
  | @task k swap y stepped =>
      obtain ⟨t, here, -⟩ := Driver.pwmTask_some stepped
      obtain ⟨raw, w', rfl, -, tables⟩ := pwmTask_keeps here (keeps.inv.pos_inside here) stepped
      cases shape
      exact ⟨by simpa only [Sys.Inv, tables] using keeps.inv, tables ▸ keeps.active,
        fun call here => tables ▸ keeps.call call here⟩
  | @exit y idle stepped =>
      obtain ⟨raw, s₁, rfl, -, -, tables, call⟩ := exitStep_keeps (keeps.inv.settled idle) stepped
      cases shape
      refine ⟨?_, tables ▸ keeps.active, ?_⟩
      · have inv := keeps.inv
        unfold Sys.Inv at inv ⊢
        rwa [tables, call]
      · rw [call, idle]
        simp

theorem Sys.load_keeps (D : Driver) (Q : Dutycycle → Prop) (gpio : Gpio) :
    (Sys.load gpio).Keeps D Q where
  inv := Sys.load_inv D gpio
  active := by
    intro k below
    exact absurd below (Nat.not_lt_zero k)
  call := by simp [Sys.load]

end KsoftPWM
