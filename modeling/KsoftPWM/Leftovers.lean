import KsoftPWM.Closing
import KsoftPWM.Model.Rtdm
import KsoftPWM.Resources

/-! # What xenoPWM leaves behind

`xeno_pwm_exit` destroys the tasks it finds counted, unmaps the registers and unregisters
the device.  Nobody frees `duty_array`, nobody destroys a task that is counted after the
loop has ended, and the device is unregistered even if it never was registered.  That is
all: whatever the kernel answers and however the clients, the tasks and `xeno_pwm_exit`
are interleaved, everything else is given back exactly once.
-/

namespace KsoftPWM

variable {m m' m₀ : RtdmModule} {s s' : Closing} {turn : ClosingTurn} {turns : List ClosingTurn}
  {tr tr' : List (Agent × Event)} {answers : RtdmAnswers} {gpio : Gpio}

/-! ## Steps -/

theorem RtdmModule.dereference_eq_ok {x : Traced (Agent × Event) Fault Closing}
    (run : m.dereference x = .ok tr m') : x = .ok tr m'.closing ∧ m' = m.after tr m'.closing := by
  unfold RtdmModule.dereference at run
  split at run
  · cases run
  · cases run
  · cases run
    exact ⟨rfl, rfl⟩

theorem RtdmModule.step_ok (taken : m.step turn = some (.ok tr m')) :
    m.closing.step turn = some (.ok tr m'.closing) ∧ m' = m.after tr m'.closing := by
  unfold RtdmModule.step at taken
  split at taken
  · obtain ⟨x, stepped, run⟩ := Option.map_eq_some_iff.mp taken
    obtain ⟨rfl, after⟩ := RtdmModule.dereference_eq_ok run
    exact ⟨stepped, after⟩
  · cases taken

/-- A step of the module goes wrong only where it dereferences a pointer that is `NULL`. -/
theorem RtdmModule.step_fault {why : ModuleFault} (inv : m.closing.served.Inv .xenoPWM)
    (taken : m.step turn = some (.fault tr why)) :
    why = .nullPointer ∧ (m.gpioMap = false ∨ m.dutyArray = false) := by
  unfold RtdmModule.step at taken
  split at taken
  · obtain ⟨x, stepped, run⟩ := Option.map_eq_some_iff.mp taken
    obtain ⟨_, _, rfl, -⟩ := Closing.step_taken inv stepped
    unfold RtdmModule.dereference at run
    split at run
    · rename_i i found
      cases run
      obtain ⟨inside, offends, -⟩ := List.findIdx?_eq_some_iff_getElem.mp found
      refine ⟨rfl, ?_⟩
      unfold RtdmModule.offends at offends
      split at offends
      · exact .inr (by simpa using offends)
      · exact .inl (by simpa using offends)
      · cases offends
    · rename_i same
      cases same
    · cases run
  · cases taken

def destroyed (tr : List (Agent × Event)) : List Nat :=
  tr.filterMap fun e =>
    match e with
    | (.exit, .stop k) => some k
    | _ => none

theorem destroyed_append (tr tr' : List (Agent × Event)) :
    destroyed (tr ++ tr') = destroyed tr ++ destroyed tr' :=
  List.filterMap_append

theorem destroyed_foreign {agent : Agent} (foreign : agent ≠ .exit) (raw : List Event) :
    destroyed (raw.map (agent, ·)) = [] := by
  simp only [destroyed, List.filterMap_map, List.filterMap_eq_nil_iff, Function.comp_apply]
  intro e _
  cases agent with
  | exit => exact absurd rfl foreign
  | client | task => rfl

/-- How the tasks destroyed go on with a step.  In its loop module exit destroys one task
    after the other, and it leaves the loop when as many as are counted have been. -/
inductive Goes (destroyed : List Nat) (exit exit' : ExitPc) (count : Nat) : Prop where
  | early : exit.pastLoop = false → exit'.pastLoop = false →
      List.range exit.asked ++ destroyed = List.range exit'.asked → Goes destroyed exit exit' count
  | leaves : exit.pastLoop = false → exit' = .tail Driver.xenoPWM.exitTail → exit.asked = count →
      destroyed = [] → Goes destroyed exit exit' count
  | late : exit.pastLoop = true → exit'.pastLoop = true → destroyed = [] →
      Goes destroyed exit exit' count

theorem Goes.still {exit : ExitPc} {count : Nat} : Goes [] exit exit count := by
  cases past : exit.pastLoop with
  | false => exact .early past past (List.append_nil _)
  | true => exact .late past past rfl

theorem Sys.ExitMove.goes {s s' : Sys} {raw : List Event} (est : s.world.tables.Established)
    (within : s.exit.Within s.world.pwmPinCount) (move : Sys.ExitMove .xenoPWM s s' raw) :
    Goes (destroyed (raw.map (Agent.exit, ·))) s.exit s'.exit s'.world.pwmPinCount := by
  cases move with
  | start at_ => exact .early (by rw [at_]; rfl) rfl (by rw [at_]; rfl)
  | @stop i k at_ more thread =>
      obtain rfl : i = k := by simpa using (est.thread more).symm.trans thread
      exact .early (by rw [at_]; rfl) rfl (by rw [at_]; exact List.range_succ.symm)
  | @leave i at_ done =>
      rw [at_] at within
      exact .leaves (by rw [at_]; rfl) rfl
        (by rw [at_]; exact Nat.le_antisymm within (Nat.not_lt.mp done)) rfl
  | joined at_ => exact .early (by rw [at_]; rfl) rfl (by rw [at_]; exact List.append_nil _)
  | tail at_ => exact .late (by rw [at_]; rfl) rfl rfl

structure Closing.Accounts (s : Closing) (tr : List (Agent × Event)) (s' : Closing) : Prop where
  within : s'.exit.Within s'.served.world.pwmPinCount
  left : ∀ stmt, tr.count (.exit, .exit stmt) + s'.exit.left .xenoPWM stmt =
    s.exit.left .xenoPWM stmt
  grows : s.served.world.tasks.length ≤ s'.served.world.tasks.length
  goes : Goes (destroyed tr) s.exit s'.exit s'.served.world.pwmPinCount
  among : ∀ k ∈ destroyed tr, k < s'.served.world.tasks.length

theorem Closing.Step.accounts (step : s.Step turn tr s') (inv : s.served.Inv .xenoPWM)
    (within : s.exit.Within s.served.world.pwmPinCount) : s.Accounts tr s' := by
  have length : s'.served.world.tables = s.served.world.tables →
      s.served.world.tasks.length ≤ s'.served.world.tasks.length := by
    intro same
    have owners := congrArg (fun T : Tables => T.owners.length) same
    simp only [World.tables, List.length_map] at owners
    exact owners.ge
  cases step with
  | enter => exact ⟨within, by simp, Nat.le_refl _, .still, by simp [destroyed]⟩
  | @statement c f w next raw here run moves =>
      refine ⟨?_, ?_, ?_, ?_, ?_⟩
      · rcases moves.count with same | ⟨more, -⟩
        · exact same ▸ within
        · exact more ▸ within.succ
      · intro stmt
        rw [count_foreign (by decide), Nat.zero_add]
      · rcases (inv.sound c f here).tasks run with ⟨-, name, args, pc, -, tasks⟩ | ⟨-, tasks⟩
        · change _ ≤ w.tasks.length
          rw [tasks, World.spawn, List.length_append]
          exact Nat.le_add_right _ _
        · exact (congrArg List.length tasks).ge
      · rw [destroyed_foreign (by decide)]
        exact .still
      · simp [destroyed_foreign]
  | task step tables =>
      have count : (s.back _).served.world.pwmPinCount = s.served.world.pwmPinCount :=
        congrArg Tables.pwmPinCount tables
      refine ⟨?_, ?_, length tables, ?_, ?_⟩
      · rw [count, step.after]
        exact within
      · intro stmt
        rw [step.trace, step.after, count_foreign (by simp), Nat.zero_add]
        rfl
      · rw [step.trace, step.after, destroyed_foreign (by simp)]
        exact .still
      · simp [step.trace, destroyed_foreign]
  | exit move tables =>
      obtain ⟨within, -, -⟩ := move.brings inv.established within
      refine ⟨within, fun stmt => ?_, length tables, move.goes inv.established ‹_›, ?_⟩
      · rw [count_exit]
        exact move.left stmt
      · refine fun k member => Nat.lt_of_lt_of_le ?_ (length tables)
        cases move with
        | start | leave | joined | tail => simp [destroyed] at member
        | @stop i j at_ more thread =>
            obtain rfl : i = j := by
              simpa using (inv.established.thread more).symm.trans thread
            obtain rfl : k = i := by simpa [destroyed] using member
            exact Nat.lt_of_lt_of_le more inv.established.count_le

/-! ## The ledger of a run -/

/-- What the ledger holds after a run that began with the ledger of `m₀`. -/
structure Filed (m₀ : RtdmModule) (tr : List (Agent × Event)) (m : RtdmModule) : Prop where
  inv : m.closing.served.Inv .xenoPWM
  within : m.closing.exit.Within m.closing.served.world.pwmPinCount
  left : ∀ stmt, tr.count (.exit, .exit stmt) + m.closing.exit.left .xenoPWM stmt =
    Driver.xenoPWM.exitTail.count stmt
  early : m.closing.exit.pastLoop = false → destroyed tr = List.range m.closing.exit.asked
  among : ∀ k ∈ destroyed tr, k < m.closing.served.world.tasks.length
  pointers : m.gpioMap = m₀.gpioMap ∧ m.dutyArray = m₀.dutyArray
  acquired : ∀ r, m.ledger.count (.acquire r) = m₀.ledger.count (.acquire r) +
    ((List.range m.closing.served.world.tasks.length).map RtdmResource.task).count r
  released : ∀ r, m.ledger.count (.release r) = m₀.ledger.count (.release r) +
    (tr.filterMap m₀.frees).count r

/-- The loop of module exit has ended in some state of the run, and the tasks destroyed are
    those that were counted there. -/
def Departed (m₀ : RtdmModule) (turns : List ClosingTurn) (tr : List (Agent × Event)) : Prop :=
  ∃ before after tr₁ m₁, turns = before ++ after ∧ xenoModule.Reaches m₀ before tr₁ m₁ ∧
    m₁.closing.exit = .tail Driver.xenoPWM.exitTail ∧
    destroyed tr = List.range m₁.closing.served.world.pwmPinCount

theorem Filed.step (filed : Filed m₀ tr m) (one : m.closing.OneInit turn)
    (taken : m.step turn = some (.ok tr' m')) :
    Filed m₀ (tr ++ tr') m' ∧
      Goes (destroyed tr') m.closing.exit m'.closing.exit m'.closing.served.world.pwmPinCount := by
  obtain ⟨stepped, after⟩ := RtdmModule.step_ok taken
  obtain ⟨step, -⟩ := Closing.step_ok filed.inv stepped
  have accounts := step.accounts filed.inv filed.within
  have ledger : m'.ledger = m.ledger ++
      (((List.range m'.closing.served.world.tasks.length).drop
        m.closing.served.world.tasks.length).map RtdmResource.task).map Entry.acquire ++
        (tr'.filterMap m₀.frees).map Entry.release := by
    have frees : m.frees = m₀.frees := by
      funext e
      simp only [RtdmModule.frees, filed.pointers.1]
    rw [after, RtdmModule.after, List.map_map, frees]
    rfl
  refine ⟨?_, accounts.goes⟩
  exact
    { inv := step.inv filed.inv one
      within := accounts.within
      left := by
        intro stmt
        have before := filed.left stmt
        have now := accounts.left stmt
        rw [List.count_append]
        omega
      early := by
        intro inLoop
        rw [destroyed_append]
        cases accounts.goes with
        | early was _ goes => rw [filed.early was, goes]
        | leaves _ past => simp [past, ExitPc.pastLoop] at inLoop
        | late _ past => simp [past] at inLoop
      among := by
        intro k member
        rw [destroyed_append] at member
        rcases List.mem_append.mp member with old | new
        · exact Nat.lt_of_lt_of_le (filed.among k old) accounts.grows
        · exact accounts.among k new
      pointers := by
        rw [after]
        exact filed.pointers
      acquired := by
        intro r
        -- the tasks there were, and the new ones
        have tasks := congrArg (fun ks => (ks.map RtdmResource.task).count r)
          (List.take_append_drop m.closing.served.world.tasks.length
            (List.range m'.closing.served.world.tasks.length))
        simp only [List.take_range, Nat.min_eq_left accounts.grows, List.map_append,
          List.count_append] at tasks
        rw [ledger, (Ledger.count_append _ _ _ r).1, filed.acquired]
        omega
      released := by
        intro r
        rw [ledger, (Ledger.count_append _ _ _ r).2, filed.released, List.filterMap_append,
          List.count_append]
        omega }

theorem Filed.of_reaches (start : m₀.closing = .load gpio)
    (reach : xenoModule.Reaches m₀ turns tr m)
    (one : xenoModule.Guarded (fun m turn => m.closing.OneInit turn) m₀ turns) :
    Filed m₀ tr m ∧ (m.closing.exit.pastLoop = true → Departed m₀ turns tr) := by
  revert one
  refine reach.induction (Q := fun turns tr m =>
    xenoModule.Guarded (fun m turn => m.closing.OneInit turn) m₀ turns →
      Filed m₀ tr m ∧ (m.closing.exit.pastLoop = true → Departed m₀ turns tr)) ?_ ?_
  · intro _
    refine ⟨?_, by rw [start]; exact nofun⟩
    exact
      { inv := by rw [start]; exact Concurrent.load_inv .xenoPWM gpio
        within := by rw [start]; trivial
        left := by rw [start]; intro stmt; exact Nat.zero_add _
        early := by rw [start]; exact fun _ => rfl
        among := by simp [destroyed]
        pointers := ⟨rfl, rfl⟩
        acquired := by rw [start]; simp [Closing.load, Concurrent.load, World.load]
        released := by simp }
  · intro turns tr m turn tr' m' left held taken one
    obtain ⟨guarded, here⟩ := Machine.guarded_snoc.mp one
    obtain ⟨filed, departed⟩ := held guarded
    obtain ⟨filed', goes⟩ := filed.step (here tr m left) taken
    refine ⟨filed', fun past => ?_⟩
    rw [Departed, destroyed_append]
    cases goes with
    | early _ inLoop => simp [inLoop] at past
    | leaves was now asked none_ =>
        refine ⟨turns ++ [turn], [], tr ++ tr', m', (List.append_nil _).symm, ?_, now, ?_⟩
        · exact Machine.reaches_append.mpr ⟨tr, m, tr', left, Machine.reaches_single.mpr taken, rfl⟩
        · rw [none_, filed.early was, asked, List.append_nil]
    | late was _ none_ =>
        obtain ⟨before, after, tr₁, m₁, rfl, reach, exit, same⟩ := departed was
        exact ⟨before, after ++ [turn], tr₁, m₁, List.append_assoc _ _ _, reach, exit,
          by rw [none_, same, List.append_nil]⟩

/-! ## The end of a life -/

def RtdmModule.freedBy (m : RtdmModule) : RtdmResource → Option (Agent × Event)
  | .task k => some (.exit, .stop k)
  | .mapping => if m.gpioMap then some (.exit, .exit .iounmap) else none
  | .registration => some (.exit, .exit .rtdmDevUnregister)
  | .dutyArray => none

theorem RtdmModule.frees_eq_some (m : RtdmModule) (r : RtdmResource) (e : Agent × Event) :
    m.frees e = some r ↔ m.freedBy r = some e := by
  obtain ⟨agent, event⟩ := e
  cases agent with
  | client | task => cases r <;> simp [RtdmModule.frees, RtdmModule.freedBy]
  | exit =>
      cases event with
      | stop k =>
          cases r with
          | task j => simpa [RtdmModule.frees, RtdmModule.freedBy] using eq_comm
          | mapping | dutyArray | registration => simp [RtdmModule.frees, RtdmModule.freedBy]
      | exit stmt => cases stmt <;> cases r <;> simp [RtdmModule.frees, RtdmModule.freedBy]
      | subscript | gpio | duty | sleep | ret =>
          cases r <;> simp [RtdmModule.frees, RtdmModule.freedBy]

theorem count_destroyed (tr : List (Agent × Event)) (k : Nat) :
    (destroyed tr).count k = tr.count (.exit, .stop k) := by
  refine Ledger.count_filterMap (r := k) (some (Agent.exit, Event.stop k)) (fun e => ?_) tr
  obtain ⟨agent, event⟩ := e
  cases agent <;> cases event <;> simp [eq_comm]

def RtdmAnswers.grants (answers : RtdmAnswers) : RtdmResource → Bool
  | .mapping => answers.ioremap
  | .dutyArray => answers.dutyArray
  | .registration => answers.devRegister.isNone
  | .task _ => false

theorem xenoPwmInit_ledger (answers : RtdmAnswers) (gpio : Gpio) (r : RtdmResource) :
    (xenoPwmInit answers gpio).1.ledger.count (.acquire r) = (answers.grants r).toNat ∧
      (xenoPwmInit answers gpio).1.ledger.count (.release r) = 0 := by
  obtain ⟨ioremap, duty, register⟩ := answers
  cases r <;> cases ioremap <;> cases duty <;> cases register <;>
    simp [xenoPwmInit, RtdmModule.acquire, RtdmAnswers.grants]

theorem Filed.counts (filed : Filed (xenoPwmInit answers gpio).1 tr m)
    (done : m.closing.exit = .tail []) (r : RtdmResource) :
    m.ledger.count (.acquire r) = (answers.grants r).toNat +
        (match r with
        | .task k => if k < m.closing.served.world.tasks.length then 1 else 0
        | _ => 0) ∧
      m.ledger.count (.release r) =
        match r with
        | .mapping => answers.ioremap.toNat
        | .dutyArray => 0
        | .registration => 1
        | .task k => (destroyed tr).count k := by
  have left : ∀ stmt, tr.count (.exit, .exit stmt) = Driver.xenoPWM.exitTail.count stmt := by
    intro stmt
    have left := filed.left stmt
    rwa [done, ExitPc.left, List.count_nil, Nat.add_zero] at left
  have freed := Ledger.count_filterMap _ ((xenoPwmInit answers gpio).1.frees_eq_some r) tr
  rw [filed.acquired, filed.released, (xenoPwmInit_ledger answers gpio r).1,
    (xenoPwmInit_ledger answers gpio r).2, freed, Nat.zero_add]
  cases r with
  | task k =>
      refine ⟨?_, (count_destroyed tr k).symm⟩
      rw [List.count_map_of_injective _ _ (fun _ _ => RtdmResource.task.inj)]
      simp [List.count_range]
  | mapping =>
      refine ⟨by simp [List.count_eq_zero], ?_⟩
      cases ioremap : answers.ioremap with
      | false => simp [RtdmModule.freedBy, xenoPwmInit, RtdmModule.acquire, ioremap]
      | true =>
          simp only [RtdmModule.freedBy, xenoPwmInit, RtdmModule.acquire, ioremap, ↓reduceIte,
            Option.elim_some, left]
          rfl
  | dutyArray => exact ⟨by simp [List.count_eq_zero], rfl⟩
  | registration => exact ⟨by simp [List.count_eq_zero], left .rtdmDevUnregister⟩

/-- Whatever the kernel answers, `xeno_pwm_init` returns 0.  If `PWM_INIT` is only issued while a
    slot is free and no other one is in flight, the module goes wrong only through a pointer it
    was refused.  When `xeno_pwm_exit` has returned, it has left behind `duty_array` and exactly
    the tasks that were not counted yet when its loop ended, and what it has released without
    having acquired it is exactly a device that was never registered, once. -/
theorem xeno_leftovers (answers : RtdmAnswers) (gpio : Gpio) (turns : List ClosingTurn)
    (one : xenoModule.Guarded (fun m turn => m.closing.OneInit turn)
      (xenoPwmInit answers gpio).1 turns) :
    (xenoPwmInit answers gpio).2 = 0 ∧
    (∀ tr why, xenoModule.run (xenoPwmInit answers gpio).1 turns = some (.fault tr why) →
      why = .nullPointer ∧ (answers.ioremap = false ∨ answers.dutyArray = false)) ∧
    ∀ tr m, xenoModule.Reaches (xenoPwmInit answers gpio).1 turns tr m →
      m.closing.exit = .tail [] →
      ∃ before after tr₁ m₁, turns = before ++ after ∧
        xenoModule.Reaches (xenoPwmInit answers gpio).1 before tr₁ m₁ ∧
        m₁.closing.exit = .tail Driver.xenoPWM.exitTail ∧
        (∀ r, Ledger.Live m.ledger r ↔ r = .dutyArray ∧ answers.dutyArray = true ∨
          ∃ k, r = .task k ∧ m₁.closing.served.world.pwmPinCount ≤ k ∧
            k < m.closing.served.world.tasks.length) ∧
        (∀ r, m.ledger.count (.acquire r) < m.ledger.count (.release r) ↔
          r = .registration ∧ answers.devRegister ≠ none) ∧
        (answers.devRegister ≠ none → m.ledger.count (.acquire .registration) = 0 ∧
          m.ledger.count (.release .registration) = 1) := by
  refine ⟨rfl, fun tr why run => ?_, fun tr m reach done => ?_⟩
  · obtain ⟨pre, turn, post, first, m, last, rfl, reach, wrong, rfl⟩ := Machine.run_fault run
    obtain ⟨filed, -⟩ := Filed.of_reaches rfl reach (Machine.guarded_append.mp one).1
    obtain ⟨null, pointers⟩ := RtdmModule.step_fault filed.inv wrong
    rw [filed.pointers.1, filed.pointers.2] at pointers
    exact ⟨null, pointers⟩
  · obtain ⟨filed, departed⟩ := Filed.of_reaches rfl reach one
    obtain ⟨before, after, tr₁, m₁, split, reach₁, left, tasks⟩ := departed (by rw [done]; rfl)
    refine ⟨before, after, tr₁, m₁, split, reach₁, left, fun r => ?_, fun r => ?_, fun refused => ?_⟩
    · obtain ⟨acquired, released⟩ := filed.counts done r
      rw [Ledger.Live, acquired, released]
      cases r with
      | task k =>
          simp only [RtdmAnswers.grants, tasks, List.count_range]
          grind
      | mapping => simp [RtdmAnswers.grants]
      | dutyArray => simp [RtdmAnswers.grants, Nat.pos_iff_ne_zero]
      | registration => simp [RtdmAnswers.grants, Bool.toNat_le]
    · obtain ⟨acquired, released⟩ := filed.counts done r
      rw [acquired, released]
      cases r with
      | task k =>
          have among := filed.among k
          rw [tasks, List.mem_range] at among
          simp only [RtdmAnswers.grants, tasks, List.count_range]
          grind
      | mapping => simp [RtdmAnswers.grants]
      | dutyArray => simp [RtdmAnswers.grants]
      | registration => cases register : answers.devRegister <;> simp [RtdmAnswers.grants, register]
    · obtain ⟨acquired, released⟩ := filed.counts done .registration
      have refused : answers.grants .registration = false := by
        simpa [RtdmAnswers.grants, Option.isSome_iff_ne_none] using refused
      rw [refused] at acquired
      exact ⟨acquired, released⟩

/-- The task of a `PWM_INIT` in flight is left behind, and so is `duty_array`. -/
theorem xeno_leftovers_in_flight :
    ∃ tr m, xenoModule.Reaches (xenoPwmInit ⟨true, true, none⟩ .reset).1 countedTooLate tr m ∧
      Ledger.Live m.ledger .dutyArray ∧ Ledger.Live m.ledger (.task 0) ∧
      ¬ Ledger.Live m.ledger .mapping := by
  obtain ⟨tr, m, reach, test⟩ := Machine.exists_reaches xenoModule
    (xenoPwmInit ⟨true, true, none⟩ .reset).1 countedTooLate
    (fun _ m => decide (m.closing.exit = .tail [] ∧ Ledger.Live m.ledger (.task 0))) (by decide)
  obtain ⟨done, task⟩ := of_decide_eq_true test
  obtain ⟨-, -, ends⟩ := xeno_leftovers ⟨true, true, none⟩ .reset countedTooLate
    ⟨⟨Nat.succ_pos 4, nofun⟩, fun _ _ _ => .of_forall fun turn member m =>
      m.closing.oneInit_other (by
        rintro c args outcome rfl
        simp at member)⟩
  obtain ⟨_, _, _, _, _, _, _, live, -⟩ := ends tr m reach done
  exact ⟨tr, m, reach, (live _).mpr (.inl ⟨rfl, rfl⟩), task, fun held => by simpa using (live _).mp held⟩

end KsoftPWM
