import KsoftPWM.Concurrent

/-! # Every request returns by itself

No handler takes a lock, and none waits for a task or for another client.  A request in flight
can always go on, and it returns after a number of its own statements that depends on nothing
but the request and the driver: two for `PIN_SET`, one for `GPIO_SET`, those of its code for
`PWM_INIT`, and for `PWM_SET` one for every slot there is and one more, even if slots are opened
while it looks for its pin.
-/

namespace KsoftPWM

/-- The statements a request takes at most. -/
def Request.cost (D : Driver) : Request → Nat
  | pinSet .. => 2
  | gpioSet .. => 1
  | pwmInit _ => D.initCode.length
  | pwmSet .. => maxPwmNum + 1

/-- The statements that are left at most. -/
def ClientPc.left : ClientPc → Nat
  | before (.pinSet ..) => 2
  | before (.gpioSet ..) | before (.update ..) | between .. => 1
  | before (.init _ _ todo) => todo.length
  | before (.scan _ _ i) => maxPwmNum + 1 - i
  | before (.returned _) => 0

structure Concurrent.Serves (D : Driver) (c : Nat) (req : Request) (outcome : CreateOutcome)
    (s : Concurrent) : Prop where
  inv : s.Inv D
  flies : ∃ pc, s.flight c = some ⟨req, outcome, pc⟩

def Concurrent.left (c : Nat) (s : Concurrent) : Nat := (s.flight c).elim 0 (·.pc.left)

variable {D : Driver} {s s' : Concurrent} {w w' : World} {c : Nat} {f : Flight} {req : Request}
  {outcome : CreateOutcome}

theorem Flight.Sound.left_pos (sound : f.Sound D w.tables) (bound : w.pwmPinCount ≤ maxPwmNum) :
    0 < f.pc.left := by
  obtain ⟨req, outcome, pc⟩ := f
  cases pc with
  | between => exact Nat.one_pos
  | before call =>
      cases call with
      | init args outcome' todo =>
          obtain ⟨-, -, more, -⟩ := sound
          exact List.length_pos_iff.mpr more
      | pinSet => exact Nat.two_pos
      | gpioSet | update => exact Nat.one_pos
      | scan pin duty i =>
          obtain ⟨-, atMost, -⟩ := sound
          have inside : i ≤ maxPwmNum := Nat.le_trans atMost bound
          simp only [ClientPc.left]
          omega
      | returned => exact sound.elim

theorem Flight.Sound.left_le (sound : f.Sound D w.tables) : f.pc.left ≤ f.req.cost D := by
  obtain ⟨req, outcome, pc⟩ := f
  cases pc with
  | between =>
      obtain ⟨rfl, -⟩ := sound
      exact Nat.le_succ 1
  | before call =>
      cases call with
      | init args outcome' todo =>
          obtain ⟨rfl, -, -, opening, -⟩ := sound
          exact opening.code.length_le
      | pinSet | gpioSet =>
          obtain rfl := sound
          exact Nat.le_refl _
      | update =>
          obtain ⟨pin, slot, rfl, -⟩ := sound
          exact Nat.succ_le_succ (Nat.zero_le _)
      | scan =>
          obtain ⟨rfl, -⟩ := sound
          exact Nat.sub_le _ _
      | returned => exact sound.elim

theorem Call.left_lt {call next : Call} {raw : List Event} (bound : w.pwmPinCount ≤ maxPwmNum)
    (more : 0 < (ClientPc.before call).left) (run : call.step w = .ok raw (w', next)) :
    (ClientPc.before next).left < (ClientPc.before call).left := by
  cases call with
  | init args outcome todo =>
      cases todo with
      | nil => exact absurd more (Nat.lt_irrefl 0)
      | cons stmt rest =>
          obtain ⟨_, ⟨w₁, brk⟩, _, -, done, -⟩ := Traced.bind_eq_ok.mp run
          cases brk with
          | some err =>
              cases done
              exact more
          | none =>
              cases done
              cases rest with
              | nil => exact more
              | cons => exact Nat.lt_succ_self _
  | pinSet | gpioSet | update =>
      obtain ⟨_, w₁, _, -, done, -⟩ := Traced.bind_eq_ok.mp run
      cases done
      exact more
  | scan pin duty i =>
      by_cases short : i < w.pwmPinCount
      · have inside : i < maxPwmNum := Nat.lt_of_lt_of_le short bound
        rw [Call.step_scan short inside] at run
        cases run
        split <;> simp only [ClientPc.left] <;> omega
      · rw [Call.step_scan_end short] at run
        cases run
        exact more
  | returned => exact absurd more (Nat.lt_irrefl 0)

theorem ClientPc.left_lt {pc next : ClientPc} {raw : List Event} (bound : w.pwmPinCount ≤ maxPwmNum)
    (more : 0 < pc.left) (run : pc.step w = .ok raw (w', next)) : next.left < pc.left := by
  cases pc with
  | between =>
      cases run
      exact more
  | before call =>
      cases call with
      | pinSet pin type =>
          by_cases valid : ValidType type
          · rw [step_load pin w valid] at run
            cases run
            exact Nat.lt_succ_self 1
          · rw [step_ignore pin w valid] at run
            cases run
            exact more
      | init | gpioSet | scan | update | returned =>
          obtain ⟨_, ⟨w₁, next₁⟩, _, ran, done, -⟩ := Traced.bind_eq_ok.mp run
          cases done
          exact Call.left_lt bound more ran

theorem Flight.answered_or_after (f : Flight) (c : Nat) (next : ClientPc) :
    (∃ err, .returned c ⟨f.req, f.outcome, err⟩ ∈ f.answered c next) ∨
      f.after next = some ⟨f.req, f.outcome, next⟩ := by
  cases next with
  | between => exact .inr rfl
  | before call =>
      cases call with
      | returned err => exact .inl ⟨err, List.mem_singleton_self _⟩
      | init | pinSet | gpioSet | scan | update => exact .inr rfl

/-- The own statements of a request bring it nearer to its return, and nothing else takes it
    away from there. -/
theorem Concurrent.Serves.next {turn : Turn} {tr : List Occurrence}
    (serves : s.Serves D c req outcome) (one : OneInit s turn)
    (taken : D.concurrent.step s turn = some (.ok tr s')) :
    (∃ e ∈ tr, ∃ err, e = .returned c ⟨req, outcome, err⟩) ∨
      s'.Serves D c req outcome ∧ s'.left c + (if turn == .statement c then 1 else 0) ≤ s.left c := by
  obtain ⟨inv, pc, here⟩ := serves
  have inv' := inv.next one (inv.taken_ok taken)
  have stays : s'.flight c = s.flight c → turn ≠ .statement c → s'.Serves D c req outcome ∧
      s'.left c + (if turn == .statement c then 1 else 0) ≤ s.left c := by
    intro same other
    refine ⟨⟨inv', pc, same.trans here⟩, ?_⟩
    rw [Concurrent.left, same, if_neg (by simpa using other)]
    exact Nat.le_refl _
  generalize shape : (Traced.ok tr s' : Traced Occurrence Fault Concurrent) = x at taken
  cases Concurrent.step_taken taken with
  | @enter c' req' outcome' idle =>
      cases shape
      have other : c ≠ c' := by
        rintro rfl
        rw [idle] at here
        cases here
      exact .inr (stays (Concurrent.flight_put_other other _ _) (by simp))
  | @statement c' f there =>
      obtain ⟨raw, w, next, run, -, -⟩ := (inv.sound c' f there).moves inv.established.bound
      rw [Concurrent.advance_ok run] at shape
      cases shape
      by_cases other : c = c'
      · subst other
        obtain rfl := Option.some.inj (here.symm.trans there)
        rcases Flight.answered_or_after ⟨req, outcome, pc⟩ c next with ⟨err, answered⟩ | after
        · exact .inl ⟨_, List.mem_append_right _ answered, err, rfl⟩
        · have flies : (s.put w c (Flight.after ⟨req, outcome, pc⟩ next)).flight c =
              some ⟨req, outcome, next⟩ := by
            rw [Concurrent.flight_put_self, after]
          have lower := ClientPc.left_lt inv.established.bound
            ((inv.sound c _ here).left_pos inv.established.bound) run
          refine .inr ⟨⟨inv', next, flies⟩, ?_⟩
          rw [Concurrent.left, Concurrent.left, flies, here, if_pos (beq_self_eq_true _)]
          exact lower
      · exact .inr (stays (Concurrent.flight_put_other other _ _) (by simpa using Ne.symm other))
  | task moved =>
      obtain ⟨_, w, _, -, done, -⟩ := Traced.bind_eq_ok.mp shape.symm
      cases done
      exact .inr (stays rfl (by simp))

/-- At any time in a run with at most one `PWM_INIT` in flight, a request in flight can go on, and
    whatever the other clients and the tasks do meanwhile, it has returned after `cost` statements
    of its own. -/
theorem requests_wait_free (D : Driver) (gpio : Gpio) (turns : List Turn) (tr : List Occurrence)
    (s : Concurrent) (reach : D.concurrent.Reaches (.load gpio) turns tr s)
    (one : D.concurrent.Guarded OneInit (.load gpio) turns) (c : Nat) (f : Flight)
    (here : s.flight c = some f) :
    (∃ tr' s', D.concurrent.step s (.statement c) = some (.ok tr' s')) ∧
    ∀ later tr' s', D.concurrent.Reaches s later tr' s' → D.concurrent.Guarded OneInit s later →
      f.req.cost D ≤ later.count (.statement c) →
      ∃ err, .returned c ⟨f.req, f.outcome, err⟩ ∈ tr' := by
  have inv := Concurrent.inv_of_reaches reach one
  have bound := inv.established.bound
  constructor
  · obtain ⟨raw, w, next, run, -⟩ := (inv.sound c f here).moves bound
    refine ⟨raw.map .event ++ f.answered c next, s.put w c (f.after next), ?_⟩
    simp only [Driver.concurrent, Concurrent.step, here, Option.map_some, Concurrent.advance_ok run]
  · intro later tr' s' reach' one' enough
    have start : s.Serves D c f.req f.outcome := ⟨inv, f.pc, here⟩
    rcases reach'.brings one' start (fun serves one taken => serves.next one taken) with
      ⟨_, member, err, rfl⟩ | ⟨⟨inv', pc, there⟩, spent⟩
    · exact ⟨err, member⟩
    · have atMost := (inv.sound c f here).left_le
      have more : 0 < pc.left := (inv'.sound c _ there).left_pos inv'.established.bound
      rw [Concurrent.left, Concurrent.left, here, there] at spent
      simp only [Option.elim_some] at spent
      rw [List.count] at enough
      omega

/-- A `PWM_INIT` whose task drives its pin and which a `PWM_SET` overlaps. -/
theorem requests_wait_free_overlapped :
    ∃ tr s, Driver.softPWM.concurrent.Reaches (.load .reset)
        [.enter 0 (.pwmInit ⟨16, 0, 100⟩) .created, .enter 1 (.pwmSet 16 40) .created] tr s ∧
      ∃ tr' s', Driver.softPWM.concurrent.Reaches s (List.replicate 8 (.statement 0) ++
          [.task 0 false, .task 0 false, .statement 1, .statement 0]) tr' s' ∧
        ∃ err, .returned 0 ⟨.pwmInit ⟨16, 0, 100⟩, .created, err⟩ ∈ tr' := by
  have one : Driver.softPWM.concurrent.Guarded OneInit (.load .reset)
      [.enter 0 (.pwmInit ⟨16, 0, 100⟩) .created, .enter 1 (.pwmSet 16 40) .created] :=
    oneInit_first (by simp)
  obtain ⟨tr, s, reach, test⟩ := Machine.exists_reaches Driver.softPWM.concurrent (.load .reset)
    [.enter 0 (.pwmInit ⟨16, 0, 100⟩) .created, .enter 1 (.pwmSet 16 40) .created]
    (fun _ s => decide (s.flight 0 = some ⟨.pwmInit ⟨16, 0, 100⟩, .created,
      .before (.init ⟨16, 0, 100⟩ .created Driver.softPWM.initCode)⟩)) (by decide)
  obtain ⟨whole, s', goes, -⟩ := Machine.exists_reaches Driver.softPWM.concurrent (.load .reset)
    ([.enter 0 (.pwmInit ⟨16, 0, 100⟩) .created, .enter 1 (.pwmSet 16 40) .created] ++
      (List.replicate 8 (.statement 0) ++
        [.task 0 false, .task 0 false, .statement 1, .statement 0])) (fun _ _ => true) (by decide)
  obtain ⟨tr₁, s₁, tr', left, right, -⟩ := Machine.reaches_append.mp goes
  obtain ⟨rfl, rfl⟩ := reach.functional left
  refine ⟨tr, s, reach, tr', s', right, ?_⟩
  refine (requests_wait_free .softPWM .reset _ tr s reach one 0 _ (of_decide_eq_true test)).2 _ tr' s'
    right (.of_forall fun turn member s => ?_) (by decide)
  cases turn with
  | statement | task => trivial
  | enter => simp at member

end KsoftPWM
