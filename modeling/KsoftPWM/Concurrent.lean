import KsoftPWM.Bank
import KsoftPWM.Base.Simulation
import KsoftPWM.Model.Concurrent
import KsoftPWM.Requests

/-! # Requests that overlap

Two `PWM_INIT` requests that overlap spoil each other.  All other requests may overlap
with each other and with one `PWM_INIT`: a channel only becomes visible with
`pwm_pin_count++`, the pins of visible channels never change, and a `PWM_SET` takes
effect, if at all, with its last statement.  So every request takes effect with its last
statement, and the channels and the answers are those of the same requests served one
after the other in the order of these statements.

The read-modify-write of a pin mode is the exception: it is only atomic if no other one
writes the same register word in between.
-/

namespace KsoftPWM

/-- `PWM_INIT` is issued while a slot is free and no other `PWM_INIT` is in flight. -/
def OneInit (s : Concurrent) : Turn → Prop
  | .enter _ (.pwmInit _) _ => s.world.pwmPinCount < maxPwmNum ∧
      ∀ c f, s.flight c = some f → f.req.isInit = false
  | _ => True

/-- Nobody writes back a register word that another client has read and is about to write
    back too. -/
def Unbroken (s : Concurrent) : Turn → Prop
  | .statement client => ∀ c f f' pin type old pin' type' old', c ≠ client →
      s.flight client = some f → f.pc = .between pin type old →
      s.flight c = some f' → f'.pc = .between pin' type' old' → modeWord pin ≠ modeWord pin'
  | _ => True

/-! ## The statements of a request -/

/-- What holds of the tables while a request is about to run its next statement. -/
def Flight.Sound (D : Driver) (T : Tables) : Flight → Prop
  | ⟨req, outcome, .before (.init args outcome' todo)⟩ => req = .pwmInit args ∧
      outcome = outcome' ∧ todo ≠ [] ∧ T.Opening D args outcome' todo ∧
      (Call.init args outcome todo).Keeps D (fun _ => True) T
  | ⟨req, _, .before (.pinSet pin type)⟩ => req = .pinSet pin type
  | ⟨req, _, .before (.gpioSet pin status)⟩ => req = .gpioSet pin status
  | ⟨req, _, .before (.scan pin duty i)⟩ => req = .pwmSet pin duty ∧ i ≤ T.pwmPinCount ∧
      T.Passed pin i
  | ⟨req, _, .before (.update pos duty)⟩ => ∃ pin slot, req = .pwmSet pin duty ∧
      pos < T.pwmPinCount ∧ T.Passed pin pos ∧ T.dutyArray[pos]? = some slot ∧ slot.pin = pin
  | ⟨_, _, .before (.returned _)⟩ => False
  | ⟨req, _, .between pin type _⟩ => req = .pinSet pin type ∧ ValidType type

/-- No request is `PWM_INIT` but one at most, whose slot is being opened; without one the
    tables are settled. -/
structure Concurrent.Inv (D : Driver) (s : Concurrent) : Prop where
  alone : ∀ c c' f f', s.flight c = some f → s.flight c' = some f' → f.req.isInit = true →
    f'.req.isInit = true → c = c'
  settled : (∀ c f, s.flight c = some f → f.req.isInit = false) → s.world.tables.Settled
  sound : ∀ c f, s.flight c = some f → f.Sound D s.world.tables

/-- Everything a statement of a client can do: what becomes of the world, and where the
    request is then. -/
inductive Flight.Moves (D : Driver) (w : World) (f : Flight) : World → ClientPc → Prop where
  | load {pin type} : f.req = .pinSet pin type → ValidType type →
      f.pc = .before (.pinSet pin type) →
      Moves D w f w (.between pin type (w.gpio.words (modeWord pin)))
  | store {pin type old} : f.req = .pinSet pin type → ValidType type →
      f.pc = .between pin type old →
      Moves D w f { w with gpio := w.gpio.store (modeWord pin) (modeValue pin type old) }
        (.before (.returned 0))
  | ignore {pin type} : f.req = .pinSet pin type → ¬ ValidType type →
      Moves D w f w (.before (.returned 0))
  | drive {pin status gpio} : f.req = .gpioSet pin status → gpio.words = w.gpio.words →
      Moves D w f { w with gpio := gpio } (.before (.returned 0))
  | opens {args rest tr w'} {stmt : Stmt} : f.req = .pwmInit args →
      w.tables.Opening D args f.outcome (stmt :: rest) →
      stmt.exec args f.outcome w = .ok tr (w', none) → stmt ≠ .incr → rest ≠ [] →
      w'.tables.Opening D args f.outcome rest →
      (Call.init args f.outcome rest).Keeps D (fun _ => True) w'.tables →
      Moves D w f w' (.before (.init args f.outcome rest))
  | counts {args} : f.req = .pwmInit args → f.outcome = .created → w.pwmPinCount < maxPwmNum →
      w.dutyArray[w.pwmPinCount]? = some (D.fresh args) →
      Tables.Settled { w.tables with pwmPinCount := w.pwmPinCount + 1 } →
      Moves D w f { w with pwmPinCount := w.pwmPinCount + 1 } (.before (.returned 0))
  | breaks {args why tr w'} {stmt : Stmt} : f.req = .pwmInit args → f.outcome = .failed why →
      w.pwmPinCount < maxPwmNum → stmt.exec args f.outcome w = .ok tr (w', some why.value) →
      stmt ≠ .incr → w'.tables.Settled → Moves D w f w' (.before (.returned why.value))
  | pass {pin duty i} : f.req = .pwmSet pin duty → i < w.pwmPinCount →
      w.tables.Passed pin (i + 1) → Moves D w f w (.before (.scan pin duty (i + 1)))
  | found {pin duty i slot} : f.req = .pwmSet pin duty → i < w.pwmPinCount →
      w.tables.Passed pin i → w.dutyArray[i]? = some slot → slot.pin = pin →
      Moves D w f w (.before (.update i duty))
  | absent {pin duty} : f.req = .pwmSet pin duty → w.find pin = none →
      Moves D w f w (.before (.returned 0))
  | update {pin duty pos} (found : w.find pin = some pos) : f.req = .pwmSet pin duty →
      Moves D w f (w.withDuty pos (find_inside found).2 duty) (.before (.returned 0))

variable {D : Driver} {s s' : Concurrent} {w w' : World} {T T' : Tables} {c : Nat} {f : Flight}
  {args : InitArgs} {outcome : CreateOutcome} {stmt : Stmt} {rest todo : List Stmt}
  {pin type : Int32} {raw : List Event}

theorem Flight.Sound.opening (sound : f.Sound D T) (init : f.req.isInit = true) :
    ∃ args outcome todo, f = ⟨.pwmInit args, outcome, .before (.init args outcome todo)⟩ ∧
      todo ≠ [] ∧ T.Opening D args outcome todo ∧
      (Call.init args outcome todo).Keeps D (fun _ => True) T := by
  obtain ⟨req, outcome, pc⟩ := f
  cases pc with
  | between =>
      obtain ⟨rfl, -⟩ := sound
      cases init
  | before call =>
      cases call with
      | init args outcome' todo =>
          obtain ⟨rfl, rfl, rest⟩ := sound
          exact ⟨args, outcome, todo, rfl, rest⟩
      | pinSet | gpioSet =>
          obtain rfl := sound
          cases init
      | scan =>
          obtain ⟨rfl, -⟩ := sound
          cases init
      | update =>
          obtain ⟨pin, slot, rfl, -⟩ := sound
          cases init
      | returned => exact sound.elim

theorem Concurrent.Inv.established (inv : s.Inv D) : s.world.tables.Established := by
  by_cases init : ∃ c f, s.flight c = some f ∧ f.req.isInit = true
  · obtain ⟨c, f, here, init⟩ := init
    obtain ⟨args, outcome, todo, -, -, opening, -⟩ := (inv.sound c f here).opening init
    exact opening.toEstablished
  · refine (inv.settled fun c f here => ?_).toEstablished
    rw [← Bool.not_eq_true]
    exact fun flag => init ⟨c, f, here, flag⟩

/-- A statement that breaks out of a `PWM_INIT` does so because the thread was not created,
    with the error of the creation. -/
theorem Tables.Opening.breaks {tr : List Event} {err : Int}
    (opening : w.tables.Opening D args outcome (stmt :: rest))
    (run : stmt.exec args outcome w = .ok tr (w', some err)) :
    ∃ why, outcome = .failed why ∧ err = why.value := by
  have room : w.pwmPinCount < maxPwmNum := opening.room
  have spawned := opening.spawned
  cases stmt with
  | kthreadCreate =>
      cases outcome with
      | created => rw [Stmt.exec_kthreadCreate_created room] at run; cases run
      | failed why => rw [Stmt.exec_kthreadCreate_failed room] at run; cases run
  | rtdmTaskInit =>
      cases outcome with
      | created => rw [Stmt.exec_rtdmTaskInit_created room] at run; cases run
      | failed why =>
          rw [Stmt.exec_rtdmTaskInit_failed room] at run
          cases run
          exact ⟨why, rfl, rfl⟩
  | isErr =>
      obtain ⟨rfl, rfl⟩ := code_isErr opening.code
      have entry : w.tables.taskTable[w.tables.pwmPinCount]? = some w.taskTable[w.pwmPinCount] :=
        Vector.getElem?_eq_getElem room
      cases outcome with
      | created =>
          have thread : w.taskTable[w.pwmPinCount] = .thread w.pwmPinCount :=
            Option.some.inj (entry.symm.trans spawned.2.2)
          rw [Stmt.exec_isErr_valid room (by simp [thread])] at run
          cases run
      | failed why =>
          have error : w.taskTable[w.pwmPinCount] = .error why :=
            Option.some.inj (entry.symm.trans spawned.2.1)
          rw [Stmt.exec_isErr_error room error] at run
          cases run
          exact ⟨why, rfl, rfl⟩
  | wakeUp =>
      obtain ⟨rfl, rfl⟩ := code_wakeUp opening.code
      obtain ⟨-, -, -, recorded⟩ := opening.thread (by decide) (by decide)
      have thread : w.taskTable[w.pwmPinCount] = .thread w.pwmPinCount :=
        Option.some.inj ((Vector.getElem?_eq_getElem room).symm.trans recorded)
      rw [Stmt.exec_wakeUp room thread] at run
      cases run
  | setPin => rw [Stmt.exec_setPin room] at run; cases run
  | setMin => rw [Stmt.exec_setMin room] at run; cases run
  | setMax => rw [Stmt.exec_setMax room] at run; cases run
  | setDuty => rw [Stmt.exec_setDuty room] at run; cases run
  | printk => rw [Stmt.exec_printk room] at run; cases run
  | rtdmPrintk => rw [Stmt.exec_rtdmPrintk room] at run; cases run
  | incr => cases run

theorem init_moves (req : f.req = .pwmInit args)
    (opening : w.tables.Opening D args f.outcome (stmt :: rest))
    (keeps : (Call.init args f.outcome (stmt :: rest)).Keeps D (fun _ => True) w.tables) :
    ∃ tr w' next, (ClientPc.before (.init args f.outcome (stmt :: rest))).step w =
      .ok tr (w', next) ∧ (∀ e ∈ tr, e.InBounds) ∧ f.Moves D w w' next := by
  obtain ⟨tr, w', brk, run, bounds, progress⟩ := opening.advances
  cases brk with
  | some err =>
      obtain ⟨why, failed, rfl⟩ := opening.breaks run
      refine ⟨tr, w', .before (.returned why.value), ?_, bounds, ?_⟩
      · simp [ClientPc.step, Call.step_init_break run]
      · exact .breaks req failed opening.room run (by rintro rfl; cases run) progress
  | none =>
      refine ⟨tr, w', .before (.resume args f.outcome rest), ?_, bounds, ?_⟩
      · simp [ClientPc.step, Call.step_init_next run]
      · by_cases last : stmt = .incr
        · subst last
          obtain rfl := code_incr opening.code
          obtain ⟨created, -⟩ := opening.thread (by cases D <;> decide) (by decide)
          have room : w.pwmPinCount < maxPwmNum := opening.room
          have held : w.dutyArray[w.pwmPinCount]? = some w.dutyArray[w.pwmPinCount] :=
            Vector.getElem?_eq_getElem room
          have fresh := opening.fresh held (by decide) (by decide) (by decide) (keeps.2 (by simp))
          cases run
          exact .counts req created opening.room (fresh ▸ held) opening.incr
        · have more := code_more opening.code last
          have keeps' := Call.Keeps.stmt opening more keeps run
          obtain ⟨next, later, rfl⟩ := List.exists_cons_of_ne_nil more
          exact .opens req opening run last more progress keeps'

theorem scan_moves {duty : Int32} {i : Nat} (req : f.req = .pwmSet pin duty)
    (bound : w.pwmPinCount ≤ maxPwmNum) (atMost : i ≤ w.pwmPinCount)
    (passed : w.tables.Passed pin i) :
    ∃ tr w' next, (ClientPc.before (.scan pin duty i)).step w = .ok tr (w', next) ∧
      (∀ e ∈ tr, e.InBounds) ∧ f.Moves D w w' next := by
  by_cases more : i < w.pwmPinCount
  · have inside : i < maxPwmNum := Nat.lt_of_lt_of_le more bound
    have held : w.dutyArray[i]? = some w.dutyArray[i] := Vector.getElem?_eq_getElem inside
    refine ⟨[.subscript .dutyArray i], w, _, by simp [ClientPc.step, Call.step_scan more inside]; rfl,
      by simp [Event.InBounds, inside], ?_⟩
    split
    · rename_i same
      exact .found req more passed held same
    · rename_i other
      refine .pass req more fun j below slot here => ?_
      rcases Nat.eq_or_lt_of_le (Nat.le_of_lt_succ below) with rfl | earlier
      · obtain rfl : w.dutyArray[j] = slot := Option.some.inj (held.symm.trans here)
        exact other
      · exact passed j earlier slot here
  · obtain rfl : i = w.pwmPinCount := by omega
    exact ⟨[], w, .before (.returned 0), by simp [ClientPc.step, Call.step_scan_end more], by simp,
      .absent req (find_eq_none passed)⟩

theorem update_moves {duty : Int32} {pos : Nat} {slot : Dutycycle}
    (req : f.req = .pwmSet pin duty) (below : pos < w.pwmPinCount)
    (passed : w.tables.Passed pin pos) (held : w.dutyArray[pos]? = some slot)
    (same : slot.pin = pin) :
    ∃ tr w' next, (ClientPc.before (.update pos duty)).step w = .ok tr (w', next) ∧
      (∀ e ∈ tr, e.InBounds) ∧ f.Moves D w w' next := by
  have found := find_first below passed held same
  have inside := (find_inside found).2
  refine ⟨[.subscript .dutyArray pos, .subscript .dutyArray pos], _, .before (.returned 0), ?_, ?_,
    .update found req⟩
  · simp [ClientPc.step, Call.step_update inside, World.withDuty]
  · simp [Event.InBounds, inside]

theorem gpioStatus_words (pin status : Int32) (w : World) :
    ∃ tr gpio, gpioStatus pin status w = .ok tr { w with gpio := gpio } ∧
      (∀ e ∈ tr, e.InBounds) ∧ gpio.words = w.gpio.words := by
  unfold gpioStatus
  split
  · exact ⟨[], w.gpio, rfl, by simp, rfl⟩
  · split <;> exact ⟨_, _, rfl, by simp [Event.InBounds], rfl⟩

theorem step_load (pin : Int32) (w : World) (valid : ValidType type) :
    (ClientPc.before (.pinSet pin type)).step w = .ok [.gpio pin (.load (modeWord pin))]
      (w, .between pin type (w.gpio.words (modeWord pin))) := by
  have test : ¬ (type ≠ 0 ∧ type ≠ 1) := by rwa [← not_or, not_not]
  rw [ClientPc.step, if_neg test]
  rfl

theorem step_ignore (pin : Int32) (w : World) (invalid : ¬ ValidType type) :
    (ClientPc.before (.pinSet pin type)).step w = .ok [] (w, .before (.returned 0)) := by
  have test : type ≠ 0 ∧ type ≠ 1 := by rwa [ne_eq, ne_eq, ← not_or]
  rw [ClientPc.step, if_pos test]
  rfl

/-- The next statement of a request stays within the tables, and is one of the moves. -/
theorem Flight.Sound.moves (sound : f.Sound D w.tables) (bound : w.pwmPinCount ≤ maxPwmNum) :
    ∃ tr w' next, f.pc.step w = .ok tr (w', next) ∧ (∀ e ∈ tr, e.InBounds) ∧
      f.Moves D w w' next := by
  obtain ⟨req, outcome, pc⟩ := f
  cases pc with
  | between pin type old =>
      obtain ⟨rfl, valid⟩ := sound
      exact ⟨_, _, _, rfl, by simp [Event.InBounds], .store rfl valid rfl⟩
  | before call =>
      cases call with
      | init args outcome' todo =>
          obtain ⟨rfl, rfl, more, opening, keeps⟩ := sound
          obtain ⟨stmt, rest, rfl⟩ := List.exists_cons_of_ne_nil more
          exact init_moves (f := ⟨.pwmInit args, outcome, _⟩) rfl opening keeps
      | pinSet pin type =>
          obtain rfl := sound
          by_cases valid : ValidType type
          · exact ⟨_, w, _, step_load pin w valid, by simp [Event.InBounds], .load rfl valid rfl⟩
          · exact ⟨[], w, _, step_ignore pin w valid, by simp, .ignore rfl valid⟩
      | gpioSet pin status =>
          obtain rfl := sound
          obtain ⟨tr, gpio, run, bounds, words⟩ := gpioStatus_words pin status w
          exact ⟨tr, _, .before (.returned 0), by simp [ClientPc.step, Call.step_gpioSet run],
            bounds, .drive rfl words⟩
      | scan pin duty i =>
          obtain ⟨rfl, atMost, passed⟩ := sound
          exact scan_moves rfl bound atMost passed
      | update pos duty =>
          obtain ⟨pin, slot, rfl, below, passed, held, same⟩ := sound
          exact update_moves rfl below passed held same
      | returned => exact sound.elim

/-! ## What the statements of others leave alone -/

/-- The visible channels keep their pins, and more may have become visible. -/
structure Tables.Later (T T' : Tables) : Prop where
  count : T.pwmPinCount ≤ T'.pwmPinCount
  pins : ∀ j < T.pwmPinCount, T'.dutyArray[j]?.map (·.pin) = T.dutyArray[j]?.map (·.pin)

theorem Tables.Later.passed {i : Nat} (later : T.Later T') (atMost : i ≤ T.pwmPinCount)
    (passed : T.Passed pin i) : T'.Passed pin i := by
  intro j below slot held
  have pins := later.pins j (Nat.lt_of_lt_of_le below atMost)
  rw [held, Option.map_some] at pins
  obtain ⟨old, here, same⟩ := Option.map_eq_some_iff.mp pins.symm
  exact same ▸ passed j below old here

theorem Flight.Sound.later (sound : f.Sound D T) (later : T.Later T')
    (other : f.req.isInit = false) : f.Sound D T' := by
  obtain ⟨req, outcome, pc⟩ := f
  cases pc with
  | between => exact sound
  | before call =>
      cases call with
      | init args outcome' todo =>
          obtain ⟨rfl, -⟩ := sound
          cases other
      | pinSet | gpioSet | returned => exact sound
      | scan pin duty i =>
          obtain ⟨same, atMost, passed⟩ := sound
          exact ⟨same, Nat.le_trans atMost later.count, later.passed atMost passed⟩
      | update pos duty =>
          obtain ⟨pin, slot, same, below, passed, held, mine⟩ := sound
          have pins := later.pins pos below
          rw [held, Option.map_some] at pins
          obtain ⟨slot', held', mine'⟩ := Option.map_eq_some_iff.mp pins
          exact ⟨pin, slot', same, Nat.lt_of_lt_of_le below later.count,
            later.passed (Nat.le_of_lt below) passed, held', mine'.trans mine⟩

theorem later_exec {tr : List Event} {brk : Option Int}
    (run : stmt.exec args outcome w = .ok tr (w', brk)) : w.tables.Later w'.tables := by
  have frame := Stmt.exec_frame run
  refine ⟨?_, fun j below => congrArg _ (frame.slots j (Nat.ne_of_lt below))⟩
  change w.pwmPinCount ≤ w'.pwmPinCount
  rw [frame.count]
  exact Nat.le_add_right _ _

def Tables.withDuty (T : Tables) (pos : Nat) (inside : pos < maxPwmNum) (duty : Int32) : Tables :=
  { T with dutyArray := T.dutyArray.set pos ({ T.dutyArray[pos] with dutyCycle := duty }) }

section
variable {pos : Nat} (inside : pos < maxPwmNum) (duty : Int32)

theorem Tables.later_withDuty (T : Tables) : T.Later (T.withDuty pos inside duty) where
  count := Nat.le_refl _
  pins := by
    intro j below
    by_cases same : pos = j
    · subst same
      simp [withDuty, Vector.getElem?_eq_getElem inside]
    · rw [withDuty, Vector.getElem?_set_ne inside same]

include inside duty

theorem Tables.Opening.withDuty (opening : T.Opening D args outcome todo)
    (below : pos < T.pwmPinCount) :
    (T.withDuty pos inside duty).Opening D args outcome todo := by
  have slot : (T.withDuty pos inside duty).dutyArray[T.pwmPinCount]? =
      T.dutyArray[T.pwmPinCount]? := Vector.getElem?_set_ne inside (Nat.ne_of_lt below)
  exact
    { toEstablished := opening.toEstablished.setDuty inside duty
      room := opening.room
      code := opening.code
      pin := fun _ held => opening.pin _ (slot.symm.trans held)
      min := fun _ held => opening.min _ (slot.symm.trans held)
      max := fun _ held => opening.max _ (slot.symm.trans held)
      spawned := opening.spawned
      free := opening.free }

theorem Flight.Sound.withDuty (sound : f.Sound D T) (below : pos < T.pwmPinCount) :
    f.Sound D (T.withDuty pos inside duty) := by
  by_cases init : f.req.isInit = true
  · obtain ⟨args, outcome, todo, rfl, more, opening, keeps⟩ := sound.opening init
    have slot : (T.withDuty pos inside duty).dutyArray[T.pwmPinCount]? =
        T.dutyArray[T.pwmPinCount]? := Vector.getElem?_set_ne inside (Nat.ne_of_lt below)
    refine ⟨rfl, rfl, more, opening.withDuty inside duty below, keeps.1, fun absent => ?_⟩
    exact (congrArg _ slot).trans (keeps.2 absent)
  · exact sound.later (T.later_withDuty inside duty) (by simpa using init)

end

/-! ## The invariant -/

theorem Concurrent.load_inv (D : Driver) (gpio : Gpio) : (Concurrent.load gpio).Inv D where
  alone := by
    intro c c' f f' here
    cases here
  settled := fun _ => Tables.load_settled gpio
  sound := by
    intro c f here
    cases here

/-- One client moves on, or returns, and the requests of all others stay sound. -/
theorem Concurrent.Inv.put {next : Option Flight} (inv : s.Inv D) (here : s.flight c = some f)
    (others : ∀ c' f', c' ≠ c → s.flight c' = some f' → f'.Sound D w.tables)
    (mine : ∀ g, next = some g → g.req = f.req ∧ g.Sound D w.tables)
    (settled : (∀ g, next = some g → g.req.isInit = false) →
      (∀ c' f', c' ≠ c → s.flight c' = some f' → f'.req.isInit = false) → w.tables.Settled) :
    (s.put w c next).Inv D := by
  have origin : ∀ c' f', (s.put w c next).flight c' = some f' →
      ∃ f'', s.flight c' = some f'' ∧ f''.req = f'.req := by
    intro c' f' there
    by_cases same : c' = c
    · subst same
      rw [Concurrent.flight_put_self] at there
      exact ⟨f, here, (mine f' there).1.symm⟩
    · rw [Concurrent.flight_put_other same] at there
      exact ⟨f', there, rfl⟩
  exact
    { alone := by
        intro c₁ c₂ f₁ f₂ here₁ here₂ init₁ init₂
        obtain ⟨g₁, there₁, same₁⟩ := origin c₁ f₁ here₁
        obtain ⟨g₂, there₂, same₂⟩ := origin c₂ f₂ here₂
        exact inv.alone c₁ c₂ g₁ g₂ there₁ there₂ (same₁ ▸ init₁) (same₂ ▸ init₂)
      settled := by
        intro none_
        refine settled (fun g at_ => none_ c g (by rw [Concurrent.flight_put_self, at_])) ?_
        intro c' f' other there
        exact none_ c' f' (by rw [Concurrent.flight_put_other other, there])
      sound := by
        intro c' f' there
        by_cases same : c' = c
        · subst same
          rw [Concurrent.flight_put_self] at there
          exact (mine f' there).2
        · rw [Concurrent.flight_put_other same] at there
          exact others c' f' same there }

theorem Concurrent.Inv.alone_init (inv : s.Inv D) (here : s.flight c = some f)
    (init : f.req.isInit = true) (c' : Nat) (f' : Flight) (other : c' ≠ c)
    (there : s.flight c' = some f') : f'.req.isInit = false := by
  rw [← Bool.not_eq_true]
  exact fun init' => other (inv.alone c' c f' f there here init' init)

theorem Concurrent.Inv.put_tables {next : Option Flight} (inv : s.Inv D)
    (here : s.flight c = some f) (same : w.tables = s.world.tables)
    (other : f.req.isInit = false)
    (mine : ∀ g, next = some g → g.req = f.req ∧ g.Sound D w.tables) :
    (s.put w c next).Inv D := by
  refine inv.put here (fun c' f' _ there => same ▸ inv.sound c' f' there) mine ?_
  intro _ none_
  rw [same]
  refine inv.settled fun c' f' there => ?_
  by_cases mover : c' = c
  · subst mover
    obtain rfl : f = f' := Option.some.inj (here.symm.trans there)
    exact other
  · exact none_ c' f' mover there

theorem Concurrent.Inv.moves {next : ClientPc} (inv : s.Inv D) (here : s.flight c = some f)
    (moves : f.Moves D s.world w next) : (s.put w c (f.after next)).Inv D := by
  cases moves with
  | load same valid at_ | pass same more passed | found same more passed held mine =>
      refine inv.put_tables here rfl (by rw [same]; rfl) ?_
      rintro g ⟨⟩
      first
        | exact ⟨rfl, same, valid⟩
        | exact ⟨rfl, same, more, passed⟩
        | exact ⟨rfl, _, _, same, more, passed, held, mine⟩
  | store same | ignore same | drive same | absent same =>
      exact inv.put_tables here rfl (by rw [same]; rfl) (by rintro g ⟨⟩)
  | update found same =>
      have below : _ < s.world.tables.pwmPinCount := (find_inside found).1
      refine inv.put here (fun c' f' _ there =>
        (inv.sound c' f' there).withDuty (find_inside found).2 _ below) (by rintro g ⟨⟩) ?_
      intro _ none_
      have settled : s.world.tables.Settled := by
        refine inv.settled fun c' f' there => ?_
        by_cases mover : c' = c
        · subst mover
          obtain rfl : f = f' := Option.some.inj (here.symm.trans there)
          rw [same]
          rfl
        · exact none_ c' f' mover there
      exact settled.setDuty (find_inside found).2 _
  | opens same opening run last more opening' keeps =>
      have alone := inv.alone_init here (by rw [same]; rfl)
      refine inv.put here (fun c' f' other there =>
        (inv.sound c' f' there).later (later_exec run) (alone c' f' other there)) ?_ ?_
      · rintro g ⟨⟩
        exact ⟨rfl, same, rfl, more, opening', keeps⟩
      · intro init
        have := init _ rfl
        rw [same] at this
        cases this
  | counts same created room held settled =>
      have alone := inv.alone_init here (by rw [same]; rfl)
      refine inv.put here (fun c' f' other there =>
        (inv.sound c' f' there).later ⟨Nat.le_succ _, fun _ _ => rfl⟩ (alone c' f' other there))
        (by rintro g ⟨⟩) (fun _ _ => settled)
  | breaks same failed room run last settled =>
      have alone := inv.alone_init here (by rw [same]; rfl)
      exact inv.put here (fun c' f' other there =>
        (inv.sound c' f' there).later (later_exec run) (alone c' f' other there))
        (by rintro g ⟨⟩) (fun _ _ => settled)

theorem Concurrent.Inv.placed {k : Nat} {t : Task} (inv : s.Inv D)
    (here : s.world.tasks[k]? = some t) : s.world.tables.Placed k t.owner := by
  have owner : s.world.tables.owners[k]? = some t.owner := by simp [World.tables, here]
  by_cases init : ∃ c f, s.flight c = some f ∧ f.req.isInit = true
  · obtain ⟨c, f, flies, init⟩ := init
    obtain ⟨args, outcome, todo, -, -, opening, -⟩ := (inv.sound c f flies).opening init
    exact opening.placed owner
  · refine (inv.settled fun c f flies => ?_).placed owner
    rw [← Bool.not_eq_true]
    exact fun flag => init ⟨c, f, flies, flag⟩

theorem Concurrent.Inv.world (inv : s.Inv D) (same : w.tables = s.world.tables) :
    Concurrent.Inv D { s with world := w } where
  alone := inv.alone
  settled := fun none_ => same ▸ inv.settled none_
  sound := fun c f here => same ▸ inv.sound c f here

theorem Concurrent.Inv.enter {req : Request} (inv : s.Inv D) (idle : s.flight c = none)
    (one : OneInit s (.enter c req outcome)) :
    (s.put s.world c (some ⟨req, outcome, .before (.start D outcome req)⟩)).Inv D := by
  have old : ∀ c' f', c' ≠ c →
      (s.put s.world c (some ⟨req, outcome, .before (.start D outcome req)⟩)).flight c' = some f' →
        s.flight c' = some f' := by
    intro c' f' other there
    rwa [Concurrent.flight_put_other other] at there
  have new : ∀ f', (s.put s.world c
      (some ⟨req, outcome, .before (.start D outcome req)⟩)).flight c = some f' →
        f' = ⟨req, outcome, .before (.start D outcome req)⟩ := by
    intro f' there
    rw [Concurrent.flight_put_self] at there
    exact (Option.some.inj there).symm
  have only : req.isInit = true → ∀ c' f', s.flight c' = some f' → f'.req.isInit = false := by
    intro init
    cases req with
    | pwmInit => exact one.2
    | pinSet | gpioSet | pwmSet => cases init
  exact
    { alone := by
        intro c₁ c₂ f₁ f₂ here₁ here₂ init₁ init₂
        by_contra differ
        by_cases first : c₁ = c
        · subst first
          obtain rfl := new f₁ here₁
          have clash := only init₁ c₂ f₂ (old c₂ f₂ (Ne.symm differ) here₂)
          simp [init₂] at clash
        · by_cases second : c₂ = c
          · subst second
            obtain rfl := new f₂ here₂
            have clash := only init₂ c₁ f₁ (old c₁ f₁ first here₁)
            simp [init₁] at clash
          · exact differ (inv.alone c₁ c₂ f₁ f₂ (old c₁ f₁ first here₁) (old c₂ f₂ second here₂)
              init₁ init₂)
      settled := by
        intro none_
        refine inv.settled fun c' f' there => ?_
        have other : c' ≠ c := by
          rintro rfl
          rw [idle] at there
          cases there
        exact none_ c' f' (by rw [Concurrent.flight_put_other other, there])
      sound := by
        intro c' f' there
        by_cases same : c' = c
        · subst same
          obtain rfl := new f' there
          cases req with
          | pinSet | gpioSet => rfl
          | pwmSet pin duty =>
              exact ⟨rfl, Nat.zero_le _, fun j below => absurd below (Nat.not_lt_zero j)⟩
          | pwmInit args =>
              have settled := inv.settled one.2
              have code : .setDuty D.creationDuty ∈ D.initCode := by cases D <;> decide
              exact ⟨rfl, rfl, by cases D <;> simp [Driver.initCode],
                settled.opening one.1 args outcome, fun _ => trivial,
                fun absent => absurd code absent⟩
        · exact inv.sound c' f' (old c' f' same there) }

theorem pwmTask_words {k : Nat} {swap : Bool} {tr : List Event}
    (taken : D.pwmTask w k swap = some (.ok tr w')) : w'.gpio.words = w.gpio.words := by
  obtain ⟨t, here, -, going⟩ := Driver.pwmTask_some taken
  by_cases inside : t.pos < maxPwmNum
  · obtain ⟨pc, raw, level, -, same⟩ := Driver.pwmTask_move here inside taken
    cases same
    cases level <;> rfl
  · -- outside the tables only the steps that read no slot come to an end
    cases at_ : t.pc with
    | loopHead =>
        rw [Driver.pwmTask_loopHead here at_] at taken
        cases taken
        rfl
    | eval phase args =>
        by_cases short : args.length < D.sleepArity
        · simp [Driver.pwmTask, here, at_, short, World.slot_full inside] at taken
        · rw [Driver.pwmTask_sleep here at_ short] at taken
          cases taken
          rfl
    | asleep => simp [Driver.pwmTask_asleep here at_] at taken
    | returned => exact absurd at_ going
    | entry | set | clr => simp [Driver.pwmTask, here, at_, World.slot_full inside] at taken

/-- Everything a step can do in a state of the invariant. -/
inductive Concurrent.Step (D : Driver) (s : Concurrent) :
    Turn → List Occurrence → Concurrent → Prop where
  | enter {client req outcome} : s.flight client = none →
      Step D s (.enter client req outcome) [.entered client req]
        (s.put s.world client (some ⟨req, outcome, .before (.start D outcome req)⟩))
  | statement {client flight w next} {raw : List Event} : s.flight client = some flight →
      flight.Moves D s.world w next → (∀ e ∈ raw, e.InBounds) →
      Step D s (.statement client) (raw.map .event ++ flight.answered client next)
        (s.put w client (flight.after next))
  | task {k swap w} {raw : List Event} : w.tables = s.world.tables →
      w.gpio.words = s.world.gpio.words → (∀ e ∈ raw, e.InBounds) →
      Step D s (.task k swap) (raw.map .event) { s with world := w }

theorem Concurrent.Inv.taken {turn : Turn} {x : Traced Occurrence Fault Concurrent}
    (inv : s.Inv D) (taken : s.step D turn = some x) :
    ∃ tr s', x = .ok tr s' ∧ Concurrent.Step D s turn tr s' := by
  cases Concurrent.step_taken taken with
  | enter idle => exact ⟨_, _, rfl, .enter idle⟩
  | @statement c f here =>
      obtain ⟨raw, w, next, run, bounds, moves⟩ :=
        (inv.sound c f here).moves inv.established.bound
      exact ⟨_, _, Concurrent.advance_ok run, .statement here moves bounds⟩
  | @task k swap y stepped =>
      obtain ⟨t, here, -⟩ := Driver.pwmTask_some stepped
      have placed := inv.placed here
      have pos : t.pos = k := placed.pos
      have inside : t.pos < maxPwmNum := pos ▸ placed.inside
      obtain ⟨raw, w, rfl, bounds, tables⟩ := pwmTask_keeps here inside stepped
      exact ⟨raw.map .event, _, by simp, .task tables (pwmTask_words stepped) bounds⟩

theorem Concurrent.Inv.taken_ok {turn : Turn} {tr : List Occurrence} (inv : s.Inv D)
    (taken : s.step D turn = some (.ok tr s')) : Concurrent.Step D s turn tr s' := by
  obtain ⟨_, _, same, step⟩ := inv.taken taken
  cases same
  exact step

theorem Concurrent.Step.inBounds {turn : Turn} {tr : List Occurrence}
    (step : Concurrent.Step D s turn tr s') : ∀ e, .event e ∈ tr → e.InBounds := by
  cases step with
  | enter => simp
  | @statement c f w next raw here moves bounds =>
      intro e member
      rcases List.mem_append.mp member with early | last
      · exact bounds e (by simpa using early)
      · unfold Flight.answered at last
        split at last <;> simp at last
  | task tables words bounds => simpa using bounds

theorem Concurrent.Inv.next {turn : Turn} {tr : List Occurrence} (inv : s.Inv D)
    (one : OneInit s turn) (step : Concurrent.Step D s turn tr s') : s'.Inv D := by
  cases step with
  | enter idle => exact inv.enter idle one
  | statement here moves => exact inv.moves here moves
  | task tables => exact inv.world tables

/-! ## Runs -/

theorem Concurrent.inv_of_reaches {gpio : Gpio} {turns : List Turn} {tr : List Occurrence}
    (reach : D.concurrent.Reaches (.load gpio) turns tr s)
    (one : D.concurrent.Guarded OneInit (.load gpio) turns) : s.Inv D :=
  reach.guarded_invariant one (Concurrent.load_inv D gpio)
    (fun inv one taken => inv.next one (inv.taken_ok taken))

theorem oneInit_first {gpio : Gpio} {args : InitArgs} {turns : List Turn}
    (only : ∀ c args outcome, .enter c (.pwmInit args) outcome ∉ turns) :
    D.concurrent.Guarded OneInit (.load gpio) (.enter c (.pwmInit args) outcome :: turns) := by
  refine ⟨⟨Nat.succ_pos 4, nofun⟩, fun _ _ _ => .of_forall fun turn member s => ?_⟩
  cases turn with
  | statement | task => trivial
  | enter c req outcome =>
      cases req with
      | pinSet | gpioSet | pwmSet => trivial
      | pwmInit args => exact absurd member (only c args outcome)

/-- Any number of clients may have requests in flight at once, as long as at most one of them
    is a `PWM_INIT`, issued while a slot is free: no step goes wrong, every subscript stays in
    its table, every channel keeps its own thread, and a task that runs finds in its slot the
    pin, minimum and maximum of the request that created it. -/
theorem overlapping_requests_safe (D : Driver) (gpio : Gpio) (turns : List Turn)
    (one : D.concurrent.Guarded OneInit (.load gpio) turns) :
    (∀ x, D.concurrent.run (.load gpio) turns = some x → ∃ tr s, x = .ok tr s) ∧
    ∀ tr s, D.concurrent.Reaches (.load gpio) turns tr s →
      (∀ e, .event e ∈ tr → e.InBounds) ∧ s.world.pwmPinCount ≤ maxPwmNum ∧
      (∀ i < s.world.pwmPinCount, s.world.taskTable[i]? = some (.thread i)) ∧
      ∀ k swap x, D.concurrent.step s (.task k swap) = some x →
        ∃ t slot, s.world.tasks[k]? = some t ∧ t.pos = k ∧ s.world.dutyArray[k]? = some slot ∧
          slot.pin = t.creator.pin ∧ slot.min = t.creator.min ∧ slot.max = t.creator.max := by
  refine ⟨fun x run => ?_, fun tr s reach => ?_⟩
  · refine one.run_ok (I := Concurrent.Inv D) (Concurrent.load_inv D gpio) ?_ run
    intro s turn x inv one taken
    obtain ⟨tr, s', rfl, step⟩ := inv.taken taken
    exact ⟨tr, s', rfl, inv.next one step⟩
  · have inv := Concurrent.inv_of_reaches reach one
    refine ⟨?_, inv.established.bound, fun i below => inv.established.thread below, ?_⟩
    · refine (reach.guarded_induction (Q := fun tr s => (∀ e, .event e ∈ tr → e.InBounds) ∧
        s.Inv D) one ⟨by simp, Concurrent.load_inv D gpio⟩ ?_).1
      rintro tr s turn tr' s' ⟨bounds, inv⟩ one taken
      have step := inv.taken_ok taken
      refine ⟨fun e member => ?_, inv.next one step⟩
      rcases List.mem_append.mp member with before | now
      · exact bounds e before
      · exact step.inBounds e now
    · intro k swap x taken
      obtain ⟨y, stepped, -⟩ := Option.map_eq_some_iff.mp taken
      obtain ⟨t, here, awake, -⟩ := Driver.pwmTask_some stepped
      have placed := inv.placed here
      obtain ⟨slot, held, pin, min, max⟩ := placed.serves (bne_iff_ne.mpr awake)
      exact ⟨t, slot, here, placed.pos, held, pin, min, max⟩

def twoUpdates : List Turn :=
  .enter 0 (.pwmInit ⟨16, 0, 100⟩) .created :: (.enter 1 (.pwmSet 16 40) .created ::
    List.replicate 7 (.statement 0) ++ [.statement 1, .enter 2 (.pwmSet 16 60) .created,
      .statement 2, .statement 2, .statement 1])

/-- The task is about to run. -/
theorem overlapping_requests_safe_updates :
    ∃ tr s, Driver.xenoPWM.concurrent.Reaches (.load .reset) twoUpdates tr s ∧
      (Driver.xenoPWM.concurrent.step s (.task 0 false)).isSome ∧
      s.world.channels = [⟨16, 40, 0, 100⟩] ∧
      ∃ t slot, s.world.tasks[0]? = some t ∧ s.world.dutyArray[0]? = some slot ∧
        slot.pin = t.creator.pin := by
  obtain ⟨tr, s, reach, test⟩ := Machine.exists_reaches Driver.xenoPWM.concurrent (.load .reset)
    twoUpdates (fun _ s => decide ((Driver.xenoPWM.concurrent.step s (.task 0 false)).isSome = true ∧
      s.world.channels = [⟨16, 40, 0, 100⟩])) (by decide)
  obtain ⟨enabled, duty⟩ := of_decide_eq_true test
  obtain ⟨x, taken⟩ := Option.isSome_iff_exists.mp enabled
  obtain ⟨-, -, -, runs⟩ := (overlapping_requests_safe .xenoPWM .reset twoUpdates
    (oneInit_first (by simp))).2 tr s reach
  obtain ⟨t, slot, here, -, held, pin, -⟩ := runs 0 false x taken
  exact ⟨tr, s, reach, enabled, duty, t, slot, here, held, pin⟩

end KsoftPWM
