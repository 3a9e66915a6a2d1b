import KsoftPWM.Model.Reads
import KsoftPWM.Model.System

/-! # Loads from memory that changes

Neither handler copies its arguments.  `tmp` points into the caller's memory, and another
thread of the caller may write there while the request is served, so two loads of one word may
differ.  Here both handlers are written with their loads, each where the source has it, and
every load finds the memory of its own moment.

The thread of a `PWM_INIT` records what it was created for.  This is no data of the drivers, and
in softPWM it is recorded before the words are loaded; it is what the loads will give.
-/

namespace KsoftPWM

/-- The process that calls: its memory as the `n`-th load of the handler finds it, and its
    address limit. -/
structure Changing where
  mem : Nat → BitVec 32 → Int32
  limit : Nat

def Changing.now (caller : Changing) (n : Nat) : Caller := ⟨caller.mem n, caller.limit⟩

abbrev Fetching (α : Type) := StateT Nat (Traced UserEvent Fault) α

/-- `tmp[k]` -/
def Changing.tmp (caller : Changing) (arg : BitVec 32) (k : Nat) : Fetching Int32 := fun n => do
  let word ← (caller.now n).tmp arg k
  pure (word, n + 1)

/-- The branches of `PIN_SET` and `GPIO_SET`, with up to three loads of `tmp[1]`. -/
def fetchOnPin (zero one : Int32 → Gpio → Traced Access Fault Gpio) (caller : Changing)
    (arg : BitVec 32) (w : World) : Fetching World := do
  let refused ←
    if (← caller.tmp arg 1) ≠ 0 then do
      let code ← caller.tmp arg 1
      pure (decide (code ≠ 1))
    else pure false
  if refused then pure w
  else do
    let code ← caller.tmp arg 1
    let pin ← caller.tmp arg 0
    inKernel (w.onGpio pin (if code = 0 then zero else one))

/-- The load of a statement of `PWM_INIT`, put where the statement takes it from. -/
def Stmt.fetch (caller : Changing) (arg : BitVec 32) (args : InitArgs) : Stmt → Fetching InitArgs
  | .setPin => do
      let pin ← caller.tmp arg 0
      pure { args with pin := pin }
  | .setMin => do
      let min ← caller.tmp arg 1
      pure { args with min := min }
  | .setMax => do
      let max ← caller.tmp arg 2
      pure { args with max := max }
  | _ => pure args

/-- The branch of `PWM_INIT`. -/
def fetchInit (caller : Changing) (arg : BitVec 32) (outcome : CreateOutcome) :
    List Stmt → InitArgs → World → Fetching (World × Int)
  | [], _, w => pure (w, 0)
  | stmt :: rest, args, w => do
      let args' ← stmt.fetch caller arg args
      match ← (inKernel (stmt.exec args' outcome w) : Handling _) with
      | (w', some err) => pure (w', err)
      | (w', none) => fetchInit caller arg outcome rest args' w'

/-- What the loads of a `PWM_INIT` will give. -/
def Changing.args (caller : Changing) (arg : BitVec 32) : InitArgs :=
  ⟨caller.mem 0 (tmpAddr arg 0), caller.mem 1 (tmpAddr arg 1), caller.mem 2 (tmpAddr arg 2)⟩

/-- The search loop of `PWM_SET`, which loads `tmp[0]` again for every slot. -/
def fetchFindPin (caller : Changing) (arg : BitVec 32) (w : World) :
    Nat → Nat → Fetching (Option Nat)
  | 0, _ => pure none
  | n + 1, i => do
      let slot ← (inKernel (w.slot i) : Handling _)
      let pin ← caller.tmp arg 0
      if slot.pin = pin then pure (some i) else fetchFindPin caller arg w n (i + 1)

def fetchPwmSet (caller : Changing) (arg : BitVec 32) (w : World) : Fetching World := do
  match ← fetchFindPin caller arg w w.pwmPinCount 0 with
  | none => pure w
  | some pos => do
      let duty ← caller.tmp arg 1
      (inKernel (w.setSlot pos fun slot => { slot with dutyCycle := duty }) : Handling _)

def Command.fetch (D : Driver) (caller : Changing) (arg : BitVec 32) (outcome : CreateOutcome)
    (w : World) : Command → Fetching (World × Int)
  | pinSet => do
      let w' ← fetchOnPin gpioInput gpioOutput caller arg w
      pure (w', 0)
  | gpioSet => do
      let w' ← fetchOnPin gpioClr KsoftPWM.gpioSet caller arg w
      pure (w', 0)
  | pwmInit => fetchInit caller arg outcome D.initCode (caller.args arg) w
  | pwmSet => do
      let w' ← fetchPwmSet caller arg w
      pure (w', 0)

def Driver.fetchSwitch (D : Driver) (rtdmClass : BitVec 8) (caller : Changing)
    (cmd arg : BitVec 32) (outcome : CreateOutcome) (w : World) : Fetching (World × Int) :=
  match D.switch rtdmClass cmd with
  | none => pure (w, 0)
  | some command => command.fetch D caller arg outcome w

/-- `pwm_ioctl`, whose checks look at no memory. -/
def fetchPwmIoctl (rtdmClass : BitVec 8) (caller : Changing) (cmd arg : BitVec 32)
    (outcome : CreateOutcome) (w : World) : Fetching (World × Int) :=
  if iocType cmd ≠ pwmMagicNum then pure (w, enotty.value)
  else if iocNr cmd > 4 then pure (w, enotty.value)
  else
    let err :=
      if iocDir cmd &&& iocRead ≠ 0 then !(caller.now 0).accessOk arg (iocSize cmd)
      else if iocDir cmd &&& iocWrite ≠ 0 then !(caller.now 0).accessOk arg (iocSize cmd)
      else false
    if err then pure (w, efault.value)
    else Driver.softPWM.fetchSwitch rtdmClass caller cmd arg outcome w

def fetchXenoPwmIoctl (rtdmClass : BitVec 8) (caller : Changing) (cmd arg : BitVec 32)
    (outcome : CreateOutcome) (w : World) : Fetching (World × Int) :=
  Driver.xenoPWM.fetchSwitch rtdmClass caller cmd arg outcome w

def Driver.fetchEntry (D : Driver) (rtdmClass : BitVec 8) (caller : Changing) (cmd arg : BitVec 32)
    (outcome : CreateOutcome) (w : World) : Handling (World × Int) :=
  match D with
  | .softPWM => (fetchPwmIoctl rtdmClass caller cmd arg outcome w).run' 0
  | .xenoPWM => (fetchXenoPwmIoctl rtdmClass caller cmd arg outcome w).run' 0

/-! ## Calls and tasks

The system of `Driver.serial`, entered through `ioctl`: with memory that changes while a call is
served, and with memory that does not. -/

/-- A call of `ioctl` by a caller of some kind. -/
structure IoctlCall (γ : Type) where
  caller : γ
  cmd : BitVec 32
  arg : BitVec 32
  outcome : CreateOutcome

inductive CallLabel (γ : Type) where
  | ioctl (call : IoctlCall γ)
  | task (k : Nat) (swap : Bool)
  | exit

/-- A step with whole calls, whose events have those of the kernel among them. -/
def Sys.callStep {γ ε : Type} (D : Driver) (kernel : Event → ε)
    (handle : IoctlCall γ → World → Traced ε Fault (World × Int)) (s : Sys) :
    CallLabel γ → Option (Traced (Agent × ε) Fault Sys)
  | .ioctl call =>
      if s.call = none ∧ D.accepts s.exit then
        some (Traced.tag (Agent.client, ·) do
          let (w, err) ← handle call s.world
          Traced.emit (kernel (.ret err))
          pure { s with world := w })
      else none
  | .task k swap => (s.step D (.task k swap)).map (Traced.tag (Prod.map id kernel))
  | .exit => (s.step D .exit).map (Traced.tag (Prod.map id kernel))

def Driver.fetching (D : Driver) (rtdmClass : BitVec 8) :
    Machine Sys (CallLabel Changing) (Agent × UserEvent) Fault :=
  ⟨Sys.callStep D .kernel fun call =>
    D.fetchEntry rtdmClass call.caller call.cmd call.arg call.outcome⟩

def Driver.calling (D : Driver) (rtdmClass : BitVec 8) :
    Machine Sys (CallLabel Caller) (Agent × Event) Fault :=
  ⟨Sys.callStep D id fun call => D.entry rtdmClass call.caller call.cmd call.arg call.outcome⟩

/-! ## What is done in the kernel -/

section
variable {α β : Type} {x : Fetching α} {y : Kernel α} {n : Nat} {caller : Changing}
  {arg : BitVec 32} {outcome : CreateOutcome} {w : World}

namespace Fetching

/-- What a computation of a handler does in the kernel, from the `n`-th load on. -/
def own (x : Fetching α) (n : Nat) : Kernel (α × Nat) := (x.run n).keep UserEvent.own

/-- From the `n`-th load on the computation does what one without loads does. -/
def Does (x : Fetching α) (n : Nat) (y : Kernel α) : Prop :=
  ∃ n', x.own n = y >>= fun a => pure (a, n')

@[simp] theorem own_pure (a : α) (n : Nat) : own (pure a : Fetching α) n = .ok [] (a, n) := rfl

@[simp] theorem own_bind (x : Fetching α) (f : α → Fetching β) (n : Nat) :
    own (x >>= f) n = x.own n >>= fun r => own (f r.1) r.2 := by
  rw [own, StateT.run_bind, Traced.keep_bind]
  rfl

@[simp] theorem own_tmp (k n : Nat) :
    own (caller.tmp arg k) n = .ok [] (caller.mem n (tmpAddr arg k), n + 1) := rfl

@[simp] theorem own_inKernel (x : Kernel α) (n : Nat) :
    own (liftM (inKernel x) : Fetching α) n = x >>= fun a => pure (a, n) := by
  change (inKernel x >>= fun a => pure (a, n)).keep UserEvent.own = _
  rw [Traced.keep_bind, keep_inKernel]
  rfl

theorem Does.map (does : x.Does n y) (f : α → β) :
    Does (x >>= fun a => pure (f a)) n (y >>= fun a => pure (f a)) := by
  obtain ⟨n', same⟩ := does
  refine ⟨n', ?_⟩
  rw [own_bind, same]
  cases y <;> rfl

theorem Does.ite {c : Prop} [Decidable c] {x' : Fetching α} {y' : Kernel α} (yes : x.Does n y)
    (no : x'.Does n y') : Does (if c then x else x') n (if c then y else y') := by
  split
  · exact yes
  · exact no

theorem Does.run (does : x.Does n y) : (x.run' n).keep UserEvent.own = y := by
  obtain ⟨n', same⟩ := does
  change (x.run n >>= fun r => pure r.1).keep UserEvent.own = y
  rw [Traced.keep_bind]
  change (x.own n >>= fun r => pure r.1) = y
  rw [same]
  cases y with
  | ok tr a => exact congrArg (Traced.ok · a) (by simp)
  | fault tr e => rfl

end Fetching

/-- The second half of a pin request: the code is tested once more, against 0 only. -/
theorem fetchOnPin_acts (zero one : Int32 → Gpio → Traced Access Fault Gpio) (caller : Changing)
    (arg : BitVec 32) (w : World) (n : Nat) :
    Fetching.Does (do
        let code ← caller.tmp arg 1
        let pin ← caller.tmp arg 0
        inKernel (w.onGpio pin (if code = 0 then zero else one)) : Fetching World) n
      (actOnPin zero one (caller.mem (n + 1) (tmpAddr arg 0))
        (if caller.mem n (tmpAddr arg 1) = 0 then 0 else 1) w) := by
  refine ⟨n + 2, ?_⟩
  simp only [Fetching.own_bind, Fetching.own_tmp, Traced.ok_bind, Traced.after_nil,
    Fetching.own_inKernel]
  by_cases zero : caller.mem n (tmpAddr arg 1) = 0
  · simp [actOnPin, zero]
  · simp [actOnPin, zero]

theorem fetchOnPin_does (zero one : Int32 → Gpio → Traced Access Fault Gpio) (caller : Changing)
    (arg : BitVec 32) (w : World) :
    (∃ n, (caller.mem 0 (tmpAddr arg 1) = 0 ∨ caller.mem 1 (tmpAddr arg 1) = 1) ∧
      (fetchOnPin zero one caller arg w).Does 0
        (actOnPin zero one (caller.mem (n + 1) (tmpAddr arg 0))
          (if caller.mem n (tmpAddr arg 1) = 0 then 0 else 1) w)) ∨
    caller.mem 0 (tmpAddr arg 1) ≠ 0 ∧ caller.mem 1 (tmpAddr arg 1) ≠ 1 ∧
      (fetchOnPin zero one caller arg w).Does 0 (pure w) := by
  have acts := fetchOnPin_acts zero one caller arg w
  by_cases first : caller.mem 0 (tmpAddr arg 1) = 0
  · obtain ⟨n', same⟩ := acts 1
    exact .inl ⟨1, .inl first, n', by simpa [fetchOnPin, first] using same⟩
  · by_cases second : caller.mem 1 (tmpAddr arg 1) = 1
    · obtain ⟨n', same⟩ := acts 2
      exact .inl ⟨2, .inr second, n', by simpa [fetchOnPin, first, second] using same⟩
    · exact .inr ⟨first, second, 2, by simp [fetchOnPin, first, second]⟩

/-- The loads of the statements to come give the words that are there already. -/
def Foreseen (caller : Changing) (arg : BitVec 32) (args : InitArgs) : List Stmt → Nat → Prop
  | [], _ => True
  | stmt :: rest, n => ∃ n', (stmt.fetch caller arg args).own n = .ok [] (args, n') ∧
      Foreseen caller arg args rest n'

theorem fetchInit_does {args : InitArgs} {todo : List Stmt}
    (foreseen : Foreseen caller arg args todo n) (outcome : CreateOutcome) (w : World) :
    (fetchInit caller arg outcome todo args w).Does n (runInit args outcome todo w) := by
  induction todo generalizing n w with
  | nil => exact ⟨n, rfl⟩
  | cons stmt rest ih =>
      obtain ⟨n', loads, later⟩ := foreseen
      cases run : stmt.exec args outcome w with
      | fault tr why => exact ⟨n, by simp [fetchInit, runInit, loads, run]⟩
      | ok tr r =>
          obtain ⟨w', brk⟩ := r
          cases brk with
          | some err => exact ⟨n', by simp [fetchInit, runInit, loads, run]⟩
          | none =>
              obtain ⟨m, same⟩ := ih later w'
              refine ⟨m, ?_⟩
              simp only [fetchInit, runInit, Fetching.own_bind, loads, Traced.ok_bind,
                Traced.after_nil, Fetching.own_inKernel, run, Traced.after_bind]
              simp [same]

theorem foreseen_initCode (D : Driver) (caller : Changing) (arg : BitVec 32) :
    Foreseen caller arg (caller.args arg) D.initCode 0 := by
  cases D <;> simp [Driver.initCode, Foreseen, Stmt.fetch, Changing.args]

theorem fetchEntry_own {D : Driver} {rtdmClass : BitVec 8} {cmd : BitVec 32}
    {mem : BitVec 32 → Int32}
    (does : (D.fetchSwitch rtdmClass caller cmd arg outcome w).Does 0
      (D.dispatch rtdmClass ⟨mem, caller.limit⟩ cmd arg outcome w)) :
    (D.fetchEntry rtdmClass caller cmd arg outcome w).keep UserEvent.own =
      D.entry rtdmClass ⟨mem, caller.limit⟩ cmd arg outcome w := by
  cases D with
  | xenoPWM => exact does.run
  | softPWM =>
      have checked : (fetchPwmIoctl rtdmClass caller cmd arg outcome w).Does 0
          (pwmIoctl rtdmClass ⟨mem, caller.limit⟩ cmd arg outcome w) :=
        .ite ⟨0, rfl⟩ (.ite ⟨0, rfl⟩ (.ite ⟨0, rfl⟩ does))
      exact checked.run

end

/-! ## Memory that stays -/

section
variable {mem : BitVec 32 → Int32} {limit n : Nat} {arg : BitVec 32} {outcome : CreateOutcome}
  {w : World}

theorem fetchOnPin_still (zero one : Int32 → Gpio → Traced Access Fault Gpio)
    (mem : BitVec 32 → Int32) (limit : Nat) (arg : BitVec 32) (w : World) :
    (fetchOnPin zero one ⟨fun _ => mem, limit⟩ arg w).Does 0
      (actOnPin zero one (mem (tmpAddr arg 0)) (mem (tmpAddr arg 1)) w) := by
  rcases fetchOnPin_does zero one ⟨fun _ => mem, limit⟩ arg w with ⟨n, code, does⟩ | ⟨first, second, does⟩
  · have same : (if mem (tmpAddr arg 1) = 0 then (0 : Int32) else 1) = mem (tmpAddr arg 1) := by
      split
      · rename_i zero
        exact zero.symm
      · rename_i other
        exact (code.resolve_left other).symm
    simpa only [same] using does
  · have refused : actOnPin zero one (mem (tmpAddr arg 0)) (mem (tmpAddr arg 1)) w = pure w :=
      if_pos ⟨first, second⟩
    rwa [refused]

theorem fetchFindPin_still (m i n : Nat) :
    (fetchFindPin ⟨fun _ => mem, limit⟩ arg w m i).Does n (findPin (mem arg) w m i) := by
  induction m generalizing i n with
  | zero => exact ⟨n, rfl⟩
  | succ m ih =>
      by_cases inside : i < maxPwmNum
      · by_cases hit : w.dutyArray[i].pin = mem arg
        · exact ⟨n + 1, by simp [fetchFindPin, findPin, World.slot_eq inside, hit]⟩
        · obtain ⟨n', same⟩ := ih (i + 1) (n + 1)
          exact ⟨n', by simp [fetchFindPin, findPin, World.slot_eq inside, hit, same, Traced.after_bind]⟩
      · exact ⟨n, by simp [fetchFindPin, findPin, World.slot_full inside]⟩

theorem fetchPwmSet_does {caller : Changing} {pin : Int32}
    (search : (fetchFindPin caller arg w w.pwmPinCount 0).Does n (findPin pin w w.pwmPinCount 0)) :
    ∃ n', (fetchPwmSet caller arg w).Does n (pwmSet pin (caller.mem n' (tmpAddr arg 1)) w) := by
  obtain ⟨n', same⟩ := search
  refine ⟨n', ?_⟩
  cases found : findPin pin w w.pwmPinCount 0 with
  | fault tr why => exact ⟨n', by simp [fetchPwmSet, pwmSet, same, found]⟩
  | ok tr r =>
      cases r with
      | none => exact ⟨n', by simp [fetchPwmSet, pwmSet, same, found]⟩
      | some pos => exact ⟨n' + 1, by simp [fetchPwmSet, pwmSet, same, found, Traced.after_bind]⟩

/-- If the memory stays as it is, the handlers with their loads are the handlers. -/
theorem fetchEntry_still (D : Driver) (rtdmClass : BitVec 8) (mem : BitVec 32 → Int32) (limit : Nat)
    (cmd arg : BitVec 32) (outcome : CreateOutcome) (w : World) :
    (D.fetchEntry rtdmClass ⟨fun _ => mem, limit⟩ cmd arg outcome w).keep UserEvent.own =
      D.entry rtdmClass ⟨mem, limit⟩ cmd arg outcome w := by
  refine fetchEntry_own ?_
  unfold Driver.fetchSwitch Driver.dispatch
  cases D.switch rtdmClass cmd with
  | none => exact ⟨0, rfl⟩
  | some command =>
      cases command with
      | pinSet =>
          have does := fetchOnPin_still gpioInput gpioOutput mem limit arg w
          rw [tmpAddr_zero, tmpAddr_one] at does
          exact does.map _
      | gpioSet =>
          have does := fetchOnPin_still gpioClr gpioSet mem limit arg w
          rw [tmpAddr_zero, tmpAddr_one] at does
          exact does.map _
      | pwmInit =>
          have args : Changing.args ⟨fun _ => mem, limit⟩ arg =
              ⟨mem arg, mem (arg + 4), mem (arg + 8)⟩ := by
            rw [Changing.args, tmpAddr_zero, tmpAddr_one, tmpAddr_two]
          have does := fetchInit_does (foreseen_initCode D ⟨fun _ => mem, limit⟩ arg) outcome w
          simp only [Command.fetch, Command.request, Driver.ioctl, ← args]
          exact does
      | pwmSet =>
          obtain ⟨n', does⟩ := fetchPwmSet_does (fetchFindPin_still w.pwmPinCount 0 0)
          exact does.map _

end

end KsoftPWM
