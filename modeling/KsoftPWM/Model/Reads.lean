import KsoftPWM.Model.User

/-! # The loads of `pwm_ioctl` from the caller's memory

After `tmp = (int *)arg` the branches of the switch read `tmp[0]`, `tmp[1]` and `tmp[2]`
straight from the caller's memory, as they need them.  Here the handler of softPWM is written
with these loads as events of their own, each where the source has it; without them it is
`pwmIoctl`.
-/

namespace KsoftPWM

/-- A load from the caller's memory, or something done in the kernel. -/
inductive UserEvent where
  | read (addr : BitVec 32)
  | kernel (event : Event)
  deriving Repr, DecidableEq

def UserEvent.own : UserEvent → Option Event
  | read _ => none
  | kernel event => some event

abbrev Handling (α : Type) := Traced UserEvent Fault α

def inKernel {α : Type} (x : Kernel α) : Handling α := x.tag .kernel

def tmpAddr (arg : BitVec 32) (k : Nat) : BitVec 32 := arg + BitVec.ofNat 32 (4 * k)

def Caller.tmp (caller : Caller) (arg : BitVec 32) (k : Nat) : Handling Int32 :=
  .ok [.read (tmpAddr arg k)] (caller.mem (tmpAddr arg k))

/-- The branches of `PIN_SET` and `GPIO_SET`: `tmp[1]` is tested against 0 and 1, and `tmp[0]`
    only read if it is one of them. -/
def readOnPin (zero one : Int32 → Gpio → Traced Access Fault Gpio) (caller : Caller)
    (arg : BitVec 32) (w : World) : Handling World := do
  let refused ←
    if (← caller.tmp arg 1) ≠ 0 then do
      let code ← caller.tmp arg 1
      pure (decide (code ≠ 1))
    else pure false
  if refused then pure w
  else do
    let code ← caller.tmp arg 1
    let pin ← caller.tmp arg 0
    inKernel (w.onGpio pin (if code = 0 then zero else one))

/-- The words of `tmp` that a statement of `PWM_INIT` assigns from. -/
def Stmt.words : Stmt → List Nat
  | .setPin => [0]
  | .setMin => [1]
  | .setMax => [2]
  | _ => []

def readInit (arg : BitVec 32) (args : InitArgs) (outcome : CreateOutcome) :
    List Stmt → World → Handling (World × Int)
  | [], w => pure (w, 0)
  | stmt :: rest, w => do
      Traced.ok (stmt.words.map fun k => .read (tmpAddr arg k)) ()
      match ← inKernel (stmt.exec args outcome w) with
      | (w', some err) => pure (w', err)
      | (w', none) => readInit arg args outcome rest w'

/-- The search loop of `PWM_SET`, which reads `tmp[0]` again for every slot. -/
def readFindPin (caller : Caller) (arg : BitVec 32) (w : World) : Nat → Nat → Handling (Option Nat)
  | 0, _ => pure none
  | n + 1, i => do
      let slot ← inKernel (w.slot i)
      let pin ← caller.tmp arg 0
      if slot.pin = pin then pure (some i) else readFindPin caller arg w n (i + 1)

def readPwmSet (caller : Caller) (arg : BitVec 32) (w : World) : Handling World := do
  match ← readFindPin caller arg w w.pwmPinCount 0 with
  | none => pure w
  | some pos => do
      let duty ← caller.tmp arg 1
      inKernel (w.setSlot pos fun slot => { slot with dutyCycle := duty })

def Command.branch (caller : Caller) (arg : BitVec 32) (outcome : CreateOutcome) (w : World) :
    Command → Handling (World × Int)
  | pinSet => do
      let w' ← readOnPin gpioInput gpioOutput caller arg w
      pure (w', 0)
  | gpioSet => do
      let w' ← readOnPin gpioClr KsoftPWM.gpioSet caller arg w
      pure (w', 0)
  | pwmInit =>
      readInit arg ⟨caller.mem (tmpAddr arg 0), caller.mem (tmpAddr arg 1),
        caller.mem (tmpAddr arg 2)⟩ outcome Driver.softPWM.initCode w
  | pwmSet => do
      let w' ← readPwmSet caller arg w
      pure (w', 0)

/-- `pwm_ioctl` with its loads. -/
def readIoctl (rtdmClass : BitVec 8) (caller : Caller) (cmd arg : BitVec 32)
    (outcome : CreateOutcome) (w : World) : Handling (World × Int) :=
  if iocType cmd ≠ pwmMagicNum then pure (w, enotty.value)
  else if iocNr cmd > 4 then pure (w, enotty.value)
  else
    let err :=
      if iocDir cmd &&& iocRead ≠ 0 then !caller.accessOk arg (iocSize cmd)
      else if iocDir cmd &&& iocWrite ≠ 0 then !caller.accessOk arg (iocSize cmd)
      else false
    if err then pure (w, efault.value)
    else
      match Driver.softPWM.switch rtdmClass cmd with
      | none => pure (w, 0)
      | some command => command.branch caller arg outcome w

/-! ## Without the loads -/

variable {α : Type} (caller : Caller) (arg : BitVec 32) (outcome : CreateOutcome) (w : World)

@[simp] theorem tmpAddr_zero : tmpAddr arg 0 = arg := by simp [tmpAddr]

theorem tmpAddr_one : tmpAddr arg 1 = arg + 4 := rfl

theorem tmpAddr_two : tmpAddr arg 2 = arg + 8 := rfl

@[simp] theorem keep_inKernel (x : Kernel α) : (inKernel x).keep UserEvent.own = x :=
  Traced.keep_tag (g := UserEvent.kernel) (fun _ => rfl) x

@[simp] theorem keep_read (addr : BitVec 32) (x : Handling α) :
    (x.after [.read addr]).keep UserEvent.own = x.keep UserEvent.own := by
  simp [Traced.keep_after, UserEvent.own, List.filterMap_cons]

theorem readOnPin_own (zero one : Int32 → Gpio → Traced Access Fault Gpio) :
    (readOnPin zero one caller arg w).keep UserEvent.own =
      actOnPin zero one (caller.mem arg) (caller.mem (arg + 4)) w := by
  unfold readOnPin actOnPin
  simp only [Caller.tmp, tmpAddr_zero, tmpAddr_one, Traced.ok_bind, keep_read]
  generalize caller.mem (arg + 4) = code
  by_cases zero : code = 0
  · simp [zero]
  · by_cases one : code = 1
    · simp [one]
    · simp [zero, one, UserEvent.own]

theorem readInit_own (args : InitArgs) (todo : List Stmt) (w : World) :
    (readInit arg args outcome todo w).keep UserEvent.own = runInit args outcome todo w := by
  induction todo generalizing w with
  | nil => rfl
  | cons stmt rest ih =>
      have loads : (stmt.words.map fun k => UserEvent.read (tmpAddr arg k)).filterMap
          UserEvent.own = [] := by
        simp [List.filterMap_map, UserEvent.own]
      rw [readInit, runInit, Traced.ok_bind, Traced.keep_after, loads, Traced.after_nil,
        Traced.keep_bind, keep_inKernel]
      congr 1
      funext ⟨w', brk⟩
      cases brk with
      | none => exact ih w'
      | some err => rfl

theorem readFindPin_own (n i : Nat) :
    (readFindPin caller arg w n i).keep UserEvent.own = findPin (caller.mem arg) w n i := by
  induction n generalizing i with
  | zero => rfl
  | succ n ih =>
      rw [readFindPin, findPin, Traced.keep_bind, keep_inKernel]
      congr 1
      funext slot
      simp only [Caller.tmp, Traced.ok_bind, tmpAddr_zero, keep_read]
      split
      · rfl
      · exact ih (i + 1)

theorem readPwmSet_own :
    (readPwmSet caller arg w).keep UserEvent.own = pwmSet (caller.mem arg) (caller.mem (arg + 4)) w := by
  rw [readPwmSet, pwmSet, Traced.keep_bind, readFindPin_own]
  congr 1
  funext found
  cases found with
  | none => rfl
  | some pos => simp [Caller.tmp, tmpAddr_one]

theorem branch_own (command : Command) :
    (command.branch caller arg outcome w).keep UserEvent.own =
      Driver.softPWM.ioctl outcome w (command.request caller arg) := by
  cases command with
  | pinSet =>
      rw [Command.branch, Traced.keep_bind, readOnPin_own]
      rfl
  | gpioSet =>
      rw [Command.branch, Traced.keep_bind, readOnPin_own]
      rfl
  | pwmInit =>
      rw [Command.branch, readInit_own, tmpAddr_zero, tmpAddr_one, tmpAddr_two]
      rfl
  | pwmSet =>
      rw [Command.branch, Traced.keep_bind, readPwmSet_own]
      rfl

/-- The handler with its loads is the handler. -/
theorem readIoctl_own (rtdmClass : BitVec 8) (cmd : BitVec 32) :
    (readIoctl rtdmClass caller cmd arg outcome w).keep UserEvent.own =
      pwmIoctl rtdmClass caller cmd arg outcome w := by
  have entered : (match Driver.softPWM.switch rtdmClass cmd with
      | none => (pure (w, 0) : Handling (World × Int))
      | some command => command.branch caller arg outcome w).keep UserEvent.own =
      Driver.softPWM.dispatch rtdmClass caller cmd arg outcome w := by
    rw [Driver.dispatch]
    cases Driver.softPWM.switch rtdmClass cmd with
    | none => rfl
    | some command => exact branch_own caller arg outcome w command
  simp only [readIoctl, pwmIoctl, apply_ite (Traced.keep UserEvent.own), entered]
  rfl

end KsoftPWM
