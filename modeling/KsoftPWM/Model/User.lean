import KsoftPWM.Model.Ioctl

/-! # From the user library to the handlers

`pinMode`, `digitalWrite`, `softPwmCreate` and `softPwmWrite` put their arguments into
an array on the stack and hand its address to `ioctl` together with a command word.
The word is laid out by the macros of `asm-generic/ioctl.h` for 32-bit ARM.  softPWM
looks at the fields of the word and at the address before its switch, xenoPWM enters
its switch at once.

`RTDM_CLASS_EXPERIMENTAL` comes from the Xenomai headers; it is a parameter here.
-/

namespace KsoftPWM

def ioc (dir type nr size : BitVec 32) : BitVec 32 :=
  dir <<< 30 ||| type <<< 8 ||| nr <<< 0 ||| size <<< 16

def iocDir (cmd : BitVec 32) : BitVec 32 := cmd >>> 30 &&& 3

def iocType (cmd : BitVec 32) : BitVec 32 := cmd >>> 8 &&& 0xFF

def iocNr (cmd : BitVec 32) : BitVec 32 := cmd >>> 0 &&& 0xFF

def iocSize (cmd : BitVec 32) : BitVec 32 := cmd >>> 16 &&& 0x3FFF

def iocWrite : BitVec 32 := 1

def iocRead : BitVec 32 := 2

/-- `_IOW(type, nr, int *)`; a pointer has four bytes. -/
def iow (type nr : BitVec 32) : BitVec 32 := ioc iocWrite type nr 4

inductive Command where
  | pinSet
  | gpioSet
  | pwmInit
  | pwmSet
  deriving Repr, DecidableEq

def Command.nr : Command → BitVec 32
  | pinSet => 0
  | gpioSet => 1
  | pwmInit => 2
  | pwmSet => 3

def pwmMagicNum : BitVec 32 := 0xF1

/-- `PWM_MAGIC_NUM` of softPWM and `RTDM_CLASS_EXPERIMENTAL` of xenoPWM. -/
def Driver.magic (rtdmClass : BitVec 8) : Driver → BitVec 32
  | .softPWM => pwmMagicNum
  | .xenoPWM => rtdmClass.setWidth 32

/-- `PIN_SET`, `GPIO_SET`, `PWM_INIT` and `PWM_SET`, the same in the driver and in its user
    library. -/
def Driver.word (D : Driver) (rtdmClass : BitVec 8) (command : Command) : BitVec 32 :=
  iow (D.magic rtdmClass) command.nr

/-- The label of the switch that a command word jumps to. -/
def Driver.switch (D : Driver) (rtdmClass : BitVec 8) (cmd : BitVec 32) : Option Command :=
  [.pinSet, .gpioSet, .pwmInit, .pwmSet].find? fun command => D.word rtdmClass command = cmd

def enotty : Errno := ⟨25, by decide, by decide⟩

def efault : Errno := ⟨14, by decide, by decide⟩

/-- The process that calls: its memory, as words at byte addresses, and its address
    limit. -/
structure Caller where
  mem : BitVec 32 → Int32
  limit : Nat

def Caller.accessOk (caller : Caller) (addr size : BitVec 32) : Bool :=
  addr.toNat + size.toNat ≤ caller.limit

/-- The arguments a label of the switch reads through `tmp = (int *)arg`. -/
def Command.request (caller : Caller) (arg : BitVec 32) : Command → Request
  | pinSet => .pinSet (caller.mem arg) (caller.mem (arg + 4))
  | gpioSet => .gpioSet (caller.mem arg) (caller.mem (arg + 4))
  | pwmInit => .pwmInit ⟨caller.mem arg, caller.mem (arg + 4), caller.mem (arg + 8)⟩
  | pwmSet => .pwmSet (caller.mem arg) (caller.mem (arg + 4))

/-- The switch; a word that is no label leaves `err` at zero. -/
def Driver.dispatch (D : Driver) (rtdmClass : BitVec 8) (caller : Caller) (cmd arg : BitVec 32)
    (outcome : CreateOutcome) (w : World) : Kernel (World × Int) :=
  match D.switch rtdmClass cmd with
  | none => pure (w, 0)
  | some command => D.ioctl outcome w (command.request caller arg)

def pwmIoctl (rtdmClass : BitVec 8) (caller : Caller) (cmd arg : BitVec 32)
    (outcome : CreateOutcome) (w : World) : Kernel (World × Int) :=
  if iocType cmd ≠ pwmMagicNum then pure (w, enotty.value)
  else if iocNr cmd > 4 then pure (w, enotty.value)
  else
    let err :=
      if iocDir cmd &&& iocRead ≠ 0 then !caller.accessOk arg (iocSize cmd)
      else if iocDir cmd &&& iocWrite ≠ 0 then !caller.accessOk arg (iocSize cmd)
      else false
    if err then pure (w, efault.value)
    else Driver.softPWM.dispatch rtdmClass caller cmd arg outcome w

def xenoPwmIoctl (rtdmClass : BitVec 8) (caller : Caller) (cmd arg : BitVec 32)
    (outcome : CreateOutcome) (w : World) : Kernel (World × Int) :=
  Driver.xenoPWM.dispatch rtdmClass caller cmd arg outcome w

def Driver.entry : Driver → (rtdmClass : BitVec 8) → Caller → (cmd arg : BitVec 32) →
    CreateOutcome → World → Kernel (World × Int)
  | .softPWM => pwmIoctl
  | .xenoPWM => xenoPwmIoctl

inductive UserCall where
  | pinMode (pin type : Int32)
  | digitalWrite (pin status : Int32)
  | softPwmCreate (pin min max : Int32)
  | softPwmWrite (pin dutyCycle : Int32)
  deriving Repr, DecidableEq

namespace UserCall

def command : UserCall → Command
  | pinMode .. => .pinSet
  | digitalWrite .. => .gpioSet
  | softPwmCreate .. => .pwmInit
  | softPwmWrite .. => .pwmSet

def tmp : UserCall → List Int32
  | pinMode pin type => [pin, type]
  | digitalWrite pin status => [pin, status]
  | softPwmCreate pin min max => [pin, min, max]
  | softPwmWrite pin dutyCycle => [pin, dutyCycle]

end UserCall

def storeWords (mem : BitVec 32 → Int32) (addr : BitVec 32) : List Int32 → BitVec 32 → Int32
  | [] => mem
  | word :: words => storeWords (Function.update mem addr word) (addr + 4) words

/-- Run a library function whose array is at `frame`: fill the array and call `ioctl`.
    The value is what the driver returns, which the library only compares with zero. -/
def UserCall.invoke (D : Driver) (rtdmClass : BitVec 8) (caller : Caller) (frame : BitVec 32)
    (outcome : CreateOutcome) (w : World) (call : UserCall) : Kernel (World × Int) :=
  D.entry rtdmClass { caller with mem := storeWords caller.mem frame call.tmp }
    (D.word rtdmClass call.command) frame outcome w

def UserCall.request : UserCall → Request
  | pinMode pin type => .pinSet pin type
  | digitalWrite pin status => .gpioSet pin status
  | softPwmCreate pin min max => .pwmInit ⟨pin, min, max⟩
  | softPwmWrite pin dutyCycle => .pwmSet pin dutyCycle

theorem iocNr_iow (type nr : BitVec 32) : iocNr (iow type nr) = nr &&& 0xFF#32 := by
  have mask : ∀ i < 32, (0xFF#32).getLsbD i = decide (i < 8) := by decide
  have above : ∀ i < 8, (iocWrite <<< 30).getLsbD i = false ∧
      ((4 : BitVec 32) <<< 16).getLsbD i = false := by
    decide
  apply BitVec.eq_of_getLsbD_eq
  intro i inside
  rw [iocNr, iow, ioc, BitVec.getLsbD_and, BitVec.getLsbD_and, BitVec.ushiftRight_zero]
  change (_ && (0xFF#32).getLsbD i) = _
  rw [mask i inside]
  by_cases low : i < 8
  · simp only [BitVec.getLsbD_or, above i low]
    simp [low]
  · simp [low]

theorem word_injective (D : Driver) (rtdmClass : BitVec 8) {command command' : Command}
    (same : D.word rtdmClass command = D.word rtdmClass command') : command = command' := by
  have nr := congrArg iocNr same
  rw [Driver.word, Driver.word, iocNr_iow, iocNr_iow] at nr
  revert nr
  cases command <;> cases command' <;> decide

theorem switch_word (D : Driver) (rtdmClass : BitVec 8) (command : Command) :
    D.switch rtdmClass (D.word rtdmClass command) = some command := by
  have label : ∀ c, decide (D.word rtdmClass c = D.word rtdmClass command) =
      decide (c = command) := by
    intro c
    rw [decide_eq_decide]
    exact ⟨word_injective D rtdmClass, congrArg _⟩
  simp only [Driver.switch, label]
  cases command <;> rfl

theorem pwmIoctl_word (rtdmClass : BitVec 8) (caller : Caller) (frame : BitVec 32)
    (inside : frame.toNat + 4 ≤ caller.limit) (outcome : CreateOutcome) (w : World)
    (command : Command) :
    pwmIoctl rtdmClass caller (Driver.softPWM.word rtdmClass command) frame outcome w =
      Driver.softPWM.dispatch rtdmClass caller (Driver.softPWM.word rtdmClass command) frame
        outcome w := by
  have word : Driver.softPWM.word rtdmClass command = iow pwmMagicNum command.nr := rfl
  have type : iocType (iow pwmMagicNum command.nr) = pwmMagicNum := by
    cases command <;> decide
  have nr : ¬ iocNr (iow pwmMagicNum command.nr) > 4 := by
    cases command <;> decide
  have size : iocSize (iow pwmMagicNum command.nr) = 4 := by
    cases command <;> decide
  have ok : caller.accessOk frame 4 = true := by
    simpa [Caller.accessOk] using inside
  simp only [pwmIoctl, word, type, ne_eq, not_true_eq_false, nr, ↓reduceIte, size, ok,
    Bool.not_true, ite_self, Bool.false_eq_true]

theorem entry_word (D : Driver) (rtdmClass : BitVec 8) (caller : Caller) (frame : BitVec 32)
    (inside : frame.toNat + 4 ≤ caller.limit) (outcome : CreateOutcome) (w : World)
    (command : Command) :
    D.entry rtdmClass caller (D.word rtdmClass command) frame outcome w =
      D.ioctl outcome w (command.request caller frame) := by
  have dispatched : D.dispatch rtdmClass caller (D.word rtdmClass command) frame outcome w =
      D.ioctl outcome w (command.request caller frame) := by
    rw [Driver.dispatch, switch_word]
  cases D with
  | xenoPWM => exact dispatched
  | softPWM => exact (pwmIoctl_word rtdmClass caller frame inside outcome w command).trans dispatched

theorem storeWords_tmp (mem : BitVec 32 → Int32) (frame : BitVec 32) (call : UserCall)
    (limit : Nat) :
    call.command.request ⟨storeWords mem frame call.tmp, limit⟩ frame = call.request := by
  have step : frame + 4#32 + 4#32 = frame + 8#32 := by
    rw [BitVec.add_assoc]
    rfl
  cases call with
  | softPwmCreate pin min max =>
      have beyond : frame ≠ frame + 8#32 := by simp
      simp [UserCall.command, UserCall.tmp, UserCall.request, Command.request, storeWords, step,
        beyond]
  | pinMode | digitalWrite | softPwmWrite =>
      simp [UserCall.command, UserCall.tmp, UserCall.request, Command.request, storeWords]

/-- A library call whose array lies in the caller's memory delivers its request. -/
theorem invoke_eq (D : Driver) (rtdmClass : BitVec 8) (caller : Caller) (frame : BitVec 32)
    (inside : frame.toNat + 4 ≤ caller.limit) (outcome : CreateOutcome) (w : World)
    (call : UserCall) :
    call.invoke D rtdmClass caller frame outcome w = D.ioctl outcome w call.request := by
  have stored := storeWords_tmp caller.mem frame call caller.limit
  have served := entry_word D rtdmClass ⟨storeWords caller.mem frame call.tmp, caller.limit⟩ frame
    inside outcome w call.command
  rw [UserCall.invoke, served, stored]

end KsoftPWM
