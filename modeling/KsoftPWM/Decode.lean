import KsoftPWM.Model.User
import KsoftPWM.Requests

/-! # Which command words softPWM knows

`pwm_ioctl` looks at the type and the number of a command word before its switch, and
compares whole words in it.  The two do not describe the same set: the bound on the number
is one too high, and the direction and the size are only used for `access_ok`.  A word that
passes the checks and is no label leaves the switch with `err` still zero, which the caller
takes for success.
-/

namespace KsoftPWM

/-- The word is `PIN_SET`, `GPIO_SET`, `PWM_INIT` or `PWM_SET` of `softpwm.h`. -/
def IsCommand (cmd : BitVec 32) : Prop := ∃ command : Command, iow pwmMagicNum command.nr = cmd

/-- The filter before the switch of `pwm_ioctl` turns the word away. -/
def Filtered (cmd : BitVec 32) : Prop := iocType cmd ≠ pwmMagicNum ∨ iocNr cmd > 4

instance : DecidablePred Filtered := fun _ => inferInstanceAs (Decidable (_ ∨ _))

/-- What decoding has to do: a command is served, with whatever result but `-ENOTTY`, and any
    other word gives `-ENOTTY` and leaves everything as it was. -/
def Decodes (cmd : BitVec 32) (w : World) (x : Kernel (World × Int)) : Prop :=
  (IsCommand cmd → ∀ tr w' err, x = .ok tr (w', err) → err ≠ enotty.value) ∧
    (¬ IsCommand cmd → x = .ok [] (w, enotty.value))

/-! ## Fields -/

theorem toNat_field (cmd : BitVec 32) (shift width : Nat) (inside : width < 32) :
    (cmd >>> shift &&& BitVec.ofNat 32 (2 ^ width - 1)).toNat = cmd.toNat / 2 ^ shift % 2 ^ width := by
  have positive := Nat.two_pow_pos width
  have small := Nat.pow_lt_pow_right (a := 2) (by decide) inside
  have mask : (2 ^ width - 1) % 2 ^ 32 = 2 ^ width - 1 := Nat.mod_eq_of_lt (by omega)
  rw [BitVec.toNat_and, BitVec.toNat_ushiftRight, BitVec.toNat_ofNat, mask,
    Nat.and_two_pow_sub_one_eq_mod, Nat.shiftRight_eq_div_pow]

theorem isCommand_iff (cmd : BitVec 32) :
    IsCommand cmd ↔ iocDir cmd = iocWrite ∧ iocType cmd = pwmMagicNum ∧ iocSize cmd = 4 ∧
      iocNr cmd < 4 := by
  constructor
  · rintro ⟨command, rfl⟩
    cases command <;> decide
  · rintro ⟨dir, type, size, nr⟩
    have dirDigit : 1 = cmd.toNat / 2 ^ 30 % 2 ^ 2 :=
      (congrArg BitVec.toNat dir).symm.trans (toNat_field cmd 30 2 (by decide))
    have typeDigit : 0xF1 = cmd.toNat / 2 ^ 8 % 2 ^ 8 :=
      (congrArg BitVec.toNat type).symm.trans (toNat_field cmd 8 8 (by decide))
    have sizeDigit : 4 = cmd.toNat / 2 ^ 16 % 2 ^ 14 :=
      (congrArg BitVec.toNat size).symm.trans (toNat_field cmd 16 14 (by decide))
    have nrDigit : (iocNr cmd).toNat = cmd.toNat / 2 ^ 0 % 2 ^ 8 :=
      toNat_field cmd 0 8 (by decide)
    have below : (iocNr cmd).toNat < 4 := nr
    have bound := cmd.isLt
    -- the digits leave four values
    have value : cmd.toNat = 0x4004F100 ∨ cmd.toNat = 0x4004F101 ∨ cmd.toNat = 0x4004F102 ∨
        cmd.toNat = 0x4004F103 := by
      omega
    rcases value with value | value | value | value
    · exact ⟨.pinSet, BitVec.eq_of_toNat_eq value.symm⟩
    · exact ⟨.gpioSet, BitVec.eq_of_toNat_eq value.symm⟩
    · exact ⟨.pwmInit, BitVec.eq_of_toNat_eq value.symm⟩
    · exact ⟨.pwmSet, BitVec.eq_of_toNat_eq value.symm⟩

instance (cmd : BitVec 32) : Decidable (IsCommand cmd) :=
  decidable_of_iff _ (isCommand_iff cmd).symm

/-! ## The handler -/

theorem switch_eq_none {cmd : BitVec 32} (unknown : ¬ IsCommand cmd) (rtdmClass : BitVec 8) :
    Driver.softPWM.switch rtdmClass cmd = none := by
  rw [Driver.switch, List.find?_eq_none]
  intro command _ label
  exact unknown ⟨command, of_decide_eq_true label⟩

theorem switch_command (rtdmClass : BitVec 8) (command : Command) :
    Driver.softPWM.switch rtdmClass (iow pwmMagicNum command.nr) = some command :=
  switch_word .softPWM rtdmClass command

theorem IsCommand.passes {cmd : BitVec 32} (known : IsCommand cmd) : ¬ Filtered cmd := by
  obtain ⟨command, rfl⟩ := known
  cases command <;> decide

section
variable {rtdmClass : BitVec 8} {caller : Caller} {cmd arg : BitVec 32} {outcome : CreateOutcome}
  {w w' : World} {tr : List Event} {err : Int}

theorem pwmIoctl_filtered (filtered : Filtered cmd) :
    pwmIoctl rtdmClass caller cmd arg outcome w = .ok [] (w, enotty.value) := by
  unfold pwmIoctl
  by_cases type : iocType cmd ≠ pwmMagicNum
  · rw [if_pos type]
    rfl
  · rw [if_neg type, if_pos (filtered.resolve_left type)]
    rfl

theorem pwmIoctl_passed (passed : ¬ Filtered cmd) (rtdmClass : BitVec 8) (caller : Caller)
    (arg : BitVec 32) (outcome : CreateOutcome) (w : World) :
    pwmIoctl rtdmClass caller cmd arg outcome w = .ok [] (w, efault.value) ∨
      pwmIoctl rtdmClass caller cmd arg outcome w =
        Driver.softPWM.dispatch rtdmClass caller cmd arg outcome w := by
  rw [Filtered, not_or] at passed
  unfold pwmIoctl
  rw [if_neg passed.1, if_neg passed.2]
  have check : ∀ (refused : Bool) (rest : Kernel (World × Int)),
      (if refused then pure (w, efault.value) else rest) = .ok [] (w, efault.value) ∨
        (if refused then pure (w, efault.value) else rest) = rest := by
    rintro (_ | _) rest
    · exact .inr rfl
    · exact .inl rfl
  exact check _ _

theorem ioctl_err {D : Driver} {req : Request} (run : D.ioctl outcome w req = .ok tr (w', err)) :
    err = 0 ∨ ∃ why, outcome = .failed why ∧ err = why.value := by
  cases req with
  | pinSet | gpioSet | pwmSet =>
      obtain ⟨_, _, _, -, done, -⟩ := Traced.bind_eq_ok.mp run
      cases done
      exact .inl rfl
  | pwmInit args =>
      obtain ⟨-, ⟨-, -, zero⟩ | ⟨why, failed, -, same⟩⟩ := ioctl_pwmInit run
      · exact .inl zero
      · exact .inr ⟨why, failed, same⟩

theorem Errno.value_injective {e e' : Errno} (same : e.value = e'.value) : e = e' := by
  cases e
  cases e'
  simpa [Errno.value] using same

theorem ioctl_ne_enotty {D : Driver} {req : Request} (other : outcome ≠ .failed enotty)
    (run : D.ioctl outcome w req = .ok tr (w', err)) : err ≠ enotty.value := by
  rintro rfl
  rcases ioctl_err run with zero | ⟨why, rfl, same⟩
  · exact absurd zero (by decide)
  · exact other (congrArg _ (Errno.value_injective same.symm))

/-- A word that passes the filter and is no label gets another answer than `-ENOTTY`. -/
theorem pwmIoctl_unknown (unknown : ¬ IsCommand cmd) (passed : ¬ Filtered cmd) :
    pwmIoctl rtdmClass caller cmd arg outcome w ≠ .ok [] (w, enotty.value) := by
  have served : Driver.softPWM.dispatch rtdmClass caller cmd arg outcome w = .ok [] (w, 0) := by
    rw [Driver.dispatch, switch_eq_none unknown]
    rfl
  rcases pwmIoctl_passed passed rtdmClass caller arg outcome w with fault | entered
  · rw [fault]
    simp [Errno.value, efault, enotty]
  · rw [entered, served]
    simp [Errno.value, enotty]

theorem pwmIoctl_known (known : IsCommand cmd) (kthread : outcome ≠ .failed enotty)
    (run : pwmIoctl rtdmClass caller cmd arg outcome w = .ok tr (w', err)) :
    err ≠ enotty.value := by
  rcases pwmIoctl_passed known.passes rtdmClass caller arg outcome w with fault | entered
  · cases fault.symm.trans run
    decide
  · obtain ⟨command, rfl⟩ := known
    rw [entered, Driver.dispatch, switch_command] at run
    exact ioctl_ne_enotty kthread run

/-- softPWM decodes a word as it should, whatever the address, the caller and the state,
    exactly if the word is a command or the filter turns it away.  The errors of
    `kthread_create` are taken not to be `ENOTTY`; its header names `ENOMEM` alone. -/
theorem decodes_iff (rtdmClass : BitVec 8) (caller : Caller) (cmd arg : BitVec 32)
    (outcome : CreateOutcome) (w : World) (kthread : outcome ≠ .failed enotty) :
    Decodes cmd w (pwmIoctl rtdmClass caller cmd arg outcome w) ↔
      IsCommand cmd ∨ iocType cmd ≠ pwmMagicNum ∨ iocNr cmd > 4 := by
  constructor
  · intro decodes
    by_contra neither
    obtain ⟨unknown, passed⟩ := not_or.mp neither
    exact pwmIoctl_unknown unknown passed (decodes.2 unknown)
  · rintro (known | filtered)
    · exact ⟨fun _ _ _ _ => pwmIoctl_known known kthread, fun unknown => absurd known unknown⟩
    · exact ⟨fun known => absurd filtered known.passes, fun _ => pwmIoctl_filtered filtered⟩

/-- A `PWM_INIT` whose thread cannot be created for want of memory is a command all the same. -/
theorem decodes_iff_enomem :
    let outcome : CreateOutcome := .failed ⟨12, by decide, by decide⟩
    outcome ≠ .failed enotty ∧
      Decodes 0x4004F102 (World.load .reset)
        (pwmIoctl 0 ⟨fun _ => 0, 0xBF000000⟩ 0x4004F102 0 outcome (World.load .reset)) := by
  intro outcome
  have other : outcome ≠ .failed enotty := by decide
  exact ⟨other, (decodes_iff 0 ⟨fun _ => 0, 0xBF000000⟩ 0x4004F102 0 outcome (World.load .reset)
    other).mpr (.inl (by decide))⟩

/-- `_IOW(0xF1, 4, int *)`, which no switch label is, returns zero; so does `_IOR(0xF1, 0, int *)`,
    the word of `PIN_SET` with the other direction. -/
theorem number_four_is_accepted :
    (¬ IsCommand 0x4004F104 ∧
      pwmIoctl 0 ⟨fun _ => 0, 0xBF000000⟩ 0x4004F104 0 .created (World.load .reset) =
        .ok [] (World.load .reset, 0) ∧
      ¬ Decodes 0x4004F104 (World.load .reset)
        (pwmIoctl 0 ⟨fun _ => 0, 0xBF000000⟩ 0x4004F104 0 .created (World.load .reset))) ∧
    ¬ IsCommand 0x8004F100 ∧
      pwmIoctl 0 ⟨fun _ => 0, 0xBF000000⟩ 0x8004F100 0 .created (World.load .reset) =
        .ok [] (World.load .reset, 0) ∧
      ¬ Decodes 0x8004F100 (World.load .reset)
        (pwmIoctl 0 ⟨fun _ => 0, 0xBF000000⟩ 0x8004F100 0 .created (World.load .reset)) := by
  have four : ¬ IsCommand 0x4004F104 := by decide
  have read : ¬ IsCommand 0x8004F100 := by decide
  exact ⟨⟨four, rfl, fun decodes => pwmIoctl_unknown four (by decide) (decodes.2 four)⟩,
    read, rfl, fun decodes => pwmIoctl_unknown read (by decide) (decodes.2 read)⟩

end

end KsoftPWM
