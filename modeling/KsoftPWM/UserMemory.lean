import KsoftPWM.Decode
import KsoftPWM.Model.Reads

/-! # What is checked and what is read

`access_ok` is asked about as many bytes as the command word says, and the words of
`softpwm.h` say `int *`: four bytes, the size of a pointer.  The branches read two or three
`int`s.  So the first word is covered and no other one is, and an argument four bytes below
the limit makes the handler read at the limit.
-/

namespace KsoftPWM

def WordInside (arg size addr : BitVec 32) : Prop :=
  arg.toNat ≤ addr.toNat ∧ addr.toNat + 4 ≤ arg.toNat + size.toNat

/-- The handler stays in its tables, without which nothing can be said of what it reads, and
    every word it reads is in the range that `access_ok` was asked about and allowed, and so
    below the limit. -/
def ReadsChecked (caller : Caller) (cmd arg : BitVec 32) (x : Handling (World × Int)) : Prop :=
  (∃ tr r, x = .ok tr r) ∧
    ∀ addr, .read addr ∈ x.trace → WordInside arg (iocSize cmd) addr ∧
      caller.accessOk arg (iocSize cmd) = true ∧ addr.toNat + 4 ≤ caller.limit

def World.HasPin (w : World) (pin : Int32) (i n : Nat) : Prop :=
  ∃ (j : Nat) (slot : Dutycycle), i ≤ j ∧ j < i + n ∧ w.dutyArray[j]? = some slot ∧ slot.pin = pin

/-- The branch comes to `tmp[1]` or leaves the tables: always for the two pin requests, for
    `PWM_INIT` once the thread is there or if no slot is free, for `PWM_SET` once a slot with the
    pin is found or if more slots are counted than there are. -/
def Command.ReadsOn (caller : Caller) (arg : BitVec 32) (outcome : CreateOutcome) (w : World) :
    Command → Prop
  | pinSet | gpioSet => True
  | pwmInit => outcome = .created ∨ maxPwmNum ≤ w.pwmPinCount
  | pwmSet => w.HasPin (caller.mem arg) 0 w.pwmPinCount ∨ maxPwmNum < w.pwmPinCount

/-! ## The reads of the branches -/

section
variable {α : Type} {caller : Caller} {arg addr : BitVec 32} {outcome : CreateOutcome} {w : World}

theorem read_notMem_inKernel (x : Kernel α) : UserEvent.read addr ∉ (inKernel x).trace := by
  cases x <;> simp [inKernel]

theorem readOnPin_second (zero one : Int32 → Gpio → Traced Access Fault Gpio) :
    UserEvent.read (tmpAddr arg 1) ∈ (readOnPin zero one caller arg w).trace := by
  simp [readOnPin, Caller.tmp]

theorem readInit_second (args : InitArgs) (room : w.pwmPinCount < maxPwmNum) :
    UserEvent.read (tmpAddr arg 1) ∈
      (readInit arg args .created Driver.softPWM.initCode w).trace := by
  simp [readInit, Driver.initCode, Stmt.words, inKernel, Stmt.exec, subscript, assign, room,
    World.setSlot, World.setRef, World.spawn, World.slot]

theorem readInit_full (args : InitArgs) (full : ¬ w.pwmPinCount < maxPwmNum) :
    ∃ tr why, readInit arg args outcome Driver.softPWM.initCode w = .fault tr why := by
  simp [readInit, Driver.initCode, Stmt.words, inKernel, Stmt.exec, subscript_full full]

theorem readInit_failed (args : InitArgs) (why : Errno) (room : w.pwmPinCount < maxPwmNum) :
    ∃ tr r, readInit arg args (.failed why) Driver.softPWM.initCode w = .ok tr r ∧
      ∀ addr, UserEvent.read addr ∉ tr := by
  simp [readInit, Driver.initCode, Stmt.words, inKernel, Stmt.exec, subscript, assign, room,
    World.setRef]

theorem readFindPin_reads (caller : Caller) (arg : BitVec 32) (w : World) (n i : Nat) :
    ∀ e ∈ (readFindPin caller arg w n i).trace, ∀ addr, e = .read addr → addr = arg := by
  induction n generalizing i with
  | zero => simp [readFindPin]
  | succ n ih =>
      refine Traced.forall_trace_bind ?_ fun slot => Traced.forall_trace_bind ?_ fun pin => ?_
      · rintro e member addr rfl
        exact absurd member (read_notMem_inKernel _)
      · simp [Caller.tmp]
      · split
        · simp
        · exact ih (i + 1)

theorem readFindPin_inside {i : Nat} (inside : i < maxPwmNum) (n : Nat) :
    readFindPin caller arg w (n + 1) i =
      Traced.after [.kernel (.subscript .dutyArray i), .read arg]
        (if w.dutyArray[i].pin = caller.mem arg then .ok [] (some i)
          else readFindPin caller arg w n (i + 1)) := by
  rw [readFindPin, World.slot_eq inside, inKernel, Traced.tag_ok, Traced.ok_bind, Caller.tmp,
    tmpAddr_zero, Traced.ok_bind]
  split
  · rfl
  · cases readFindPin caller arg w n (i + 1) <;> rfl

/-- How the search ends: with a position, at the end of the active slots, or behind the
    table. -/
inductive Searched (w : World) (pin : Int32) (i n : Nat) : Handling (Option Nat) → Prop where
  | hit {tr pos} : w.HasPin pin i n → Searched w pin i n (.ok tr (some pos))
  | miss {tr} : ¬ w.HasPin pin i n → i + n ≤ maxPwmNum → Searched w pin i n (.ok tr none)
  | beyond {tr why} : ¬ w.HasPin pin i n → maxPwmNum < i + n → Searched w pin i n (.fault tr why)

/-- Past a slot with another pin the search goes on as before. -/
theorem hasPin_succ {pin : Int32} {n i : Nat} (inside : i < maxPwmNum)
    (other : w.dutyArray[i].pin ≠ pin) : w.HasPin pin i (n + 1) ↔ w.HasPin pin (i + 1) n := by
  constructor
  · rintro ⟨j, slot, low, high, held, same⟩
    have next : j ≠ i := by
      rintro rfl
      rw [Vector.getElem?_eq_getElem inside, Option.some.injEq] at held
      exact other (held ▸ same)
    exact ⟨j, slot, by omega, by omega, held, same⟩
  · rintro ⟨j, slot, low, high, held, same⟩
    exact ⟨j, slot, by omega, by omega, held, same⟩

theorem Searched.later {pin : Int32} {n i : Nat} {x : Handling (Option Nat)}
    (inside : i < maxPwmNum) (other : w.dutyArray[i].pin ≠ pin) (before : List UserEvent)
    (searched : Searched w pin (i + 1) n x) : Searched w pin i (n + 1) (x.after before) := by
  have same := hasPin_succ (n := n) inside other
  cases searched with
  | hit has => exact .hit (same.mpr has)
  | miss none_ short => exact .miss (fun has => none_ (same.mp has)) (by omega)
  | beyond none_ long => exact .beyond (fun has => none_ (same.mp has)) (by omega)

theorem readFindPin_searched (caller : Caller) (arg : BitVec 32) (w : World) (n : Nat) {i : Nat}
    (start : i ≤ maxPwmNum) :
    Searched w (caller.mem arg) i n (readFindPin caller arg w n i) := by
  induction n generalizing i with
  | zero =>
      refine .miss ?_ start
      rintro ⟨j, slot, low, high, -⟩
      omega
  | succ n ih =>
      by_cases inside : i < maxPwmNum
      · rw [readFindPin_inside inside]
        by_cases hit : w.dutyArray[i].pin = caller.mem arg
        · rw [if_pos hit]
          have here : w.dutyArray[i]? = some w.dutyArray[i] := Vector.getElem?_eq_getElem inside
          exact .hit ⟨i, _, Nat.le_refl i, by omega, here, hit⟩
        · rw [if_neg hit]
          exact (ih inside).later inside hit _
      · rw [readFindPin, World.slot_full inside]
        refine .beyond ?_ (by omega)
        rintro ⟨j, slot, low, -, held, -⟩
        have below := (Vector.getElem?_eq_some_iff.mp held).1
        omega

theorem branch_readsOn {command : Command} (on : command.ReadsOn caller arg outcome w) :
    UserEvent.read (tmpAddr arg 1) ∈ (command.branch caller arg outcome w).trace ∨
      ∃ tr why, command.branch caller arg outcome w = .fault tr why := by
  cases command with
  | pinSet | gpioSet => exact .inl (Traced.mem_trace_bind.mpr (.inl (readOnPin_second _ _)))
  | pwmInit =>
      by_cases room : w.pwmPinCount < maxPwmNum
      · obtain rfl : outcome = .created := on.resolve_right (by omega)
        exact .inl (readInit_second _ room)
      · exact .inr (readInit_full _ room)
  | pwmSet =>
      have searched := readFindPin_searched caller arg w w.pwmPinCount (Nat.zero_le _)
      generalize loop : readFindPin caller arg w w.pwmPinCount 0 = x at searched
      cases searched with
      | @hit tr pos has =>
          left
          refine Traced.mem_trace_bind.mpr (.inl (Traced.mem_trace_bind.mpr (.inr ⟨tr, _, loop, ?_⟩)))
          exact Traced.mem_trace_bind.mpr (.inl (List.mem_singleton.mpr rfl))
      | miss none_ short => exact absurd on (not_or_intro none_ (by omega))
      | @beyond tr why => exact .inr ⟨tr, why, by rw [Command.branch, readPwmSet, loop]; rfl⟩

theorem branch_stops {command : Command} (stops : ¬ command.ReadsOn caller arg outcome w) :
    ∃ tr r, command.branch caller arg outcome w = .ok tr r ∧
      ∀ addr, .read addr ∈ tr → addr = arg := by
  cases command with
  | pinSet | gpioSet => exact absurd trivial stops
  | pwmInit =>
      obtain ⟨refused, room⟩ := not_or.mp stops
      cases outcome with
      | created => exact absurd rfl refused
      | failed why =>
          obtain ⟨tr, r, run, silent⟩ := readInit_failed _ why (Nat.lt_of_not_le room)
          exact ⟨tr, r, run, fun addr member => absurd member (silent addr)⟩
  | pwmSet =>
      obtain ⟨none_, short⟩ := not_or.mp stops
      have reads := readFindPin_reads caller arg w w.pwmPinCount 0
      have searched := readFindPin_searched caller arg w w.pwmPinCount (Nat.zero_le _)
      generalize loop : readFindPin caller arg w w.pwmPinCount 0 = x at searched reads
      cases searched with
      | hit has => exact absurd has none_
      | beyond _ long => omega
      | @miss tr =>
          refine ⟨tr, (w, 0), ?_, fun addr member => reads _ member addr rfl⟩
          rw [Command.branch, readPwmSet, loop]
          simp

end

/-! ## The handler -/

theorem tmpAddr_one_outside (arg : BitVec 32) : ¬ WordInside arg 4 (tmpAddr arg 1) := by
  rintro ⟨low, high⟩
  rw [tmpAddr_one, BitVec.toNat_add] at low high
  have bound := arg.isLt
  have four : (4 : BitVec 32).toNat = 4 := rfl
  omega

variable (rtdmClass : BitVec 8) (caller : Caller) (arg : BitVec 32) (outcome : CreateOutcome)
  (w : World)

theorem readIoctl_command (command : Command) :
    readIoctl rtdmClass caller (iow pwmMagicNum command.nr) arg outcome w =
      if arg.toNat + 4 ≤ caller.limit then command.branch caller arg outcome w
      else .ok [] (w, efault.value) := by
  have known : IsCommand (iow pwmMagicNum command.nr) := ⟨command, rfl⟩
  obtain ⟨dir, type, size, -⟩ := (isCommand_iff _).mp known
  have passes := (not_or.mp known.passes).2
  have label := switch_command rtdmClass command
  have write : iocWrite &&& iocRead = 0 ∧ ¬ iocWrite &&& iocWrite = 0 := by decide
  have checked : caller.accessOk arg 4 = decide (arg.toNat + 4 ≤ caller.limit) := rfl
  simp only [readIoctl, type, ne_eq, not_true_eq_false, passes, ↓reduceIte, dir, size, label, write,
    not_false_eq_true, checked]
  by_cases inside : arg.toNat + 4 ≤ caller.limit
  · simp only [inside, decide_true, Bool.not_true, Bool.false_eq_true, ↓reduceIte]
  · simp only [inside, decide_false, Bool.not_false, ↓reduceIte, Traced.pure_eq]

theorem readIoctl_unknown {cmd : BitVec 32} (unknown : ¬ IsCommand cmd) :
    ∃ r, readIoctl rtdmClass caller cmd arg outcome w = .ok [] r := by
  have check : ∀ refused : Bool, ∃ r,
      (if refused then pure (w, efault.value) else pure (w, 0) : Handling (World × Int)) =
        .ok [] r := by
    rintro (_ | _)
    · exact ⟨_, rfl⟩
    · exact ⟨_, rfl⟩
  rw [readIoctl, switch_eq_none unknown]
  split
  · exact ⟨_, rfl⟩
  · split
    · exact ⟨_, rfl⟩
    · exact check _

/-- Every word that softPWM reads for a request has been checked exactly if the request is
    not one of the four, or its address is refused, or its branch ends before `tmp[1]`. -/
theorem reads_checked_iff (cmd : BitVec 32) :
    ReadsChecked caller cmd arg (readIoctl rtdmClass caller cmd arg outcome w) ↔
      ¬ ∃ command : Command, iow pwmMagicNum command.nr = cmd ∧ arg.toNat + 4 ≤ caller.limit ∧
        command.ReadsOn caller arg outcome w := by
  constructor
  · rintro ⟨⟨tr, r, run⟩, checked⟩ ⟨command, rfl, inside, on⟩
    obtain ⟨-, -, size, -⟩ := (isCommand_iff _).mp ⟨command, rfl⟩
    rw [readIoctl_command, if_pos inside] at run checked
    rcases branch_readsOn on with second | ⟨_, _, fault⟩
    · have covered := (checked _ second).1
      rw [size] at covered
      exact tmpAddr_one_outside arg covered
    · cases fault.symm.trans run
  · intro ends
    by_cases known : IsCommand cmd
    · obtain ⟨command, rfl⟩ := known
      obtain ⟨-, -, size, -⟩ := (isCommand_iff _).mp ⟨command, rfl⟩
      rw [readIoctl_command]
      by_cases inside : arg.toNat + 4 ≤ caller.limit
      · rw [if_pos inside]
        have stops : ¬ command.ReadsOn caller arg outcome w := by
          intro on
          exact ends ⟨command, rfl, inside, on⟩
        obtain ⟨tr, r, run, first⟩ := branch_stops stops
        rw [run]
        refine ⟨⟨tr, r, rfl⟩, fun addr member => ?_⟩
        obtain rfl := first addr member
        rw [size]
        exact ⟨⟨Nat.le_refl _, Nat.le_refl _⟩, decide_eq_true inside, inside⟩
      · rw [if_neg inside]
        exact ⟨⟨_, _, rfl⟩, by simp⟩
    · obtain ⟨r, run⟩ := readIoctl_unknown rtdmClass caller arg outcome w known
      rw [run]
      exact ⟨⟨_, r, rfl⟩, by simp⟩

/-- A `PIN_SET` whose argument is the last word below the limit passes `access_ok` and reads the
    word at the limit. -/
theorem pin_set_reads_at_limit :
    let caller : Caller := ⟨fun _ => 0, 0xBF000000⟩
    let x := readIoctl 0 caller 0x4004F100 0xBEFFFFFC .created (World.load .reset)
    caller.accessOk 0xBEFFFFFC (iocSize 0x4004F100) = true ∧ .read 0xBF000000 ∈ x.trace ∧
      x.keep UserEvent.own =
        pwmIoctl 0 caller 0x4004F100 0xBEFFFFFC .created (World.load .reset) ∧
      ¬ ReadsChecked caller 0x4004F100 0xBEFFFFFC x := by
  intro caller x
  have read : UserEvent.read 0xBF000000 ∈ x.trace := by decide
  refine ⟨by decide, read, readIoctl_own _ _ _ _ _ _, fun checked => ?_⟩
  exact absurd (checked.2 _ read).2.2 (by decide)

end KsoftPWM
