import KsoftPWM.Decode
import KsoftPWM.Model.Fetch
import KsoftPWM.Unique

/-! # Arguments that change under the handler

A word that is loaded twice may have changed in between.  The pin requests test their code
again and again, and `PWM_SET` compares every slot with a pin of its own.  Still, what a request
does could have been done with arguments that stay, as long as no two active slots have one pin.
If two have, a `PWM_SET` whose pin changes at the right moment writes into the second of them,
which no other request can reach.
-/

namespace KsoftPWM

/-- The pins of the active slots are distinct whenever a `PWM_SET` is served. -/
def PinsApart (D : Driver) (rtdmClass : BitVec 8) (s : Sys) (label : CallLabel Changing) : Prop :=
  ∀ call, label = .ioctl call → D.switch rtdmClass call.cmd = some .pwmSet → s.world.pins.Nodup

/-- The same step, with memory that stays. -/
inductive Freezes : CallLabel Changing → CallLabel Caller → Prop where
  | ioctl (caller : Changing) (cmd arg : BitVec 32) (outcome : CreateOutcome)
      (mem : BitVec 32 → Int32) :
      Freezes (.ioctl ⟨caller, cmd, arg, outcome⟩) (.ioctl ⟨⟨mem, caller.limit⟩, cmd, arg, outcome⟩)
  | task (k : Nat) (swap : Bool) : Freezes (.task k swap) (.task k swap)
  | exit : Freezes .exit .exit

def ownEvent (event : Agent × UserEvent) : Option (Agent × Event) := event.2.own.map (event.1, ·)

/-- What the call does in the kernel it could do with memory that stays. -/
def Explained (D : Driver) (rtdmClass : BitVec 8) (w : World) (call : IoctlCall Changing) : Prop :=
  ∃ mem, (D.fetchEntry rtdmClass call.caller call.cmd call.arg call.outcome w).keep UserEvent.own =
    D.entry rtdmClass ⟨mem, call.caller.limit⟩ call.cmd call.arg call.outcome w

variable {D : Driver} {rtdmClass : BitVec 8} {w : World} {caller : Changing} {arg : BitVec 32}
  {outcome : CreateOutcome} {n : Nat}

/-! ## The search -/

theorem exists_unused_pin (w : World) :
    ∃ pin : Int32, ∀ (j : Nat) (inside : j < maxPwmNum), w.dutyArray[j].pin ≠ pin := by
  by_contra used
  have all : (List.range (maxPwmNum + 1)).map Int32.ofNat ⊆ w.dutyArray.toList.map (·.pin) := by
    intro pin _
    have somewhere := not_exists.mp used pin
    simp only [not_forall, not_not] at somewhere
    obtain ⟨j, inside, rfl⟩ := somewhere
    exact List.mem_map_of_mem (by simp)
  have several : ((List.range (maxPwmNum + 1)).map Int32.ofNat).Nodup := by decide
  have few := List.Nodup.length_le_of_subset several all
  simp at few

theorem pins_getElem? {k : Nat} (inside : k < maxPwmNum) (active : k < w.pwmPinCount) :
    w.pins[k]? = some w.dutyArray[k].pin := by
  rw [World.pins, List.getElem?_map, getElem?_channels active, Vector.getElem?_eq_getElem inside]
  rfl

theorem pins_nodup_iff :
    w.pins.Nodup ↔ ∀ (i j : Nat) (below : j < i) (inside : i < maxPwmNum), i < w.pwmPinCount →
      w.dutyArray[j].pin ≠ w.dutyArray[i].pin := by
  have length : w.pins.length = min w.pwmPinCount maxPwmNum := by
    simp [World.pins, World.channels]
  rw [List.nodup_iff_getElem?_ne_getElem?]
  constructor
  · intro apart i j below inside active same
    refine apart j i below (by omega) ?_
    rw [pins_getElem? inside active, pins_getElem? (by omega) (by omega), same]
  · intro apart j i below short
    rw [pins_getElem? (by omega) (by omega), pins_getElem? (by omega) (by omega)]
    exact fun same => apart i j below (by omega) (by omega) (Option.some.inj same)

/-- With distinct pins the search ends as it would for one pin, which none of the slots passed
    before has. -/
theorem fetchFindPin_does (apart : w.pins.Nodup) {m i : Nat} (loop : i + m = w.pwmPinCount) :
    ∃ pin, (∀ (j : Nat), j < i → ∀ inside : j < maxPwmNum, w.dutyArray[j].pin ≠ pin) ∧
      (fetchFindPin caller arg w m i).Does n (findPin pin w m i) := by
  obtain ⟨unused, none_⟩ := exists_unused_pin w
  induction m generalizing i n with
  | zero => exact ⟨unused, fun j _ => none_ j, n, rfl⟩
  | succ m ih =>
      by_cases inside : i < maxPwmNum
      · by_cases hit : w.dutyArray[i].pin = caller.mem n (tmpAddr arg 0)
        · refine ⟨w.dutyArray[i].pin, fun j below _ => ?_, n + 1, ?_⟩
          · exact pins_nodup_iff.mp apart i j below inside (by omega)
          · simp [fetchFindPin, findPin, World.slot_eq inside, hit]
        · obtain ⟨pin, passed, n', same⟩ := @ih (n + 1) (i + 1) (by omega)
          have other := passed i (Nat.lt_succ_self i) inside
          refine ⟨pin, fun j below => passed j (by omega), n', ?_⟩
          rw [tmpAddr_zero] at hit
          simp [fetchFindPin, findPin, World.slot_eq inside, hit, other, same, Traced.after_bind]
      · exact ⟨unused, fun j _ => none_ j, n,
          by simp [fetchFindPin, findPin, World.slot_full inside]⟩

/-! ## One request -/

/-- Whatever the loads give, some library call makes the same request. -/
theorem fetch_does (D : Driver) (caller : Changing) (arg : BitVec 32) (outcome : CreateOutcome)
    (command : Command) (apart : command = .pwmSet → w.pins.Nodup) :
    ∃ call : UserCall, call.command = command ∧
      (command.fetch D caller arg outcome w).Does 0 (D.ioctl outcome w call.request) := by
  have onPin : ∀ zero one, ∃ pin code,
      (fetchOnPin zero one caller arg w).Does 0 (actOnPin zero one pin code w) := by
    intro zero one
    rcases fetchOnPin_does zero one caller arg w with ⟨n, -, does⟩ | ⟨-, -, does⟩
    · exact ⟨_, _, does⟩
    · exact ⟨0, 2, does⟩
  cases command with
  | pinSet =>
      obtain ⟨pin, code, does⟩ := onPin gpioInput gpioOutput
      exact ⟨.pinMode pin code, rfl, does.map _⟩
  | gpioSet =>
      obtain ⟨pin, code, does⟩ := onPin gpioClr gpioSet
      exact ⟨.digitalWrite pin code, rfl, does.map _⟩
  | pwmInit =>
      exact ⟨.softPwmCreate _ _ _, rfl, fetchInit_does (foreseen_initCode D caller arg) outcome w⟩
  | pwmSet =>
      obtain ⟨pin, -, search⟩ := fetchFindPin_does (apart rfl) (Nat.zero_add w.pwmPinCount)
      obtain ⟨n', does⟩ := fetchPwmSet_does search
      exact ⟨.softPwmWrite pin _, rfl, does.map _⟩

theorem explained_of_apart (call : IoctlCall Changing)
    (apart : D.switch rtdmClass call.cmd = some .pwmSet → w.pins.Nodup) :
    Explained D rtdmClass w call := by
  cases label : D.switch rtdmClass call.cmd with
  | none =>
      refine ⟨fun _ => 0, fetchEntry_own ?_⟩
      rw [Driver.fetchSwitch, Driver.dispatch, label]
      exact ⟨0, rfl⟩
  | some command =>
      obtain ⟨user, same, does⟩ := fetch_does D call.caller call.arg call.outcome command
        (fun same => apart (label.trans (congrArg some same)))
      refine ⟨storeWords (fun _ => 0) call.arg user.tmp, fetchEntry_own ?_⟩
      rw [Driver.fetchSwitch, Driver.dispatch, label]
      subst same
      simpa only [storeWords_tmp] using does

theorem fetchEntry_word (D : Driver) (rtdmClass : BitVec 8) (caller : Changing) (frame : BitVec 32)
    (inside : frame.toNat + 4 ≤ caller.limit) (outcome : CreateOutcome) (w : World)
    (command : Command) :
    D.fetchEntry rtdmClass caller (D.word rtdmClass command) frame outcome w =
      (command.fetch D caller frame outcome w).run' 0 := by
  cases D with
  | xenoPWM => simp only [Driver.fetchEntry, fetchXenoPwmIoctl, Driver.fetchSwitch, switch_word]
  | softPWM =>
      have label := switch_word .softPWM rtdmClass command
      have word : Driver.softPWM.word rtdmClass command = iow pwmMagicNum command.nr := rfl
      obtain ⟨-, type, size, -⟩ := (isCommand_iff _).mp ⟨command, rfl⟩
      have passed : ¬ iocNr (iow pwmMagicNum command.nr) > 4 := by
        cases command <;> decide
      have ok : (caller.now 0).accessOk frame 4 = true := decide_eq_true inside
      rw [word] at label ⊢
      simp only [Driver.fetchEntry, fetchPwmIoctl, type, ne_eq, not_true_eq_false, passed,
        ↓reduceIte, size, ok, Bool.not_true, ite_self, Bool.false_eq_true, Driver.fetchSwitch, label]

/-! ## Two slots with one pin -/

theorem findPin_first {pin : Int32} {m i pos : Nat} {tr : List Event}
    (found : findPin pin w m i = .ok tr (some pos)) :
    ∃ inside : pos < maxPwmNum, w.dutyArray[pos].pin = pin ∧
      ∀ (j : Nat) (below : j < pos), i ≤ j → w.dutyArray[j].pin ≠ pin := by
  induction m generalizing i tr with
  | zero => cases found
  | succ m ih =>
      by_cases inside : i < maxPwmNum
      · by_cases hit : w.dutyArray[i].pin = pin
        · simp [findPin, World.slot_eq inside, hit] at found
          obtain ⟨-, rfl⟩ := found
          exact ⟨inside, hit, fun j below from_ => absurd below (by omega)⟩
        · simp only [findPin, World.slot_eq inside, Traced.ok_bind, hit, ↓reduceIte] at found
          obtain ⟨tail, later, -⟩ := Traced.after_eq_ok.mp found
          obtain ⟨low, same, passed⟩ := ih later
          refine ⟨low, same, fun j below from_ => ?_⟩
          by_cases here : j = i
          · subst here
            exact hit
          · exact passed j below (by omega)
      · simp [findPin, World.slot_full inside] at found

theorem pwmSet_shadowed {i j : Nat} {pin duty : Int32} {tr : List Event} {w' : World} (below : i < j)
    (inside : j < maxPwmNum) (shared : w.dutyArray[i].pin = w.dutyArray[j].pin)
    (run : pwmSet pin duty w = .ok tr w') : w'.dutyArray[j] = w.dutyArray[j] := by
  obtain ⟨first, found, second, search, rest, -⟩ := Traced.bind_eq_ok.mp run
  cases found with
  | none =>
      cases rest
      rfl
  | some pos =>
      obtain ⟨low, same, passed⟩ := findPin_first search
      have other : pos ≠ j := by
        rintro rfl
        exact passed i below (Nat.zero_le i) (shared.trans same)
      simp only [World.setSlot_eq low, Traced.ok.injEq] at rest
      obtain ⟨-, rfl⟩ := rest
      exact Vector.getElem_set_ne low inside other

/-- The caller that shows the search a pin that no slot has, except at the `j`-th load. -/
def sneaky (w : World) (arg : BitVec 32) (j : Nat) (inside : j < maxPwmNum) (unused : Int32) :
    Changing where
  mem n addr :=
    if addr = arg then if n = j then w.dutyArray[j].pin else unused
    else w.dutyArray[j].dutyCycle + 1
  limit := arg.toNat + 4

section
variable {i j : Nat} {inside : j < maxPwmNum} {unused : Int32}

theorem sneaky_pin (n : Nat) :
    (sneaky w arg j inside unused).mem n arg = if n = j then w.dutyArray[j].pin else unused :=
  if_pos rfl

theorem sneaky_duty (n : Nat) :
    (sneaky w arg j inside unused).mem n (tmpAddr arg 1) = w.dutyArray[j].dutyCycle + 1 :=
  if_neg (by simp [tmpAddr])

theorem fetchFindPin_sneaky {m : Nat}
    (none_ : ∀ (k : Nat) (inside : k < maxPwmNum), w.dutyArray[k].pin ≠ unused) (start : i ≤ j)
    (long : j < i + m) :
    ∃ tr, (fetchFindPin (sneaky w arg j inside unused) arg w m i).own i = .ok tr (some j, j + 1) := by
  induction m generalizing i with
  | zero => omega
  | succ m ih =>
      have here : i < maxPwmNum := by omega
      by_cases last : i = j
      · subst last
        exact ⟨_, by simp [fetchFindPin, World.slot_eq here, sneaky_pin]; rfl⟩
      · obtain ⟨tr, later⟩ := @ih (i + 1) (by omega) (by omega)
        exact ⟨_, by
          simp [fetchFindPin, World.slot_eq here, sneaky_pin, last, none_ i here, later]
          rfl⟩

end

/-- With two slots of one pin a caller that goes on writing can reach the second one. -/
theorem sneaky_unexplained (D : Driver) (rtdmClass : BitVec 8) (arg : BitVec 32) {i j : Nat}
    (below : i < j) (inside : j < maxPwmNum) (active : j < w.pwmPinCount)
    (shared : w.dutyArray[i].pin = w.dutyArray[j].pin) : ∃ call, ¬ Explained D rtdmClass w call := by
  obtain ⟨unused, none_⟩ := exists_unused_pin w
  have low : arg.toNat + 4 ≤ (sneaky w arg j inside unused).limit := Nat.le_refl _
  obtain ⟨tr, search⟩ := @fetchFindPin_sneaky w arg 0 j inside unused w.pwmPinCount none_
    (Nat.zero_le j) (by omega)
  have wrote : ∃ tr, (Command.pwmSet.fetch D (sneaky w arg j inside unused) arg .created w).own 0 =
      .ok tr ((w.withDuty j inside (w.dutyArray[j].dutyCycle + 1), 0), j + 2) := by
    exact ⟨_, by
      simp [Command.fetch, fetchPwmSet, search, sneaky_duty, World.setSlot_eq inside, World.withDuty]
      rfl⟩
  obtain ⟨tr', wrote⟩ := wrote
  refine ⟨⟨sneaky w arg j inside unused, D.word rtdmClass .pwmSet, arg, .created⟩, ?_⟩
  rintro ⟨mem, same⟩
  rw [fetchEntry_word D rtdmClass _ arg low, entry_word D rtdmClass _ arg low] at same
  have does : (Command.pwmSet.fetch D (sneaky w arg j inside unused) arg .created w).Does 0
      (.ok tr' (w.withDuty j inside (w.dutyArray[j].dutyCycle + 1), 0)) :=
    ⟨j + 2, by rw [wrote]; simp⟩
  rw [does.run] at same
  obtain ⟨_, w', _, run, rest, -⟩ := Traced.bind_eq_ok.mp same.symm
  cases rest
  have kept := pwmSet_shadowed below inside shared run
  have changed := congrArg Dutycycle.dutyCycle kept
  simp [World.withDuty] at changed

theorem explained_iff (D : Driver) (rtdmClass : BitVec 8) (w : World) :
    (∀ call, Explained D rtdmClass w call) ↔ w.pins.Nodup := by
  constructor
  · intro all
    refine pins_nodup_iff.mpr fun j i below inside active shared => ?_
    obtain ⟨call, not⟩ := sneaky_unexplained D rtdmClass 0 below inside active shared
    exact not (all call)
  · exact fun apart call => explained_of_apart call fun _ => apart

/-! ## Whole runs -/

theorem keep_ownEvent_tag {α : Type} (agent : Agent) (x : Handling α) :
    (x.tag (agent, ·)).keep ownEvent = (x.keep UserEvent.own).tag (agent, ·) := by
  cases x <;> simp [Traced.tag, Traced.keep, List.filterMap_map, List.map_filterMap, ownEvent,
    Function.comp_def]

theorem keep_ownEvent_kernel {α : Type} (x : Traced (Agent × Event) Fault α) :
    (x.tag (Prod.map id UserEvent.kernel)).keep ownEvent = x :=
  Traced.keep_tag (f := ownEvent) (g := Prod.map id UserEvent.kernel) (fun _ => rfl) x

theorem frozen_step {s : Sys} {label : CallLabel Changing}
    {x : Traced (Agent × UserEvent) Fault Sys} (apart : PinsApart D rtdmClass s label)
    (taken : (D.fetching rtdmClass).step s label = some x) :
    ∃ label', Freezes label label' ∧
      (D.calling rtdmClass).step s label' = some (x.keep ownEvent) := by
  have still : ∀ {y : Traced (Agent × Event) Fault Sys}, y.tag id = y := by
    intro y
    cases y <;> simp [Traced.tag]
  cases label with
  | task k swap =>
      obtain ⟨y, moved, rfl⟩ := Option.map_eq_some_iff.mp taken
      refine ⟨_, .task k swap, ?_⟩
      rw [keep_ownEvent_kernel]
      simp [Driver.calling, Sys.callStep, moved, still]
  | exit =>
      obtain ⟨y, moved, rfl⟩ := Option.map_eq_some_iff.mp taken
      refine ⟨_, .exit, ?_⟩
      rw [keep_ownEvent_kernel]
      simp [Driver.calling, Sys.callStep, moved, still]
  | ioctl call =>
      obtain ⟨mem, same⟩ := explained_of_apart call (apart call rfl)
      refine ⟨_, .ioctl call.caller call.cmd call.arg call.outcome mem, ?_⟩
      simp only [Driver.fetching, Driver.calling, Sys.callStep] at taken ⊢
      split at taken
      · rename_i ready
        cases taken
        rw [if_pos ready, keep_ownEvent_tag, Traced.keep_bind, same]
        rfl
      · cases taken

theorem frozen_run {s s' : Sys} {labels : List (CallLabel Changing)}
    {tr : List (Agent × UserEvent)} (reach : (D.fetching rtdmClass).Reaches s labels tr s')
    (apart : (D.fetching rtdmClass).Guarded (PinsApart D rtdmClass) s labels) :
    ∃ frozen, List.Forall₂ Freezes labels frozen ∧
      (D.calling rtdmClass).Reaches s frozen (tr.filterMap ownEvent) s' := by
  induction labels generalizing s tr with
  | nil =>
      obtain ⟨rfl, rfl⟩ := Machine.reaches_nil.mp reach
      exact ⟨[], .nil, Machine.reaches_nil.mpr ⟨rfl, rfl⟩⟩
  | cons label labels ih =>
      obtain ⟨first, s₁, rest, taken, later, rfl⟩ := Machine.reaches_cons.mp reach
      obtain ⟨label', freezes, step⟩ := frozen_step apart.1 taken
      obtain ⟨frozen, all, run⟩ := ih later (apart.2 first s₁ taken)
      refine ⟨label' :: frozen, .cons freezes all, Machine.reaches_cons.mpr ?_⟩
      exact ⟨_, s₁, _, step, run, List.filterMap_append⟩

/-- Every run of a driver whose callers go on writing into their arguments is a run in which they
    do not, with the same command words and addresses, the same events in the kernel and the same
    end, as long as every `PWM_SET` finds the active slots with distinct pins.  In every state with
    two active slots of one pin a call can do what is possible in no other way. -/
theorem changing_arguments_harmless (D : Driver) (rtdmClass : BitVec 8) (s s' : Sys)
    (labels : List (CallLabel Changing)) (tr : List (Agent × UserEvent))
    (reach : (D.fetching rtdmClass).Reaches s labels tr s')
    (apart : (D.fetching rtdmClass).Guarded (PinsApart D rtdmClass) s labels) :
    (∃ frozen, List.Forall₂ Freezes labels frozen ∧
      (D.calling rtdmClass).Reaches s frozen (tr.filterMap ownEvent) s') ∧
    ((∀ call, Explained D rtdmClass s'.world call) ↔ s'.world.pins.Nodup) :=
  ⟨frozen_run reach apart, explained_iff D rtdmClass s'.world⟩

/-- A `PIN_SET` whose code turns from 1 to 0 behind the check, and two more requests. -/
def restlessCalls : List (CallLabel Changing) :=
  let caller : Changing :=
    ⟨fun n addr => if addr = 0x1000 then 16 else if addr = 0x1008 then 100 else if n = 2 then 0 else 1,
      0xBF000000⟩
  [.ioctl ⟨caller, 0x4004F100, 0x1000, .created⟩, .ioctl ⟨caller, 0x4004F102, 0x1000, .created⟩,
    .ioctl ⟨caller, 0x4004F103, 0x1000, .created⟩]

theorem changing_arguments_harmless_restless :
    ∃ (tr : List (Agent × UserEvent)) (s : Sys) (frozen : List (CallLabel Caller)),
      List.Forall₂ Freezes restlessCalls frozen ∧
      (Driver.softPWM.calling 0).Reaches (.load .reset) frozen (tr.filterMap ownEvent) s ∧
      s.world.channels = [⟨16, 1, 1, 100⟩] ∧ ∀ call, Explained .softPWM 0 s.world call := by
  obtain ⟨tr, s, reach, test⟩ := Machine.exists_reaches (Driver.softPWM.fetching 0) (.load .reset)
    restlessCalls (fun _ s => decide (s.world.channels = [⟨16, 1, 1, 100⟩])) (by decide)
  have channels := of_decide_eq_true test
  have checked : (Driver.softPWM.fetching 0).checks (fun s _ => decide s.world.pins.Nodup)
      (.load .reset) restlessCalls = true := by decide
  obtain ⟨⟨frozen, all, run⟩, exact_⟩ := changing_arguments_harmless .softPWM 0 _ s restlessCalls tr
    reach (Machine.guarded_of_checks (fun _ _ distinct _ _ _ => of_decide_eq_true distinct) checked)
  refine ⟨tr, s, frozen, all, run, channels, exact_.mpr ?_⟩
  rw [World.pins, channels]
  decide

end KsoftPWM
