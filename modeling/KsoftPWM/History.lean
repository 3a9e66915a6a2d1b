import Mathlib.Data.List.Induction
import KsoftPWM.Base.Machine
import KsoftPWM.Model.User
import KsoftPWM.Requests

/-! # The slot table and its history

A session is a sequence of library calls, each with the answer its thread creation
gets, served one at a time.  The active slots after a session are those of the
successful `softPwmCreate` calls, and a duty cycle is the last one written through the
first match since the slot was created.  Only a duty cycle that was never written
tells the two drivers apart.
-/

namespace KsoftPWM

/-- A library call, with its array inside the memory of the process that makes it. -/
structure Invocation where
  call : UserCall
  outcome : CreateOutcome
  caller : Caller
  frame : BitVec 32
  inside : frame.toNat + 12 ≤ caller.limit

namespace Invocation

def creates (inv : Invocation) : Option InitArgs :=
  match inv.call, inv.outcome with
  | .softPwmCreate pin min max, .created => some ⟨pin, min, max⟩
  | _, _ => none

def writes (pin : Int32) (inv : Invocation) : Option Int32 :=
  match inv.call with
  | .softPwmWrite p duty => if p = pin then some duty else none
  | _ => none

end Invocation

def channelsCreated (session : List Invocation) : List InitArgs :=
  session.filterMap Invocation.creates

def lastWritten (pin : Int32) (session : List Invocation) : Option Int32 :=
  (session.filterMap (Invocation.writes pin)).getLast?

def HasRoom (session : List Invocation) : Prop :=
  ∀ before inv after, session = before ++ inv :: after → inv.call.request.isInit = true →
    (channelsCreated before).length < maxPwmNum

/-- Slot `i` was opened with `args`, and `written` is the last value written to its pin
    since then; a write never reaches it if an earlier slot has the pin. -/
def OpenedAs (session : List Invocation) (i : Nat) (args : InitArgs) (written : Option Int32) :
    Prop :=
  ∃ before inv after, session = before ++ inv :: after ∧ inv.creates = some args ∧
    (channelsCreated before).length = i ∧
    written = if args.pin ∈ (channelsCreated before).map InitArgs.pin then none
      else lastWritten args.pin after

/-- A `softPwmWrite` to a pin that no active slot has, or a `softPwmCreate` whose thread
    could not be created. -/
def Invocation.Futile (w : World) (inv : Invocation) : Prop :=
  match inv.call, inv.outcome with
  | .softPwmWrite pin _, _ =>
      ∀ i < w.pwmPinCount, ∀ slot, w.dutyArray[i]? = some slot → slot.pin ≠ pin
  | .softPwmCreate .., .failed _ => True
  | _, _ => False

def Driver.user (D : Driver) (rtdmClass : BitVec 8) : Machine World Invocation Event Fault where
  step w inv := some do
    let (w', err) ← inv.call.invoke D rtdmClass inv.caller inv.frame inv.outcome w
    Traced.emit (.ret err)
    pure w'

/-- The operations of a session on the table of active slots. -/
def tableOps (session : List Invocation) : List (TableOp InitArgs Int32 Int32) :=
  session.filterMap fun inv => inv.call.request.tableOp inv.outcome

theorem created_tableOps (session : List Invocation) :
    TableOp.created (tableOps session) = channelsCreated session := by
  rw [TableOp.created, tableOps, List.filterMap_filterMap, channelsCreated]
  congr 1
  funext inv
  unfold Invocation.creates
  cases inv.call <;> cases inv.outcome <;> rfl

theorem lastWrite_tableOps (pin : Int32) (session : List Invocation) :
    TableOp.lastWrite pin (tableOps session) = lastWritten pin session := by
  rw [TableOp.lastWrite, tableOps, List.filterMap_filterMap, lastWritten]
  congr 2
  funext inv
  unfold Invocation.writes
  cases inv.call <;> cases inv.outcome <;> rfl

variable {D : Driver} {rtdmClass : BitVec 8} {gpio : Gpio} {w w' : World} {inv : Invocation}
  {session before after : List Invocation} {tr : List Event}

theorem user_step {err : Int} (rtdmClass : BitVec 8)
    (run : D.ioctl inv.outcome w inv.call.request = .ok tr (w', err)) :
    (D.user rtdmClass).step w inv = some (.ok (tr ++ [.ret err]) w') := by
  have inside := inv.inside
  rw [← invoke_eq D rtdmClass inv.caller inv.frame (by omega)] at run
  simp [Driver.user, run]

theorem replay_tableOps_snoc (session : List Invocation) (inv : Invocation) :
    TableOp.replay InitArgs.pin (tableOps (session ++ [inv])) =
      (inv.call.request.tableOp inv.outcome).elim (TableOp.replay InitArgs.pin (tableOps session))
        (TableOp.apply InitArgs.pin (TableOp.replay InitArgs.pin (tableOps session))) := by
  rw [tableOps, List.filterMap_append]
  cases op : inv.call.request.tableOp inv.outcome with
  | none => simp [op, tableOps]
  | some op' => simp [op, tableOps, TableOp.replay]

theorem length_replay_tableOps (session : List Invocation) :
    (TableOp.replay InitArgs.pin (tableOps session)).length = (channelsCreated session).length := by
  have rows := TableOp.foldl_rows InitArgs.pin ([] : List (InitArgs × Option Int32))
    (tableOps session)
  rw [← created_tableOps, ← List.length_map, TableOp.replay, rows]
  rfl

theorem World.Holds.count {session : List Invocation}
    (holds : w.Holds D (TableOp.replay InitArgs.pin (tableOps session))) :
    w.pwmPinCount = (channelsCreated session).length := by
  rw [← length_channels holds.1, holds.2, List.length_map, length_replay_tableOps]

/-- Every session can be served, and the active slots are the rows of its table. -/
theorem session_holds (D : Driver) (rtdmClass : BitVec 8) (gpio : Gpio) (room : HasRoom session) :
    ∃ tr w, (D.user rtdmClass).Reaches (World.load gpio) session tr w ∧
      w.Holds D (TableOp.replay InitArgs.pin (tableOps session)) := by
  induction session using List.reverseRecOn with
  | nil => exact ⟨[], _, Machine.reaches_nil.mpr ⟨rfl, rfl⟩, Nat.zero_le _, rfl⟩
  | append_singleton session inv ih =>
      have earlier : HasRoom session := by
        intro before inv' after split
        exact room before inv' (after ++ [inv]) (by simp [split])
      obtain ⟨tr, w, reach, holds⟩ := ih earlier
      obtain ⟨tr', w', err, run, holds'⟩ := ioctl_holds holds inv.call.request inv.outcome
        (fun init => holds.count ▸ room session inv [] rfl init)
      refine ⟨tr ++ (tr' ++ [.ret err]), w', ?_, ?_⟩
      · exact Machine.reaches_append.mpr
          ⟨tr, w, _, reach, Machine.reaches_single.mpr (user_step rtdmClass run), rfl⟩
      · rw [replay_tableOps_snoc]
        exact holds'

theorem filterMap_split {α β : Type} {f : α → Option β} {l : List α} {i : Nat} {b : β}
    (here : (l.filterMap f)[i]? = some b) :
    ∃ before a after, l = before ++ a :: after ∧ f a = some b ∧ (before.filterMap f).length = i := by
  obtain ⟨inside, entry⟩ := List.getElem?_eq_some_iff.mp here
  have parts : l.filterMap f = (l.filterMap f).take i ++ b :: (l.filterMap f).drop (i + 1) := by
    rw [← entry, ← List.drop_eq_getElem_cons inside, List.take_append_drop]
  obtain ⟨front, back, rfl, first, rest⟩ := List.filterMap_eq_append_iff.mp parts
  obtain ⟨skipped, a, after, rfl, none_, found, -⟩ := List.filterMap_eq_cons_iff.mp rest
  refine ⟨front ++ skipped, a, after, by simp, found, ?_⟩
  rw [List.filterMap_append, List.filterMap_eq_nil_iff.mpr none_, List.append_nil, first,
    List.length_take]
  omega

theorem tableOp_creates {args : InitArgs} (creates : inv.creates = some args) :
    inv.call.request.tableOp inv.outcome = some (.create args) := by
  unfold Invocation.creates at creates
  split at creates
  · rename_i call outcome
    cases creates
    rw [call, outcome]
    rfl
  · cases creates

theorem OpenedAs.row {i : Nat} {args : InitArgs} {written : Option Int32}
    (opened : OpenedAs session i args written) :
    (TableOp.replay InitArgs.pin (tableOps session))[i]? = some (args, written) := by
  obtain ⟨before, inv, after, rfl, creates, rfl, rfl⟩ := opened
  have split : tableOps (before ++ inv :: after) =
      tableOps before ++ .create args :: tableOps after := by
    simp [tableOps, tableOp_creates creates]
  have row := TableOp.replay_row InitArgs.pin split
  rw [created_tableOps, lastWrite_tableOps] at row
  exact row

theorem exists_openedAs {i : Nat} {args : InitArgs}
    (here : (channelsCreated session)[i]? = some args) :
    ∃ written, OpenedAs session i args written := by
  obtain ⟨before, inv, after, split, creates, index⟩ := filterMap_split here
  exact ⟨_, before, inv, after, split, creates, index, rfl⟩

theorem World.Holds.slot {rows : List (InitArgs × Option Int32)} {i : Nat} {args : InitArgs}
    {written : Option Int32} (holds : w.Holds D rows) (row : rows[i]? = some (args, written)) :
    w.dutyArray[i]? = some (args.slot (written.getD D.creationDuty)) := by
  have inside := (List.getElem?_eq_some_iff.mp row).1
  have below : i < w.pwmPinCount := by
    rwa [← length_channels holds.1, holds.2, List.length_map]
  rw [← getElem?_channels below, holds.2, List.getElem?_map, row]
  rfl

theorem Invocation.Futile.keeps (futile : inv.Futile w) (bound : w.pwmPinCount ≤ maxPwmNum)
    (room : inv.call.request.isInit = true → w.pwmPinCount < maxPwmNum)
    (taken : (D.user rtdmClass).step w inv = some (.ok tr w')) :
    w'.pwmPinCount = w.pwmPinCount ∧
      ∀ i < w.pwmPinCount, w'.dutyArray[i]? = w.dutyArray[i]? := by
  unfold Invocation.Futile at futile
  split at futile
  · rename_i pin duty call
    obtain ⟨tr, run⟩ := ioctl_unknown D inv.outcome duty bound (find_eq_none futile)
    rw [user_step rtdmClass (by rw [call]; exact run)] at taken
    cases taken
    exact ⟨rfl, fun _ _ => rfl⟩
  · rename_i pin min max why call outcome
    have free := room (by rw [call]; rfl)
    obtain ⟨tr, run⟩ := ioctl_failed D ⟨pin, min, max⟩ why free
    rw [user_step rtdmClass (by rw [call, outcome]; exact run)] at taken
    cases taken
    cases D with
    | softPWM => exact ⟨rfl, fun _ _ => rfl⟩
    | xenoPWM =>
        exact ⟨rfl, fun i below => Vector.getElem?_set_ne free (Nat.ne_of_gt below)⟩
  · exact futile.elim

/-- After every session `pwm_pin_count` is the number of successful `softPwmCreate`
    calls and every active slot is what the history says.  Calls to no effect change
    neither, and the two drivers differ only in the duty cycle of slots that no write
    has reached. -/
theorem slots_equal_history (rtdmClass : BitVec 8) (gpio : Gpio) (session : List Invocation)
    (room : HasRoom session) :
    ∃ (traces : Driver → List Event) (worlds : Driver → World),
      (∀ D : Driver, (D.user rtdmClass).Reaches (World.load gpio) session (traces D) (worlds D) ∧
        (worlds D).pwmPinCount = (channelsCreated session).length ∧
        ∀ i args, (channelsCreated session)[i]? = some args →
          ∃ written, OpenedAs session i args written ∧
            (worlds D).dutyArray[i]? = some (args.slot (written.getD D.creationDuty))) ∧
      (∀ (D : Driver) before inv after tr w tr' w', session = before ++ inv :: after →
        (D.user rtdmClass).Reaches (World.load gpio) before tr w →
        (D.user rtdmClass).step w inv = some (.ok tr' w') → inv.Futile w →
        w'.pwmPinCount = w.pwmPinCount ∧
          ∀ i < w.pwmPinCount, w'.dutyArray[i]? = w.dutyArray[i]?) ∧
      (worlds .softPWM).pwmPinCount = (worlds .xenoPWM).pwmPinCount ∧
      ∀ i < (worlds .softPWM).pwmPinCount, ∃ slot slot',
        (worlds .softPWM).dutyArray[i]? = some slot ∧
        (worlds .xenoPWM).dutyArray[i]? = some slot' ∧
        slot.pin = slot'.pin ∧ slot.min = slot'.min ∧ slot.max = slot'.max ∧
        (slot.dutyCycle = slot'.dutyCycle ∨
          (∃ args, OpenedAs session i args none) ∧ slot.dutyCycle = 0 ∧ slot'.dutyCycle = 10) := by
  choose traces worlds reach holds using fun D => session_holds D rtdmClass gpio room
  have counts : ∀ D, (worlds D).pwmPinCount = (channelsCreated session).length :=
    fun D => (holds D).count
  have slots : ∀ {D i args written}, OpenedAs session i args written →
      (worlds D).dutyArray[i]? = some (args.slot (written.getD D.creationDuty)) :=
    fun {D} _ _ _ opened => (holds D).slot opened.row
  refine ⟨traces, worlds, fun D => ⟨reach D, counts D, ?_⟩, ?_, ?_, ?_⟩
  · intro i args here
    obtain ⟨written, opened⟩ := exists_openedAs here
    exact ⟨written, opened, slots opened⟩
  · intro D before inv after tr w tr' w' split reached taken futile
    have earlier : HasRoom before := by
      intro front inv' rest split'
      exact room front inv' (rest ++ inv :: after) (by simp [split, split'])
    obtain ⟨_, w₁, reached', holds'⟩ := session_holds D rtdmClass gpio earlier
    obtain ⟨-, rfl⟩ := reached.functional reached'
    exact futile.keeps holds'.1 (fun init => holds'.count ▸ room before inv after split init) taken
  · rw [counts, counts]
  · intro i below
    rw [counts] at below
    obtain ⟨written, opened⟩ := exists_openedAs (List.getElem?_eq_getElem below)
    refine ⟨_, _, slots opened, slots opened, rfl, rfl, rfl, ?_⟩
    cases written with
    | some value => exact .inl rfl
    | none => exact .inr ⟨⟨_, opened⟩, rfl, rfl⟩

theorem hasRoom_of_short (short : session.length ≤ maxPwmNum) : HasRoom session := by
  rintro before inv after rfl -
  have fewer : (channelsCreated before).length ≤ before.length := List.length_filterMap_le _ _
  simp only [List.length_append, List.length_cons] at short
  omega

def Invocation.sample (call : UserCall) (outcome : CreateOutcome) : Invocation where
  call := call
  outcome := outcome
  caller := ⟨fun _ => 0, 0x2000⟩
  frame := 0x1000
  inside := by decide

/-- A channel, a failed creation, a second channel on the same pin, and a write. -/
def shadowedSession : List Invocation :=
  [.sample (.softPwmCreate 16 0 100) .created, .sample (.softPwmCreate 16 0 50) (.failed efault),
    .sample (.softPwmCreate 16 0 200) .created, .sample (.softPwmWrite 16 7) .created]

theorem slots_equal_history_shadowed :
    HasRoom shadowedSession ∧ ∃ worlds : Driver → World, ∀ D, (worlds D).pwmPinCount = 2 ∧
      ∃ written, OpenedAs shadowedSession 1 ⟨16, 0, 200⟩ written ∧
        (worlds D).dutyArray[1]? = some (InitArgs.slot ⟨16, 0, 200⟩ (written.getD D.creationDuty)) := by
  have room : HasRoom shadowedSession := hasRoom_of_short (by decide)
  obtain ⟨_, worlds, recorded, -⟩ := slots_equal_history 0xF0 .reset shadowedSession room
  refine ⟨room, worlds, fun D => ?_⟩
  obtain ⟨-, count, slots⟩ := recorded D
  exact ⟨count, slots 1 ⟨16, 0, 200⟩ rfl⟩

end KsoftPWM
