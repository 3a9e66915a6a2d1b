import KsoftPWM.Base.FirstMatch
import KsoftPWM.Duty
import KsoftPWM.Model.Serial

/-! # What a whole request does

One lemma for each request and outcome: the world it leaves and the value it returns,
as long as `PWM_INIT` finds a free slot.  From these follow which requests create a
thread or access a register, and what requests do to the active slots, which, seen as a
list, are a table that grows at its end and is written through the first match.
-/

namespace KsoftPWM

def Driver.startPc : Driver → TaskPc
  | .softPWM => .loopHead
  | .xenoPWM => .entry

namespace World

/-- The active slots. -/
def channels (w : World) : List Dutycycle := w.dutyArray.toList.take w.pwmPinCount

def find (w : World) (pin : Int32) : Option Nat := w.channels.findIdx? fun slot => slot.pin = pin

/-- The world after a `PWM_INIT` whose thread was created. -/
def opened (w : World) (D : Driver) (args : InitArgs) (room : w.pwmPinCount < maxPwmNum) :
    World where
  dutyArray := w.dutyArray.set w.pwmPinCount (D.fresh args)
  taskTable := w.taskTable.set w.pwmPinCount (.thread w.tasks.length)
  pwmPinCount := w.pwmPinCount + 1
  gpio := w.gpio
  tasks := w.tasks ++ [⟨w.pwmPinCount, taskName[w.pwmPinCount], args, false, D.startPc⟩]

/-- The world after a `PWM_INIT` whose thread could not be created: softPWM has cleared
    the entry of the task table, xenoPWM has written the slot. -/
def refused (w : World) (D : Driver) (args : InitArgs) (room : w.pwmPinCount < maxPwmNum) : World :=
  match D with
  | .softPWM => { w with taskTable := w.taskTable.set w.pwmPinCount .null }
  | .xenoPWM => { w with dutyArray := w.dutyArray.set w.pwmPinCount (D.fresh args) }

def withDuty (w : World) (pos : Nat) (inside : pos < maxPwmNum) (duty : Int32) : World :=
  { w with dutyArray := w.dutyArray.set pos ({ w.dutyArray[pos] with dutyCycle := duty }) }

end World

variable {D : Driver} {w : World} {args : InitArgs} {pin duty : Int32} {pos : Nat}

theorem modify_newest {ts : List Task} {t : Task} (f : Task → Task) :
    (ts ++ [t]).modify ts.length f = ts ++ [f t] := by
  rw [List.modify_eq_take_cons_drop (by simp)]
  simp

theorem ioctl_created (D : Driver) (args : InitArgs) (room : w.pwmPinCount < maxPwmNum) :
    ∃ tr, D.ioctl .created w (.pwmInit args) = .ok tr (w.opened D args room, 0) := by
  cases D with
  | softPWM =>
      simp [Driver.ioctl, runInit, Driver.initCode, Stmt.exec, subscript, assign, room,
        World.setSlot, World.setRef, World.spawn, World.wake, World.slot, World.opened,
        Driver.fresh, InitArgs.slot, Driver.startPc, Driver.creationDuty, modify_newest]
  | xenoPWM =>
      simp [Driver.ioctl, runInit, Driver.initCode, Stmt.exec, subscript, assign, room,
        World.setSlot, World.setRef, World.spawn, World.slot, World.opened,
        Driver.fresh, InitArgs.slot, Driver.startPc, Driver.creationDuty]

theorem ioctl_failed (D : Driver) (args : InitArgs) (why : Errno)
    (room : w.pwmPinCount < maxPwmNum) :
    ∃ tr, D.ioctl (.failed why) w (.pwmInit args) = .ok tr (w.refused D args room, why.value) := by
  cases D with
  | softPWM =>
      simp [Driver.ioctl, runInit, Driver.initCode, Stmt.exec, subscript, assign, room,
        World.setRef, World.refused]
  | xenoPWM =>
      simp [Driver.ioctl, runInit, Driver.initCode, Stmt.exec, subscript, assign, room,
        World.setSlot, World.slot, World.refused, Driver.fresh, InitArgs.slot,
        Driver.creationDuty]

theorem ioctl_pinSet (D : Driver) (outcome : CreateOutcome) (pin type : Int32) :
    ∃ tr gpio, D.ioctl outcome w (.pinSet pin type) = .ok tr ({ w with gpio := gpio }, 0) := by
  obtain ⟨tr, gpio, run, -⟩ := pinSet_keeps pin type w
  exact ⟨tr, gpio, by simp [Driver.ioctl, run]⟩

theorem ioctl_gpioSet (D : Driver) (outcome : CreateOutcome) (pin status : Int32) :
    ∃ tr gpio, D.ioctl outcome w (.gpioSet pin status) = .ok tr ({ w with gpio := gpio }, 0) := by
  obtain ⟨tr, gpio, run, -⟩ := gpioStatus_keeps pin status w
  exact ⟨tr, gpio, by simp [Driver.ioctl, run]⟩

theorem findPin_eq (w : World) (pin : Int32) {n i : Nat} (inside : i + n ≤ maxPwmNum) :
    ∃ tr, findPin pin w n i = .ok tr
      ((((w.dutyArray.toList.drop i).take n).findIdx? fun slot => slot.pin = pin).map (· + i)) := by
  induction n generalizing i with
  | zero => exact ⟨[], by simp [findPin]⟩
  | succ n ih =>
      have here : i < maxPwmNum := by omega
      have front : (w.dutyArray.toList.drop i).take (n + 1) =
          w.dutyArray[i] :: (w.dutyArray.toList.drop (i + 1)).take n := by
        rw [List.drop_eq_getElem_cons (by simpa using here), List.take_succ_cons]
        rfl
      rw [front, List.findIdx?_cons]
      by_cases found : w.dutyArray[i].pin = pin
      · exact ⟨[.subscript .dutyArray i], by simp [findPin, World.slot_eq here, found]⟩
      · obtain ⟨tr, ran⟩ := ih (i := i + 1) (by omega)
        refine ⟨.subscript .dutyArray i :: tr, ?_⟩
        simp only [findPin, World.slot_eq here, Traced.ok_bind, found, ↓reduceIte, ran,
          Traced.after_ok, List.singleton_append, decide_false, Bool.false_eq_true, Option.map_map]
        congr 2
        funext j
        simp only [Function.comp_apply]
        omega

theorem findPin_eq_find (pin : Int32) (bound : w.pwmPinCount ≤ maxPwmNum) :
    ∃ tr, findPin pin w w.pwmPinCount 0 = .ok tr (w.find pin) := by
  obtain ⟨tr, ran⟩ := findPin_eq w pin (n := w.pwmPinCount) (i := 0) (by omega)
  exact ⟨tr, by simpa [World.find, World.channels] using ran⟩

theorem ioctl_unknown (D : Driver) (outcome : CreateOutcome) (duty : Int32)
    (bound : w.pwmPinCount ≤ maxPwmNum) (absent : w.find pin = none) :
    ∃ tr, D.ioctl outcome w (.pwmSet pin duty) = .ok tr (w, 0) := by
  obtain ⟨tr, ran⟩ := findPin_eq_find pin bound
  exact ⟨tr, by simp [Driver.ioctl, pwmSet, ran, absent]⟩

theorem find_inside (found : w.find pin = some pos) : pos < w.pwmPinCount ∧ pos < maxPwmNum := by
  obtain ⟨below, -⟩ := List.findIdx?_eq_some_iff_getElem.mp found
  simpa [World.channels] using below

theorem ioctl_found (D : Driver) (outcome : CreateOutcome) (duty : Int32)
    (bound : w.pwmPinCount ≤ maxPwmNum) (found : w.find pin = some pos) :
    ∃ tr, D.ioctl outcome w (.pwmSet pin duty) =
      .ok tr (w.withDuty pos (find_inside found).2 duty, 0) := by
  obtain ⟨tr, ran⟩ := findPin_eq_find pin bound
  simp [Driver.ioctl, pwmSet, ran, found, World.setSlot_eq (find_inside found).2, World.withDuty]

/-! ## The threads and the registers -/

def Request.creates : Request → CreateOutcome → Bool
  | .pwmInit _, .created => true
  | _, _ => false

def Request.touches : Request → Bool
  | .pinSet _ type => type == 0 || type == 1
  | .gpioSet _ status => status == 0 || status == 1
  | _ => false

theorem ioctl_room {outcome : CreateOutcome} {tr : List Event} {r : World × Int}
    (run : D.ioctl outcome w (.pwmInit args) = .ok tr r) : w.pwmPinCount < maxPwmNum := by
  cases D with
  | softPWM | xenoPWM =>
      obtain ⟨_, ⟨w', brk⟩, _, ran, -⟩ := Traced.bind_eq_ok.mp run
      exact Stmt.exec_inside ran (by decide)

/-- Everything a whole `PWM_INIT` can do. -/
theorem ioctl_pwmInit {outcome : CreateOutcome} {tr : List Event} {w' : World} {err : Int}
    (run : D.ioctl outcome w (.pwmInit args) = .ok tr (w', err)) :
    ∃ room, (outcome = .created ∧ w' = w.opened D args room ∧ err = 0) ∨
      ∃ why, outcome = .failed why ∧ w' = w.refused D args room ∧ err = why.value := by
  have room := ioctl_room run
  refine ⟨room, ?_⟩
  cases outcome with
  | created =>
      obtain ⟨_, same⟩ := ioctl_created D args room
      cases same.symm.trans run
      exact .inl ⟨rfl, rfl, rfl⟩
  | failed why =>
      obtain ⟨_, same⟩ := ioctl_failed D args why room
      cases same.symm.trans run
      exact .inr ⟨why, rfl, rfl, rfl⟩

theorem ioctl_tasks {req : Request} {outcome : CreateOutcome} {tr : List Event} {w' : World}
    {err : Int} (bound : w.pwmPinCount ≤ maxPwmNum)
    (run : D.ioctl outcome w req = .ok tr (w', err)) :
    (req.creates outcome = true ∧ w'.pwmPinCount = w.pwmPinCount + 1 ∧
      ∃ t, w'.tasks = w.tasks ++ [t] ∧ t.stop = false ∧ t.pc ≠ .returned) ∨
    (req.creates outcome = false ∧ w'.pwmPinCount = w.pwmPinCount ∧ w'.tasks = w.tasks) := by
  cases req with
  | pinSet pin type =>
      obtain ⟨_, gpio, same⟩ := ioctl_pinSet (w := w) D outcome pin type
      cases same.symm.trans run
      exact .inr ⟨rfl, rfl, rfl⟩
  | gpioSet pin status =>
      obtain ⟨_, gpio, same⟩ := ioctl_gpioSet (w := w) D outcome pin status
      cases same.symm.trans run
      exact .inr ⟨rfl, rfl, rfl⟩
  | pwmInit args =>
      obtain ⟨room, ⟨rfl, rfl, -⟩ | ⟨why, rfl, rfl, -⟩⟩ := ioctl_pwmInit run
      · exact .inl ⟨rfl, rfl, _, rfl, rfl, by cases D <;> simp [Driver.startPc]⟩
      · refine .inr ⟨rfl, ?_⟩
        cases D <;> exact ⟨rfl, rfl⟩
  | pwmSet pin duty =>
      refine .inr ⟨rfl, ?_⟩
      cases found : w.find pin with
      | none =>
          obtain ⟨_, same⟩ := ioctl_unknown D outcome duty bound found
          cases same.symm.trans run
          exact ⟨rfl, rfl⟩
      | some pos =>
          obtain ⟨_, same⟩ := ioctl_found D outcome duty bound found
          cases same.symm.trans run
          exact ⟨rfl, rfl⟩

theorem ioctl_kept {req : Request} {outcome : CreateOutcome} {tr : List Event} {w' : World}
    {err : Int} {k : Nat} {t : Task} (bound : w.pwmPinCount ≤ maxPwmNum)
    (run : D.ioctl outcome w req = .ok tr (w', err)) (here : w.tasks[k]? = some t) :
    w'.tasks[k]? = some t := by
  rcases ioctl_tasks bound run with ⟨-, -, new, tasks, -⟩ | ⟨-, -, tasks⟩
  · rw [tasks, List.getElem?_append_left (List.getElem?_eq_some_iff.mp here).1]
    exact here
  · rw [tasks]
    exact here

section
variable {α : Type} {table : Table} {entries : Vector α maxPwmNum} {i : Nat}

theorem subscript_silent : ∀ e ∈ (subscript table entries i).trace, e.Silent := by
  unfold subscript
  split <;> simp [Event.Silent]

theorem assign_silent {entry : α} : ∀ e ∈ (assign table entries i entry).trace, e.Silent := by
  unfold assign
  split <;> simp [Event.Silent]

theorem setSlot_silent {field : Dutycycle → Dutycycle} :
    ∀ e ∈ (w.setSlot i field).trace, e.Silent :=
  Traced.forall_trace_bind subscript_silent fun _ =>
    Traced.forall_trace_bind assign_silent fun _ => by simp

theorem setRef_silent {ref : TaskRef} : ∀ e ∈ (w.setRef i ref).trace, e.Silent :=
  Traced.forall_trace_bind assign_silent fun _ => by simp

end

theorem exec_silent (args : InitArgs) (outcome : CreateOutcome) (w : World) (stmt : Stmt) :
    ∀ e ∈ (stmt.exec args outcome w).trace, e.Silent := by
  cases stmt with
  | kthreadCreate =>
      refine Traced.forall_trace_bind subscript_silent fun name => ?_
      cases outcome <;> exact Traced.forall_trace_bind setRef_silent fun _ => by simp
  | isErr =>
      refine Traced.forall_trace_bind subscript_silent fun ref => ?_
      cases ref with
      | error why => exact Traced.forall_trace_bind setRef_silent fun _ => by simp
      | null | thread => simp
  | setPin | setMin | setMax | setDuty =>
      exact Traced.forall_trace_bind setSlot_silent fun _ => by simp
  | printk => exact Traced.forall_trace_bind subscript_silent fun _ => by simp
  | rtdmPrintk =>
      exact Traced.forall_trace_bind subscript_silent fun _ =>
        Traced.forall_trace_bind subscript_silent fun _ => by simp
  | wakeUp =>
      refine Traced.forall_trace_bind subscript_silent fun ref => ?_
      cases ref <;> simp
  | rtdmTaskInit =>
      refine Traced.forall_trace_bind subscript_silent fun name => ?_
      cases outcome with
      | created => exact Traced.forall_trace_bind setRef_silent fun _ => by simp
      | failed why => exact Traced.forall_trace_bind subscript_silent fun _ => by simp
  | incr => simp [Stmt.exec]

theorem runInit_silent (args : InitArgs) (outcome : CreateOutcome) (todo : List Stmt) (w : World) :
    ∀ e ∈ (runInit args outcome todo w).trace, e.Silent := by
  induction todo generalizing w with
  | nil => simp [runInit]
  | cons stmt rest ih =>
      refine Traced.forall_trace_bind (exec_silent args outcome w stmt) fun r => ?_
      obtain ⟨w', brk⟩ := r
      cases brk with
      | some err => simp
      | none => exact ih w'

theorem findPin_silent (pin : Int32) (w : World) (n i : Nat) :
    ∀ e ∈ (findPin pin w n i).trace, e.Silent := by
  induction n generalizing i with
  | zero => simp [findPin]
  | succ n ih =>
      refine Traced.forall_trace_bind subscript_silent fun slot => ?_
      split
      · simp
      · exact ih (i + 1)

theorem pwmSet_silent (pin duty : Int32) (w : World) :
    ∀ e ∈ (pwmSet pin duty w).trace, e.Silent := by
  refine Traced.forall_trace_bind (findPin_silent pin w _ 0) fun found => ?_
  cases found with
  | none => simp
  | some pos => exact setSlot_silent

theorem actOnPin_touches_iff {zero one : Int32 → Gpio → Traced Access Fault Gpio} {code : Int32}
    {tr : List Event} {w' : World}
    (run : actOnPin zero one pin code w = .ok tr w')
    (loud : (zero pin w.gpio).trace ≠ [] ∧ (one pin w.gpio).trace ≠ []) :
    (code = 0 ∨ code = 1) ↔ ∃ e ∈ tr, ¬ e.Silent := by
  unfold actOnPin at run
  split at run
  · rename_i other
    cases run
    exact iff_of_false (by simpa using other) (by simp)
  · rename_i valid
    refine iff_of_true (by simpa [or_iff_not_imp_left] using valid) ?_
    obtain ⟨first, gpio, second, ran, done, rfl⟩ := Traced.bind_eq_ok.mp run
    obtain ⟨raw, accesses, rfl⟩ := Traced.tag_eq_ok.mp ran
    have some_ : raw ≠ [] := by
      split at accesses
      · simpa [accesses] using loud.1
      · simpa [accesses] using loud.2
    obtain ⟨access, member⟩ := List.exists_mem_of_ne_nil raw some_
    exact ⟨.gpio pin access, by simp [member], by simp [Event.Silent]⟩

/-- A whole request accesses the registers exactly if it is one of the two pin requests
    and its second argument is accepted. -/
theorem ioctl_touches_iff {req : Request} {outcome : CreateOutcome} {tr : List Event}
    {r : World × Int} (run : D.ioctl outcome w req = .ok tr r) :
    req.touches = true ↔ ∃ e ∈ tr, ¬ e.Silent := by
  have none_ : (∀ e ∈ (D.ioctl outcome w req).trace, e.Silent) → ¬ ∃ e ∈ tr, ¬ e.Silent := by
    rw [run]
    rintro silent ⟨e, member, loud⟩
    exact loud (silent e member)
  cases req with
  | pinSet pin type =>
      obtain ⟨first, w', second, ran, done, rfl⟩ := Traced.bind_eq_ok.mp run
      cases done
      rw [pinSet_eq] at ran
      simpa [Request.touches] using actOnPin_touches_iff ran ⟨List.cons_ne_nil _ _, List.cons_ne_nil _ _⟩
  | gpioSet pin status =>
      obtain ⟨first, w', second, ran, done, rfl⟩ := Traced.bind_eq_ok.mp run
      cases done
      rw [gpioStatus_eq] at ran
      simpa [Request.touches] using actOnPin_touches_iff ran ⟨List.cons_ne_nil _ _, List.cons_ne_nil _ _⟩
  | pwmInit args =>
      exact iff_of_false (by simp [Request.touches]) (none_ (runInit_silent args outcome _ w))
  | pwmSet pin duty =>
      exact iff_of_false (by simp [Request.touches])
        (none_ (Traced.forall_trace_bind (pwmSet_silent pin duty w) fun _ => by simp))

/-! ## The active slots -/

theorem length_channels (bound : w.pwmPinCount ≤ maxPwmNum) : w.channels.length = w.pwmPinCount := by
  simpa [World.channels] using bound

theorem getElem?_channels {i : Nat} (below : i < w.pwmPinCount) :
    w.channels[i]? = w.dutyArray[i]? := by
  rw [World.channels, List.getElem?_take_of_lt below, Vector.getElem?_toList]

theorem find_eq_none {pin : Int32}
    (absent : ∀ i < w.pwmPinCount, ∀ slot, w.dutyArray[i]? = some slot → slot.pin ≠ pin) :
    w.find pin = none := by
  rw [World.find, List.findIdx?_eq_none_iff]
  intro slot member
  obtain ⟨i, inside, rfl⟩ := List.mem_iff_getElem.mp member
  have below : i < w.pwmPinCount := by
    simp only [World.channels, List.length_take] at inside
    omega
  simpa using absent i below _ ((getElem?_channels below).symm.trans (List.getElem?_eq_getElem inside))

theorem find_first (below : pos < w.pwmPinCount) (passed : w.tables.Passed pin pos)
    {slot : Dutycycle} (held : w.dutyArray[pos]? = some slot) (same : slot.pin = pin) :
    w.find pin = some pos := by
  have entry : w.channels[pos]? = some slot := (getElem?_channels below).trans held
  obtain ⟨inside, here⟩ := List.getElem?_eq_some_iff.mp entry
  rw [World.find, List.findIdx?_eq_some_iff_getElem]
  refine ⟨inside, by simpa [here] using same, fun j earlier => ?_⟩
  have old : w.dutyArray[j]? = some w.channels[j] :=
    (getElem?_channels (by omega)).symm.trans (List.getElem?_eq_getElem (by omega))
  simpa using passed j earlier _ old

theorem channels_opened (room : w.pwmPinCount < maxPwmNum) :
    (w.opened D args room).channels = w.channels ++ [D.fresh args] := by
  simp only [World.channels, World.opened, Vector.toList_set]
  rw [List.take_add_one, List.take_set_of_le (Nat.le_refl _)]
  simp [room]

theorem channels_refused (room : w.pwmPinCount < maxPwmNum) :
    (w.refused D args room).channels = w.channels := by
  cases D with
  | softPWM => rfl
  | xenoPWM =>
      simp only [World.channels, World.refused, Vector.toList_set]
      rw [List.take_set_of_le (Nat.le_refl _)]

theorem channels_withDuty (found : w.find pin = some pos) :
    (w.withDuty pos (find_inside found).2 duty).channels =
      updateFirst (fun slot => slot.pin = pin) (fun slot => { slot with dutyCycle := duty })
        w.channels := by
  have index : w.channels.findIdx? (fun slot => slot.pin = pin) = some pos := found
  simp only [updateFirst, index]
  apply List.ext_getElem?
  intro i
  rw [List.getElem?_modify]
  by_cases below : i < w.pwmPinCount
  · rw [getElem?_channels below, getElem?_channels (w := w.withDuty _ _ _) below, World.withDuty]
    by_cases same : pos = i
    · subst same
      simp [(find_inside found).2]
    · simp [Vector.getElem?_set_ne _ same, same]
  · have beyond : ∀ v : World, v.pwmPinCount = w.pwmPinCount → v.channels[i]? = none := by
      intro v count
      rw [World.channels, List.getElem?_take, if_neg (by omega)]
    rw [beyond w rfl, beyond (w.withDuty _ _ _) rfl]
    rfl

def Request.onChannels (D : Driver) (req : Request) (outcome : CreateOutcome)
    (slots : List Dutycycle) : List Dutycycle :=
  match req, outcome with
  | .pwmInit args, .created => slots ++ [D.fresh args]
  | .pwmSet pin duty, _ =>
      updateFirst (fun slot => slot.pin = pin) (fun slot => { slot with dutyCycle := duty }) slots
  | _, _ => slots

/-- A whole request that finds room returns, and does that to the active slots. -/
theorem ioctl_channels (D : Driver) (req : Request) (outcome : CreateOutcome)
    (bound : w.pwmPinCount ≤ maxPwmNum) (room : req.isInit = true → w.pwmPinCount < maxPwmNum) :
    ∃ tr w' err, D.ioctl outcome w req = .ok tr (w', err) ∧ w'.pwmPinCount ≤ maxPwmNum ∧
      w'.channels = req.onChannels D outcome w.channels := by
  cases req with
  | pinSet pin type =>
      obtain ⟨tr, gpio, run⟩ := ioctl_pinSet (w := w) D outcome pin type
      exact ⟨tr, _, 0, run, bound, rfl⟩
  | gpioSet pin status =>
      obtain ⟨tr, gpio, run⟩ := ioctl_gpioSet (w := w) D outcome pin status
      exact ⟨tr, _, 0, run, bound, rfl⟩
  | pwmInit args =>
      have free := room rfl
      cases outcome with
      | created =>
          obtain ⟨tr, run⟩ := ioctl_created D args free
          exact ⟨tr, _, 0, run, free, channels_opened free⟩
      | failed why =>
          obtain ⟨tr, run⟩ := ioctl_failed D args why free
          refine ⟨tr, _, _, run, ?_, channels_refused free⟩
          cases D <;> exact bound
  | pwmSet pin duty =>
      cases found : w.find pin with
      | none =>
          obtain ⟨tr, run⟩ := ioctl_unknown D outcome duty bound found
          refine ⟨tr, w, 0, run, bound, ?_⟩
          have index : w.channels.findIdx? (fun slot => slot.pin = pin) = none := found
          simp only [Request.onChannels, updateFirst, index]
      | some pos =>
          obtain ⟨tr, run⟩ := ioctl_found D outcome duty bound found
          exact ⟨tr, _, 0, run, bound, channels_withDuty found⟩

def Request.tableOp (req : Request) (outcome : CreateOutcome) :
    Option (TableOp InitArgs Int32 Int32) :=
  match req, outcome with
  | .pwmInit args, .created => some (.create args)
  | .pwmSet pin duty, _ => some (.write pin duty)
  | _, _ => none

/-- The slot that a row of the table stands for: a row that was never written has the
    duty cycle of its creation. -/
def Driver.row (D : Driver) (row : InitArgs × Option Int32) : Dutycycle :=
  row.1.slot (row.2.getD D.creationDuty)

def World.Holds (D : Driver) (w : World) (rows : List (InitArgs × Option Int32)) : Prop :=
  w.pwmPinCount ≤ maxPwmNum ∧ w.channels = rows.map D.row

theorem onChannels_map_row (D : Driver) (req : Request) (outcome : CreateOutcome)
    (rows : List (InitArgs × Option Int32)) :
    req.onChannels D outcome (rows.map D.row) =
      ((req.tableOp outcome).elim rows (TableOp.apply InitArgs.pin rows)).map D.row := by
  cases req with
  | pinSet | gpioSet => rfl
  | pwmInit args =>
      cases outcome with
      | failed => rfl
      | created => simp [Request.onChannels, Request.tableOp, TableOp.apply, Driver.row, Driver.fresh]
  | pwmSet pin duty => exact updateFirst_map (fun _ => rfl) (fun _ => rfl)

theorem ioctl_holds {rows : List (InitArgs × Option Int32)} (holds : w.Holds D rows)
    (req : Request) (outcome : CreateOutcome)
    (room : req.isInit = true → w.pwmPinCount < maxPwmNum) :
    ∃ tr w' err, D.ioctl outcome w req = .ok tr (w', err) ∧
      w'.Holds D ((req.tableOp outcome).elim rows (TableOp.apply InitArgs.pin rows)) := by
  obtain ⟨tr, w', err, run, bound, channels⟩ := ioctl_channels D req outcome holds.1 room
  refine ⟨tr, w', err, run, bound, ?_⟩
  rw [channels, holds.2, onChannels_map_row]

/-! ## Runs with whole requests -/

theorem Tables.Settled.task {k : Nat} (settled : w.tables.Settled) (below : k < w.pwmPinCount) :
    ∃ t, w.tasks[k]? = some t ∧ t.pos = k ∧ t.pc ≠ .asleep := by
  obtain ⟨slot, creator, -, mine, -⟩ := settled.owned k below
  have owner : (w.tasks[k]?).map Task.owner = some ⟨k, creator, true⟩ := by
    simpa [World.tables] using mine
  obtain ⟨t, here, same⟩ := Option.map_eq_some_iff.mp owner
  exact ⟨t, here, congrArg Owner.pos same, bne_iff_ne.mp (congrArg Owner.awake same)⟩

theorem Tables.Settled.task_pos {k : Nat} {t : Task} (settled : w.tables.Settled)
    (here : w.tasks[k]? = some t) : t.pos = k ∧ k < w.pwmPinCount := by
  have owner : w.tables.owners[k]? = some t.owner := by simp [World.tables, here]
  have below : k < w.pwmPinCount := settled.threads ▸ (List.getElem?_eq_some_iff.mp here).1
  exact ⟨(settled.placed owner).pos, below⟩

theorem mem_channels {slot : Dutycycle} :
    slot ∈ w.channels ↔ ∃ k < w.pwmPinCount, w.dutyArray[k]? = some slot := by
  rw [List.mem_iff_getElem?]
  constructor
  · rintro ⟨k, here⟩
    have below : k < w.pwmPinCount := by
      have inside := (List.getElem?_eq_some_iff.mp here).1
      simp only [World.channels, List.length_take] at inside
      omega
    exact ⟨k, below, (getElem?_channels below).symm.trans here⟩
  · rintro ⟨k, below, held⟩
    exact ⟨k, (getElem?_channels below).trans held⟩

theorem Admits.statements {s : Sys} {label : Label} (admitted : Admits s label) (D : Driver)
    (n : Nat) : D.system.Guarded Admits s (label :: List.replicate n .statement) := by
  refine ⟨admitted, fun _ _ _ => Machine.Guarded.of_forall fun l member _ => ?_⟩
  rw [List.eq_of_mem_replicate member]
  trivial

theorem serialStep_inv {s s' : Sys} {label : Label} {tr : List (Agent × Event)} (inv : s.Inv D)
    (admitted : Admits s label) (taken : s.serialStep D label = some (.ok tr s')) : s'.Inv D := by
  obtain ⟨n, reach⟩ := serialStep_reaches taken
  refine reach.guarded_invariant (admitted.statements D n) inv ?_
  intro s label tr s' inv admits taken
  exact inv.step_ok admits taken

theorem serialStep_admits {s s' : Sys} {label : Label} {tr : List (Agent × Event)}
    (taken : s.serialStep D label = some (.ok tr s')) : Admits s label := by
  cases label with
  | statement | task | exit => trivial
  | request req outcome =>
      cases req with
      | pinSet | gpioSet | pwmSet => trivial
      | pwmInit args =>
          by_cases ready : s.call = none ∧ D.accepts s.exit
          · simp only [Sys.serialStep, ready, and_self, ↓reduceIte, Option.some.injEq] at taken
            obtain ⟨raw, served, -⟩ := Traced.tag_eq_ok.mp taken
            obtain ⟨first, r, second, ran, -⟩ := Traced.bind_eq_ok.mp served
            exact ioctl_room ran
          · simp [Sys.serialStep, ready] at taken

inductive Sys.SerialMove (D : Driver) (s : Sys) :
    Label → List (Agent × Event) → Sys → Prop where
  | request {req outcome raw w err} : D.accepts s.exit →
      D.ioctl outcome s.world req = .ok raw (w, err) →
      SerialMove D s (.request req outcome) ((raw ++ [Event.ret err]).map (Agent.client, ·))
        { s with world := w }
  | task {k swap tr s' t slot pc raw level} : s.TaskStep D k swap tr s' t slot pc raw level →
      SerialMove D s (.task k swap) tr s'
  | exit {raw s'} : ExitMove D s s' raw → s'.call = s.call →
      SerialMove D s .exit (raw.map (Agent.exit, ·)) s'

theorem serialStep_moves {s s' : Sys} {label : Label} {tr : List (Agent × Event)} (inv : s.Inv D)
    (idle : s.call = none) (taken : s.serialStep D label = some (.ok tr s')) :
    s.SerialMove D label tr s' := by
  cases label with
  | statement => cases taken
  | request req outcome =>
      by_cases ready : s.call = none ∧ D.accepts s.exit
      · simp only [Sys.serialStep, ready, and_self, ↓reduceIte, Option.some.injEq] at taken
        obtain ⟨raw, served, rfl⟩ := Traced.tag_eq_ok.mp taken
        obtain ⟨first, ⟨w, err⟩, second, ran, done, rfl⟩ := Traced.bind_eq_ok.mp served
        cases done
        exact .request ready.2 ran
      · simp [Sys.serialStep, ready] at taken
  | task k swap =>
      obtain ⟨y, stepped, shape⟩ := Option.map_eq_some_iff.mp taken
      obtain ⟨t, slot, pc, raw, level, step⟩ := inv.taskStep stepped shape
      exact .task step
  | exit =>
      have taken' : s.step D .exit = some (.ok tr s') := taken
      simp only [Sys.step, idle, ↓reduceIte, Option.map_eq_some_iff] at taken'
      obtain ⟨y, stepped, shape⟩ := taken'
      obtain ⟨raw, s₁, rfl, move, -, -, call⟩ := exitStep_keeps (inv.settled idle) stepped
      cases shape
      exact .exit move call

/-- The label can be taken, and finds room if it is a `PWM_INIT`. -/
def Served (D : Driver) (s : Sys) (label : Label) : Prop :=
  Admits s label ∧ (D.serial.step s label).isSome

instance (D : Driver) : DecidableRel (Served D) :=
  fun _ _ => inferInstanceAs (Decidable (_ ∧ _))

/-- A condition on the requests, in the world in which they are issued. -/
def OnRequest (C : World → Request → CreateOutcome → Prop) (s : Sys) : Label → Prop
  | .request req outcome => C s.world req outcome
  | _ => True

theorem channels_of_tables {w w' : World} (same : w'.tables = w.tables) :
    w'.channels = w.channels := by
  have slots : w'.dutyArray = w.dutyArray := congrArg Tables.dutyArray same
  have count : w'.pwmPinCount = w.pwmPinCount := congrArg Tables.pwmPinCount same
  rw [World.channels, World.channels, slots, count]

def Label.onChannels (D : Driver) (slots : List Dutycycle) : Label → List Dutycycle
  | .request req outcome => req.onChannels D outcome slots
  | _ => slots

/-- A step with whole requests does to the active slots what its request does. -/
theorem serialStep_channels {s : Sys} {label : Label} (inv : s.Inv D) (idle : s.call = none)
    (served : Served D s label) :
    ∃ tr s', D.serial.step s label = some (.ok tr s') ∧ s'.Inv D ∧ s'.call = none ∧
      s'.world.channels = label.onChannels D s.world.channels := by
  obtain ⟨admitted, enabled⟩ := served
  obtain ⟨x, taken⟩ := Option.isSome_iff_exists.mp enabled
  have settled := inv.settled idle
  cases label with
  | statement => cases taken
  | task k swap =>
      have taken' : s.step D (.task k swap) = some x := taken
      cases Sys.step_taken taken' with
      | @task _ _ y stepped =>
          obtain ⟨t, here, -⟩ := Driver.pwmTask_some stepped
          obtain ⟨tr, w', rfl, -, tables⟩ := pwmTask_keeps here (inv.pos_inside here) stepped
          exact ⟨_, { s with world := w' }, taken, by simpa only [Sys.Inv, tables] using inv, idle,
            channels_of_tables tables⟩
  | exit =>
      have taken' : s.step D .exit = some x := taken
      cases Sys.step_taken taken' with
      | @exit y _ stepped =>
          obtain ⟨tr, s', rfl, -, -, tables, call⟩ := exitStep_keeps settled stepped
          refine ⟨_, s', taken, ?_, call.trans idle, channels_of_tables tables⟩
          simpa only [Sys.Inv, call, idle, tables] using inv
  | request req outcome =>
      have room : req.isInit = true → s.world.pwmPinCount < maxPwmNum := by
        intro init
        cases req with
        | pwmInit args => exact admitted
        | pinSet | gpioSet | pwmSet => cases init
      obtain ⟨tr, w', err, run, -, channels⟩ := ioctl_channels D req outcome settled.bound room
      by_cases ready : s.call = none ∧ D.accepts s.exit
      · have step : s.serialStep D (.request req outcome) =
            some (.ok ((tr ++ [Event.ret err]).map (Agent.client, ·)) { s with world := w' }) := by
          simp [Sys.serialStep, ready, Sys.serve, run]
        exact ⟨_, _, step, serialStep_inv inv admitted step, idle, channels⟩
      · simp [Driver.serial, Sys.serialStep, ready] at taken

theorem serialStep_ok {s s' : Sys} {label : Label} {tr : List (Agent × Event)} (inv : s.Inv D)
    (idle : s.call = none) (taken : D.serial.step s label = some (.ok tr s')) :
    s'.Inv D ∧ s'.call = none ∧ s'.world.channels = label.onChannels D s.world.channels := by
  obtain ⟨_, _, step, held⟩ := serialStep_channels inv idle
    ⟨serialStep_admits taken, by simp [taken]⟩
  rw [taken] at step
  cases step
  exact held

theorem serialStep_idle {s s' : Sys} {label : Label} {tr : List (Agent × Event)} (inv : s.Inv D)
    (idle : s.call = none) (taken : D.serial.step s label = some (.ok tr s')) :
    s'.Inv D ∧ s'.call = none :=
  (serialStep_ok inv idle taken).imp_right And.left

theorem serial_reaches_inv {s s' : Sys} {labels : List Label} {tr : List (Agent × Event)}
    (inv : s.Inv D) (idle : s.call = none) (reach : D.serial.Reaches s labels tr s') :
    s'.Inv D ∧ s'.call = none :=
  reach.invariant (I := fun s => s.Inv D ∧ s.call = none) ⟨inv, idle⟩
    (fun held taken => serialStep_idle held.1 held.2 taken)

theorem serial_run_ok {gpio : Gpio} {labels : List Label} {x : Traced (Agent × Event) Fault Sys}
    (admitted : D.serial.Guarded Admits (Sys.load gpio) labels)
    (run : D.serial.run (Sys.load gpio) labels = some x) : ∃ tr s, x = .ok tr s := by
  refine admitted.run_ok (I := fun s => s.Inv D ∧ s.call = none) ⟨Sys.load_inv D gpio, rfl⟩ ?_ run
  rintro s label x ⟨inv, idle⟩ here taken
  obtain ⟨tr, s', step, inv', idle', -⟩ := serialStep_channels inv idle ⟨here, by simp [taken]⟩
  rw [taken, Option.some.injEq] at step
  exact ⟨tr, s', step, inv', idle'⟩

/-- A property of the active slots holds all along a run with whole requests exactly
    when every request meets the condition under which it keeps the property. -/
theorem serial_always_iff {P : Sys → Prop} {R : List Dutycycle → Prop}
    {C : World → Request → CreateOutcome → Prop} {gpio : Gpio} {labels : List Label} (start : R [])
    (seen : ∀ s : Sys, s.world.tables.Settled → (P s ↔ R s.world.channels))
    (exact_request : ∀ (w : World) req outcome, w.tables.Settled → R w.channels →
      (R (req.onChannels D outcome w.channels) ↔ C w req outcome))
    (served : D.serial.Guarded (Served D) (Sys.load gpio) labels) :
    D.serial.Always P (Sys.load gpio) labels ↔
      D.serial.Guarded (OnRequest C) (Sys.load gpio) labels := by
  have held : P (Sys.load gpio) := (seen _ (Tables.load_settled gpio)).mpr start
  refine Machine.always_iff_guarded (I := fun s => s.Inv D ∧ s.call = none)
    ⟨Sys.load_inv D gpio, rfl⟩ held served ?_
  rintro s label ⟨inv, idle⟩ here served
  obtain ⟨tr, s', step, inv', idle', channels⟩ := serialStep_channels inv idle served
  refine ⟨tr, s', step, ⟨inv', idle'⟩, ?_⟩
  have before := (seen s (inv.settled idle)).mp here
  rw [seen s' (inv'.settled idle'), channels]
  cases label with
  | request req outcome => exact exact_request s.world req outcome (inv.settled idle) before
  | statement | task | exit => exact iff_of_true before trivial

end KsoftPWM
