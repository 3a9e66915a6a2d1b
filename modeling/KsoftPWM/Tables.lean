import Mathlib.Data.List.Infix
import KsoftPWM.Model.Ioctl

/-! # Who owns which slot

`Tables` forgets the register block and everything about a thread except the
position it was given, the request that created it and whether it has been woken.
No step of a task changes this view, so an invariant of the view only has to be
checked against the statements of the requests.

Between requests the view is `Settled`: the threads are exactly those of the active
slots, thread `k` at position `k`.  A `PWM_INIT` in progress is `Opening` the slot
at `pwm_pin_count`; what it has already done is read off from the statements it has
still to do, which lets one invariant cover both drivers although they open a slot
in different orders.
-/

namespace KsoftPWM

structure Owner where
  pos : Nat
  creator : InitArgs
  awake : Bool
  deriving Repr, DecidableEq

def Task.owner (t : Task) : Owner := ⟨t.pos, t.creator, t.pc != .asleep⟩

structure Tables where
  dutyArray : Vector Dutycycle maxPwmNum
  taskTable : Vector TaskRef maxPwmNum
  pwmPinCount : Nat
  owners : List Owner

def World.tables (w : World) : Tables :=
  ⟨w.dutyArray, w.taskTable, w.pwmPinCount, w.tasks.map Task.owner⟩

/-- The slot holds the pin, minimum and maximum of the request. -/
def Dutycycle.Serves (slot : Dutycycle) (args : InitArgs) : Prop :=
  slot.pin = args.pin ∧ slot.min = args.min ∧ slot.max = args.max

namespace Tables

/-- Slot `k` is in use: it serves the request that created thread `k`, and the
    table records that thread. -/
def Owned (T : Tables) (k : Nat) : Prop :=
  ∃ slot creator, T.dutyArray[k]? = some slot ∧ T.owners[k]? = some ⟨k, creator, true⟩ ∧
    slot.Serves creator ∧ T.taskTable[k]? = some (.thread k)

structure Established (T : Tables) : Prop where
  bound : T.pwmPinCount ≤ maxPwmNum
  owned : ∀ k < T.pwmPinCount, T.Owned k

structure Settled (T : Tables) : Prop extends Established T where
  count : T.owners.length = T.pwmPinCount
  free : ∀ k, T.pwmPinCount ≤ k → k < maxPwmNum → T.taskTable[k]? = some .null

end Tables

def Driver.creates : Driver → Stmt
  | .softPWM => .kthreadCreate
  | .xenoPWM => .rtdmTaskInit

namespace Tables

/-- How far the thread of the slot being opened has come. -/
def Spawned (D : Driver) (T : Tables) (args : InitArgs) (outcome : CreateOutcome)
    (todo : List Stmt) : Prop :=
  if D.creates ∈ todo then
    T.owners.length = T.pwmPinCount ∧ T.taskTable[T.pwmPinCount]? = some .null
  else
    match outcome with
    | .created =>
        T.owners.length = T.pwmPinCount + 1 ∧
          T.owners[T.pwmPinCount]? = some ⟨T.pwmPinCount, args, !todo.contains .wakeUp⟩ ∧
          T.taskTable[T.pwmPinCount]? = some (.thread T.pwmPinCount)
    | .failed why =>
        T.owners.length = T.pwmPinCount ∧ T.taskTable[T.pwmPinCount]? = some (.error why) ∧
          .isErr ∈ todo

structure Opening (D : Driver) (T : Tables) (args : InitArgs) (outcome : CreateOutcome)
    (todo : List Stmt) : Prop extends Established T where
  room : T.pwmPinCount < maxPwmNum
  code : todo <:+ D.initCode
  pin : ∀ slot, T.dutyArray[T.pwmPinCount]? = some slot → .setPin ∉ todo → slot.pin = args.pin
  min : ∀ slot, T.dutyArray[T.pwmPinCount]? = some slot → .setMin ∉ todo → slot.min = args.min
  max : ∀ slot, T.dutyArray[T.pwmPinCount]? = some slot → .setMax ∉ todo → slot.max = args.max
  spawned : Spawned D T args outcome todo
  free : ∀ k, T.pwmPinCount < k → k < maxPwmNum → T.taskTable[k]? = some .null

variable {D : Driver} {T : Tables} {args : InitArgs} {outcome : CreateOutcome}
  {stmt : Stmt} {rest todo : List Stmt}

theorem load_settled (gpio : Gpio) : (World.load gpio).tables.Settled where
  bound := Nat.zero_le _
  owned := by
    intro k below
    exact absurd below (Nat.not_lt_zero k)
  count := rfl
  free := by
    intro k _ inside
    simp [World.load, World.tables, inside]

theorem Settled.threads {w : World} (settled : w.tables.Settled) :
    w.tasks.length = w.pwmPinCount := by
  simpa [World.tables] using settled.count

theorem Settled.opening (settled : T.Settled) (room : T.pwmPinCount < maxPwmNum)
    (args : InitArgs) (outcome : CreateOutcome) : T.Opening D args outcome D.initCode := by
  have creates : D.creates ∈ D.initCode := by cases D <;> decide
  have pin : .setPin ∈ D.initCode := by cases D <;> decide
  have min : .setMin ∈ D.initCode := by cases D <;> decide
  have max : .setMax ∈ D.initCode := by cases D <;> decide
  exact
    { toEstablished := settled.toEstablished
      room := room
      code := List.suffix_rfl
      pin := fun _ _ absent => absurd pin absent
      min := fun _ _ absent => absurd min absent
      max := fun _ _ absent => absurd max absent
      spawned := by
        simp only [Spawned, creates, ↓reduceIte]
        exact ⟨settled.count, settled.free _ (Nat.le_refl _) room⟩
      free := fun k above inside => settled.free k (by omega) inside }

theorem Established.setSlot (est : T.Established) (room : T.pwmPinCount < maxPwmNum)
    (entry : Dutycycle) :
    Established { T with dutyArray := T.dutyArray.set T.pwmPinCount entry } where
  bound := est.bound
  owned := by
    intro k below
    obtain ⟨slot, creator, held, rest⟩ := est.owned k below
    refine ⟨slot, creator, ?_, rest⟩
    simpa only [Vector.getElem?_set_ne room (Nat.ne_of_gt below)] using held

theorem Established.setRef (est : T.Established) (room : T.pwmPinCount < maxPwmNum)
    (ref : TaskRef) :
    Established { T with taskTable := T.taskTable.set T.pwmPinCount ref } where
  bound := est.bound
  owned := by
    intro k below
    obtain ⟨slot, creator, held, owner, serves, recorded⟩ := est.owned k below
    refine ⟨slot, creator, held, owner, serves, ?_⟩
    simpa only [Vector.getElem?_set_ne room (Nat.ne_of_gt below)] using recorded

theorem Established.spawn (est : T.Established) (owner : Owner) :
    Established { T with owners := T.owners ++ [owner] } where
  bound := est.bound
  owned := by
    intro k below
    obtain ⟨slot, creator, held, mine, rest⟩ := est.owned k below
    exact ⟨slot, creator, held, List.getElem?_append_left (List.getElem?_eq_some_iff.mp mine).1
      |>.trans mine, rest⟩

theorem Spawned.skip (spawned : Spawned D T args outcome (stmt :: rest))
    (create : stmt ≠ D.creates) (wake : stmt ≠ .wakeUp) (check : stmt ≠ .isErr) :
    Spawned D T args outcome rest := by
  have creates : D.creates ∈ stmt :: rest ↔ D.creates ∈ rest := by
    simp [List.mem_cons, create.symm]
  have wakes : (stmt :: rest).contains .wakeUp = rest.contains .wakeUp := by
    simp [wake.symm]
  have checks : .isErr ∈ stmt :: rest ↔ .isErr ∈ rest := by
    simp [List.mem_cons, check.symm]
  simpa only [Spawned, creates, wakes, checks] using spawned

theorem Opening.skip (opening : T.Opening D args outcome (stmt :: rest))
    (create : stmt ≠ D.creates) (wake : stmt ≠ .wakeUp) (check : stmt ≠ .isErr)
    (pin : stmt ≠ .setPin) (min : stmt ≠ .setMin) (max : stmt ≠ .setMax) :
    T.Opening D args outcome rest where
  toEstablished := opening.toEstablished
  room := opening.room
  code := (List.suffix_cons stmt rest).trans opening.code
  pin := fun slot held absent => opening.pin slot held (by simp [pin.symm, absent])
  min := fun slot held absent => opening.min slot held (by simp [min.symm, absent])
  max := fun slot held absent => opening.max slot held (by simp [max.symm, absent])
  spawned := opening.spawned.skip create wake check
  free := opening.free

/-- A statement that writes the slot keeps the opening if the new entry has the
    fields that are due. -/
theorem Opening.write (opening : T.Opening D args outcome (stmt :: rest))
    (create : stmt ≠ D.creates) (wake : stmt ≠ .wakeUp) (check : stmt ≠ .isErr)
    (entry : Dutycycle) (pin : .setPin ∉ rest → entry.pin = args.pin)
    (min : .setMin ∉ rest → entry.min = args.min)
    (max : .setMax ∉ rest → entry.max = args.max) :
    Opening D { T with dutyArray := T.dutyArray.set T.pwmPinCount entry opening.room }
      args outcome rest := by
  have written : ∀ slot,
      (T.dutyArray.set T.pwmPinCount entry opening.room)[T.pwmPinCount]? = some slot →
        slot = entry := by
    intro slot held
    simpa using held.symm
  exact
    { toEstablished := opening.toEstablished.setSlot opening.room entry
      room := opening.room
      code := (List.suffix_cons stmt rest).trans opening.code
      pin := fun slot held absent => written slot held ▸ pin absent
      min := fun slot held absent => written slot held ▸ min absent
      max := fun slot held absent => written slot held ▸ max absent
      spawned := opening.spawned.skip create wake check
      free := opening.free }

end Tables

/-! The statements of a `PWM_INIT` that are left, which are always the last ones of its branch. -/

theorem code_forall {α : Type} {P : List α → Prop} {all todo : List α}
    (ends : ∀ todo ∈ all.tails, P todo) (code : todo <:+ all) : P todo :=
  ends todo ((List.mem_tails _ _).mpr code)

/-- After the creation and the wake-up only the counting is left. -/
theorem code_woken {D : Driver} {todo : List Stmt} (code : todo <:+ D.initCode)
    (created : D.creates ∉ todo) (woken : .wakeUp ∉ todo) : todo = [.incr] ∨ todo = [] := by
  have all : ∀ todo ∈ D.initCode.tails, D.creates ∉ todo ∧ .wakeUp ∉ todo →
      todo = [.incr] ∨ todo = [] := by
    cases D <;> decide
  exact code_forall all code ⟨created, woken⟩

theorem code_written {D : Driver} {todo : List Stmt} (code : todo <:+ D.initCode)
    (created : D.creates ∉ todo) (woken : .wakeUp ∉ todo) :
    .setPin ∉ todo ∧ .setMin ∉ todo ∧ .setMax ∉ todo ∧ .setDuty D.creationDuty ∉ todo := by
  rcases code_woken code created woken with rfl | rfl <;> simp

theorem code_kthreadCreate {D : Driver} {rest : List Stmt}
    (code : .kthreadCreate :: rest <:+ D.initCode) :
    D = .softPWM ∧ rest = [.isErr, .setPin, .setMin, .setMax, .setDuty 0, .printk, .wakeUp,
      .incr] := by
  cases D with
  | softPWM => simpa [Driver.initCode, List.suffix_cons_iff] using code
  | xenoPWM => simp [Driver.initCode, List.suffix_cons_iff] at code

theorem code_isErr {D : Driver} {rest : List Stmt} (code : .isErr :: rest <:+ D.initCode) :
    D = .softPWM ∧ rest = [.setPin, .setMin, .setMax, .setDuty 0, .printk, .wakeUp, .incr] := by
  cases D with
  | softPWM => simpa [Driver.initCode, List.suffix_cons_iff] using code
  | xenoPWM => simp [Driver.initCode, List.suffix_cons_iff] at code

theorem code_wakeUp {D : Driver} {rest : List Stmt} (code : .wakeUp :: rest <:+ D.initCode) :
    D = .softPWM ∧ rest = [.incr] := by
  cases D with
  | softPWM => simpa [Driver.initCode, List.suffix_cons_iff] using code
  | xenoPWM => simp [Driver.initCode, List.suffix_cons_iff] at code

theorem code_rtdmTaskInit {D : Driver} {rest : List Stmt}
    (code : .rtdmTaskInit :: rest <:+ D.initCode) : D = .xenoPWM ∧ rest = [.incr] := by
  cases D with
  | softPWM => simp [Driver.initCode, List.suffix_cons_iff] at code
  | xenoPWM => simpa [Driver.initCode, List.suffix_cons_iff] using code

theorem code_incr {D : Driver} {rest : List Stmt} (code : .incr :: rest <:+ D.initCode) :
    rest = [] := by
  cases D <;> simpa [Driver.initCode, List.suffix_cons_iff] using code

namespace Tables

variable {D : Driver} {T : Tables} {args : InitArgs} {outcome : CreateOutcome}
  {stmt : Stmt} {rest todo : List Stmt} {why : Errno}

def withThread (T : Tables) (args : InitArgs) (awake : Bool)
    (room : T.pwmPinCount < maxPwmNum) : Tables :=
  { T with
    taskTable := T.taskTable.set T.pwmPinCount (.thread T.owners.length)
    owners := T.owners ++ [⟨T.pwmPinCount, args, awake⟩] }

theorem Opening.unspawned (opening : T.Opening D args outcome (D.creates :: rest)) :
    T.owners.length = T.pwmPinCount ∧ T.taskTable[T.pwmPinCount]? = some .null := by
  simpa [Spawned] using opening.spawned

theorem Opening.create (opening : T.Opening D args .created (D.creates :: rest))
    (once : D.creates ∉ rest) (fields : D.creates ≠ .setPin ∧ D.creates ≠ .setMin ∧
      D.creates ≠ .setMax) :
    Opening D (T.withThread args (!rest.contains .wakeUp) opening.room) args .created rest := by
  obtain ⟨length, -⟩ := opening.unspawned
  have established : Established (T.withThread args (!rest.contains .wakeUp) opening.room) :=
    (opening.toEstablished.spawn _).setRef opening.room _
  exact
    { toEstablished := established
      room := opening.room
      code := (List.suffix_cons _ rest).trans opening.code
      pin := fun slot held absent => opening.pin slot held (by simp [fields.1.symm, absent])
      min := fun slot held absent => opening.min slot held (by simp [fields.2.1.symm, absent])
      max := fun slot held absent => opening.max slot held (by simp [fields.2.2.symm, absent])
      spawned := by
        simp only [Spawned, once, ↓reduceIte, withThread, List.length_append, length,
          List.length_singleton, Vector.getElem?_set_self, and_true, true_and]
        rw [← length, List.getElem?_concat_length]
      free := by
        intro k above inside
        simpa only [withThread, Vector.getElem?_set_ne opening.room (Nat.ne_of_lt above)] using
          opening.free k above inside }

theorem Opening.fail (opening : T.Opening .softPWM args (.failed why) (.kthreadCreate :: rest))
    (rest_eq : rest = [.isErr, .setPin, .setMin, .setMax, .setDuty 0, .printk, .wakeUp, .incr]) :
    Opening .softPWM { T with taskTable := T.taskTable.set T.pwmPinCount (.error why) opening.room }
      args (.failed why) rest := by
  obtain ⟨length, -⟩ := opening.unspawned (D := .softPWM)
  exact
    { toEstablished := opening.toEstablished.setRef opening.room _
      room := opening.room
      code := (List.suffix_cons _ rest).trans opening.code
      pin := fun slot held absent => opening.pin slot held (by simp [absent])
      min := fun slot held absent => opening.min slot held (by simp [absent])
      max := fun slot held absent => opening.max slot held (by simp [absent])
      spawned := by
        subst rest_eq
        simpa [Spawned, Driver.creates] using length
      free := by
        intro k above inside
        simpa only [Vector.getElem?_set_ne opening.room (Nat.ne_of_lt above)] using
          opening.free k above inside }

/-- Once the error pointer is taken back nothing of the request is left. -/
theorem Opening.withdraw (opening : T.Opening .softPWM args (.failed why) (.isErr :: rest))
    (rest_eq : rest = [.setPin, .setMin, .setMax, .setDuty 0, .printk, .wakeUp, .incr]) :
    Settled { T with taskTable := T.taskTable.set T.pwmPinCount .null opening.room } := by
  subst rest_eq
  have spawned := opening.spawned
  simp only [Spawned, Driver.creates, List.mem_cons, reduceCtorEq, List.not_mem_nil, or_self,
    ↓reduceIte] at spawned
  exact
    { toEstablished := opening.toEstablished.setRef opening.room _
      count := spawned.1
      free := by
        intro k from_ inside
        rcases Nat.eq_or_lt_of_le from_ with rfl | above
        · simp only [Vector.getElem?_set_self]
        · simpa only [Vector.getElem?_set_ne opening.room (Nat.ne_of_lt above)] using
            opening.free k above inside }

theorem Opening.refuse (opening : T.Opening .xenoPWM args outcome (.rtdmTaskInit :: rest)) :
    T.Settled := by
  obtain ⟨length, null⟩ := opening.unspawned (D := .xenoPWM)
  exact
    { toEstablished := opening.toEstablished
      count := length
      free := by
        intro k from_ inside
        rcases Nat.eq_or_lt_of_le from_ with rfl | above
        · exact null
        · exact opening.free k above inside }

theorem Opening.thread (opening : T.Opening D args outcome todo) (past : D.creates ∉ todo)
    (checked : .isErr ∉ todo) :
    outcome = .created ∧ T.owners.length = T.pwmPinCount + 1 ∧
      T.owners[T.pwmPinCount]? = some ⟨T.pwmPinCount, args, !todo.contains .wakeUp⟩ ∧
      T.taskTable[T.pwmPinCount]? = some (.thread T.pwmPinCount) := by
  have spawned := opening.spawned
  cases outcome with
  | created =>
      simp only [Spawned, past, ↓reduceIte] at spawned
      exact ⟨rfl, spawned⟩
  | failed why =>
      simp only [Spawned, past, ↓reduceIte] at spawned
      exact absurd spawned.2.2 checked

def woken (T : Tables) (k : Nat) : Tables :=
  { T with owners := T.owners.modify k fun owner => { owner with awake := true } }

theorem Opening.wake (opening : T.Opening .softPWM args outcome [.wakeUp, .incr]) :
    Opening .softPWM (T.woken T.pwmPinCount) args outcome [.incr] := by
  obtain ⟨rfl, length, owner, recorded⟩ := opening.thread (by decide) (by decide)
  have established : Established (T.woken T.pwmPinCount) :=
    { bound := opening.bound
      owned := by
        intro k below
        change k < T.pwmPinCount at below
        obtain ⟨slot, creator, held, mine, rest⟩ := opening.owned k below
        exact ⟨slot, creator, held,
          (List.getElem?_modify_ne _ _ (Nat.ne_of_gt below)).trans mine, rest⟩ }
  have awake : (T.woken T.pwmPinCount).owners[T.pwmPinCount]? =
      some ⟨T.pwmPinCount, args, true⟩ := by
    simp only [woken, List.getElem?_modify_eq, owner, Option.map_eq_map, Option.map_some]
  exact
    { toEstablished := established
      room := opening.room
      code := (List.suffix_cons _ _).trans opening.code
      pin := fun slot held _ => opening.pin slot held (by decide)
      min := fun slot held _ => opening.min slot held (by decide)
      max := fun slot held _ => opening.max slot held (by decide)
      spawned := by
        have length' : (T.woken T.pwmPinCount).owners.length = T.pwmPinCount + 1 := by
          simpa only [woken, List.length_modify] using length
        exact ⟨length', awake, recorded⟩
      free := opening.free }

/-- Counting the slot in completes the request. -/
theorem Opening.incr (opening : T.Opening D args outcome [.incr]) :
    Settled { T with pwmPinCount := T.pwmPinCount + 1 } := by
  have past : D.creates ∉ [.incr] := by cases D <;> decide
  obtain ⟨rfl, length, owner, recorded⟩ := opening.thread past (by decide)
  have room := opening.room
  have held : T.dutyArray[T.pwmPinCount]? = some T.dutyArray[T.pwmPinCount] :=
    Vector.getElem?_eq_getElem room
  exact
    { bound := opening.room
      owned := by
        intro k below
        rcases Nat.eq_or_lt_of_le (Nat.le_of_lt_succ below) with rfl | before
        · exact ⟨_, args, held, owner, ⟨opening.pin _ held (by decide),
            opening.min _ held (by decide), opening.max _ held (by decide)⟩, recorded⟩
        · exact opening.owned k before
      count := length
      free := opening.free }

def Progress (D : Driver) (T : Tables) (args : InitArgs) (outcome : CreateOutcome) :
    List Stmt → Option Int → Prop
  | _, some _ => T.Settled
  | [], none => T.Settled
  | stmt :: rest, none => T.Opening D args outcome (stmt :: rest)

theorem Opening.progress (opening : T.Opening D args outcome rest) (more : rest ≠ []) :
    Progress D T args outcome rest none := by
  cases rest with
  | nil => exact absurd rfl more
  | cons stmt rest => exact opening

end Tables

theorem code_more {D : Driver} {stmt : Stmt} {rest : List Stmt}
    (code : stmt :: rest <:+ D.initCode) (notLast : stmt ≠ .incr) : rest ≠ [] := by
  rintro rfl
  cases D with
  | softPWM => simp [Driver.initCode, List.suffix_cons_iff, notLast] at code
  | xenoPWM => simp [Driver.initCode, List.suffix_cons_iff, notLast] at code

section
variable {D : Driver} {w : World} {args : InitArgs} {outcome : CreateOutcome} {stmt : Stmt}
  {rest : List Stmt}

theorem tables_wake (w : World) (k : Nat) : (w.wake k).tables = w.tables.woken k := by
  simp only [World.tables, World.wake, Tables.woken, Tables.mk.injEq, true_and]
  apply List.ext_getElem?
  intro i
  simp only [List.getElem?_map, List.getElem?_modify]
  cases w.tasks[i]? with
  | none => rfl
  | some t =>
      by_cases same : k = i <;> by_cases asleep : t.pc = .asleep <;>
        simp [same, asleep, Task.owner]

theorem tables_spawn (name : String) (args : InitArgs) (pc : TaskPc)
    (room : w.pwmPinCount < maxPwmNum) :
    ({ w.spawn name args pc with
        taskTable := w.taskTable.set w.pwmPinCount (.thread w.tasks.length) } : World).tables =
      w.tables.withThread args (pc != .asleep) room := by
  simp [World.tables, World.spawn, Tables.withThread, Task.owner]

/-- The statement stays within the tables and takes the opening one statement
    further, or ends it. -/
def Stmt.Advances (D : Driver) (args : InitArgs) (outcome : CreateOutcome) (w : World)
    (stmt : Stmt) (rest : List Stmt) : Prop :=
  ∃ tr w' brk, stmt.exec args outcome w = .ok tr (w', brk) ∧ (∀ e ∈ tr, e.InBounds) ∧
    w'.tables.Progress D args outcome rest brk

theorem kthreadCreate_advances
    (opening : w.tables.Opening D args outcome (.kthreadCreate :: rest)) :
    Stmt.kthreadCreate.Advances D args outcome w rest := by
  have room : w.pwmPinCount < maxPwmNum := opening.room
  obtain ⟨rfl, rfl⟩ := code_kthreadCreate opening.code
  cases outcome with
  | created =>
      refine ⟨_, _, _, Stmt.exec_kthreadCreate_created room, by simp [Event.InBounds, room], ?_⟩
      rw [tables_spawn _ _ _ room]
      exact opening.create (D := .softPWM) (by decide) (by decide)
  | failed why =>
      refine ⟨_, _, _, Stmt.exec_kthreadCreate_failed room, by simp [Event.InBounds, room], ?_⟩
      exact opening.fail rfl

theorem isErr_advances (opening : w.tables.Opening D args outcome (.isErr :: rest)) :
    Stmt.isErr.Advances D args outcome w rest := by
  have room : w.pwmPinCount < maxPwmNum := opening.room
  obtain ⟨rfl, rfl⟩ := code_isErr opening.code
  have entry : w.tables.taskTable[w.tables.pwmPinCount]? = some w.taskTable[w.pwmPinCount] :=
    Vector.getElem?_eq_getElem room
  have spawned := opening.spawned
  cases outcome with
  | created =>
      have recorded : w.taskTable[w.pwmPinCount] = .thread w.pwmPinCount := by
        have thread := spawned.2.2
        rw [entry, Option.some.injEq] at thread
        exact thread
      have valid : ∀ why, w.taskTable[w.pwmPinCount] ≠ .error why := by
        intro why clash
        simp [recorded] at clash
      refine ⟨_, _, _, Stmt.exec_isErr_valid room valid, by simp [Event.InBounds, room], ?_⟩
      exact
        { toEstablished := opening.toEstablished
          room := room
          code := (List.suffix_cons _ _).trans opening.code
          pin := fun _ _ absent => absurd (by decide) absent
          min := fun _ _ absent => absurd (by decide) absent
          max := fun _ _ absent => absurd (by decide) absent
          spawned := spawned
          free := opening.free }
  | failed why =>
      have failed : w.taskTable[w.pwmPinCount] = .error why := by
        have error := spawned.2.1
        rw [entry, Option.some.injEq] at error
        exact error
      refine ⟨_, _, _, Stmt.exec_isErr_error room failed, by simp [Event.InBounds, room], ?_⟩
      exact opening.withdraw rfl

theorem wakeUp_advances (opening : w.tables.Opening D args outcome (.wakeUp :: rest)) :
    Stmt.wakeUp.Advances D args outcome w rest := by
  have room : w.pwmPinCount < maxPwmNum := opening.room
  obtain ⟨rfl, rfl⟩ := code_wakeUp opening.code
  obtain ⟨rfl, -, -, recorded⟩ := opening.thread (by decide) (by decide)
  have thread : w.taskTable[w.pwmPinCount] = .thread w.pwmPinCount :=
    Option.some.inj ((Vector.getElem?_eq_getElem room).symm.trans recorded)
  refine ⟨_, _, _, Stmt.exec_wakeUp room thread, by simp [Event.InBounds, room], ?_⟩
  rw [tables_wake]
  exact opening.wake

theorem rtdmTaskInit_advances
    (opening : w.tables.Opening D args outcome (.rtdmTaskInit :: rest)) :
    Stmt.rtdmTaskInit.Advances D args outcome w rest := by
  have room : w.pwmPinCount < maxPwmNum := opening.room
  obtain ⟨rfl, rfl⟩ := code_rtdmTaskInit opening.code
  cases outcome with
  | created =>
      refine ⟨_, _, _, Stmt.exec_rtdmTaskInit_created room, by simp [Event.InBounds, room], ?_⟩
      rw [tables_spawn _ _ _ room]
      exact opening.create (D := .xenoPWM) (by decide) (by decide)
  | failed why =>
      refine ⟨_, _, _, Stmt.exec_rtdmTaskInit_failed room, by simp [Event.InBounds, room], ?_⟩
      exact opening.refuse

/-- A `PWM_INIT` that has room never goes wrong. -/
theorem Tables.Opening.advances (opening : w.tables.Opening D args outcome (stmt :: rest)) :
    stmt.Advances D args outcome w rest := by
  have room : w.pwmPinCount < maxPwmNum := opening.room
  have held : w.tables.dutyArray[w.tables.pwmPinCount]? = some w.dutyArray[w.pwmPinCount] :=
    Vector.getElem?_eq_getElem room
  have pin := opening.pin _ held
  have min := opening.min _ held
  have max := opening.max _ held
  have more := code_more opening.code
  cases stmt with
  | kthreadCreate => exact kthreadCreate_advances opening
  | isErr => exact isErr_advances opening
  | wakeUp => exact wakeUp_advances opening
  | rtdmTaskInit => exact rtdmTaskInit_advances opening
  | setPin =>
      have next := opening.write (by cases D <;> decide) (by decide) (by decide)
        ({ w.dutyArray[w.pwmPinCount] with pin := args.pin })
        (fun _ => rfl)
        (fun absent => min (by simp [absent]))
        (fun absent => max (by simp [absent]))
      exact ⟨_, _, _, Stmt.exec_setPin room, by simp [Event.InBounds, room],
        next.progress (more (by decide))⟩
  | setMin =>
      have next := opening.write (by cases D <;> decide) (by decide) (by decide)
        ({ w.dutyArray[w.pwmPinCount] with min := args.min })
        (fun absent => pin (by simp [absent]))
        (fun _ => rfl)
        (fun absent => max (by simp [absent]))
      exact ⟨_, _, _, Stmt.exec_setMin room, by simp [Event.InBounds, room],
        next.progress (more (by decide))⟩
  | setMax =>
      have next := opening.write (by cases D <;> decide) (by decide) (by decide)
        ({ w.dutyArray[w.pwmPinCount] with max := args.max })
        (fun absent => pin (by simp [absent]))
        (fun absent => min (by simp [absent]))
        (fun _ => rfl)
      exact ⟨_, _, _, Stmt.exec_setMax room, by simp [Event.InBounds, room],
        next.progress (more (by decide))⟩
  | setDuty value =>
      have next := opening.write (by cases D <;> simp [Driver.creates]) (by simp) (by simp)
        ({ w.dutyArray[w.pwmPinCount] with dutyCycle := value })
        (fun absent => pin (by simp [absent]))
        (fun absent => min (by simp [absent]))
        (fun absent => max (by simp [absent]))
      exact ⟨_, _, _, Stmt.exec_setDuty room, by simp [Event.InBounds, room],
        next.progress (more (by simp))⟩
  | printk =>
      have next := opening.skip (by cases D <;> decide) (by decide) (by decide) (by decide)
        (by decide) (by decide)
      exact ⟨_, _, _, Stmt.exec_printk room, by simp [Event.InBounds, room],
        next.progress (more (by decide))⟩
  | rtdmPrintk =>
      have next := opening.skip (by cases D <;> decide) (by decide) (by decide) (by decide)
        (by decide) (by decide)
      exact ⟨_, _, _, Stmt.exec_rtdmPrintk room, by simp [Event.InBounds, room],
        next.progress (more (by decide))⟩
  | incr =>
      obtain rfl := code_incr opening.code
      exact ⟨_, _, _, Stmt.exec_incr args outcome w, by simp, opening.incr⟩

end

end KsoftPWM
