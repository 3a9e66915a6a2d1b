import KsoftPWM.Model.Concurrent

/-! # `PWM_INIT` requests that race

`pwm_pin_count` is a plain `int` that no lock protects, and `pwm_pin_count++` is a load and a
store.  Here every access to it and to the tables is a step of its own, so that the requests of
other clients may come in between: a client keeps what it has read of `pwm_pin_count` and
subscripts a table, creates a task or stores the next count with it later.  C leaves the order
of the reads in one statement open; here the subscript of the entry that is written comes last.

`task_array` of xenoPWM holds the task objects themselves, so `rtdm_task_init` goes wrong on an
entry whose task is in use.  A return is noted in the step of the last access, as it is where
requests to open a channel do not race.
-/

namespace KsoftPWM

/-- One access of a `PWM_INIT` branch. -/
inductive InitOp where
  /-- Read `pwm_pin_count` to subscript a table with it, to print it or to count on from it. -/
  | index
  /-- Read `pwm_pin_count` for the argument of the new task. -/
  | position
  | name
  | kthreadCreate
  /-- Store what `kthread_create` has returned. -/
  | storeTask
  | isErr
  | ptrErr
  | storeNull
  | setPin
  | setMin
  | setMax
  | setDuty (value : Int32)
  | printField
  | wakeUp
  | rtdmTaskInit
  | storeCount
  deriving Repr, DecidableEq

def Stmt.ops : Stmt → List InitOp
  | .kthreadCreate => [.position, .index, .name, .kthreadCreate, .index, .storeTask]
  | .isErr => [.index, .isErr]
  | .setPin => [.index, .setPin]
  | .setMin => [.index, .setMin]
  | .setMax => [.index, .setMax]
  | .setDuty value => [.index, .setDuty value]
  | .printk => (List.replicate 4 [.index, .printField]).flatten
  | .rtdmPrintk => (List.replicate 4 [.index, .printField]).flatten ++ [.index, .name]
  | .wakeUp => [.index, .wakeUp]
  | .rtdmTaskInit => [.index, .name, .position, .index, .rtdmTaskInit]
  | .incr => [.index, .storeCount]

def Driver.initOps (D : Driver) : List InitOp := D.initCode.flatMap Stmt.ops

/-- The rest of the branch once `IS_ERR` has held: `printk`, `err = PTR_ERR(...)` and
    `... = NULL`. -/
def failedOps : List InitOp := [.index, .index, .ptrErr, .index, .storeNull]

/-- `PTR_ERR`: the pointer as a number. -/
def TaskRef.ptrErr (address : Nat → Int) : TaskRef → Int
  | .null => 0
  | .error why => why.value
  | .thread k => address k

def World.spawnAt (w : World) (pos : Nat) (name : String) (creator : InitArgs) (pc : TaskPc) : World :=
  { w with tasks := w.tasks ++ [⟨pos, name, creator, false, pc⟩] }

/-- A `PWM_INIT` in flight: what it has read and is still going to do. -/
structure Opener where
  args : InitArgs
  outcome : CreateOutcome
  index : Nat
  position : Nat
  name : String
  task : TaskRef
  err : Int
  todo : List InitOp
  deriving Repr, DecidableEq

namespace Opener

def start (D : Driver) (outcome : CreateOutcome) (args : InitArgs) : Opener :=
  ⟨args, outcome, 0, 0, "", .null, 0, D.initOps⟩

/-- Make one access. -/
def exec (address : Nat → Int) (w : World) (o : Opener) : InitOp → Kernel (World × Opener)
  | .index => pure (w, { o with index := w.pwmPinCount })
  | .position => pure (w, { o with position := w.pwmPinCount })
  | .name => do
      let name ← subscript .taskName taskName o.index
      pure (w, { o with name := name })
  | .kthreadCreate =>
      match o.outcome with
      | .created => pure (w.spawnAt o.position o.name o.args .asleep,
          { o with task := .thread w.tasks.length })
      | .failed why => pure (w, { o with task := .error why })
  | .storeTask => do
      let w' ← w.setRef o.index o.task
      pure (w', o)
  | .isErr => do
      match ← subscript .taskTable w.taskTable o.index with
      | .error _ => pure (w, { o with todo := failedOps })
      | _ => pure (w, o)
  | .ptrErr => do
      let ref ← subscript .taskTable w.taskTable o.index
      pure (w, { o with err := ref.ptrErr address })
  | .storeNull => do
      let w' ← w.setRef o.index .null
      pure (w', o)
  | .setPin => do
      let w' ← w.setSlot o.index fun slot => { slot with pin := o.args.pin }
      pure (w', o)
  | .setMin => do
      let w' ← w.setSlot o.index fun slot => { slot with min := o.args.min }
      pure (w', o)
  | .setMax => do
      let w' ← w.setSlot o.index fun slot => { slot with max := o.args.max }
      pure (w', o)
  | .setDuty value => do
      let w' ← w.setSlot o.index fun slot => { slot with dutyCycle := value }
      pure (w', o)
  | .printField => do
      let _ ← w.slot o.index
      pure (w, o)
  | .wakeUp => do
      match ← subscript .taskTable w.taskTable o.index with
      | .thread k => pure (w.wake k, o)
      | ref => .fault [] (.notAThread ref)
  | .rtdmTaskInit =>
      match o.outcome with
      | .created => do
          let w' ← (w.spawnAt o.position o.name o.args .entry).setRef o.index
            (.thread w.tasks.length)
          pure (w', o)
      | .failed why => do
          let _ ← subscript .taskTable w.taskTable o.index
          -- the `printk` of the number is all that is left
          pure (w, { o with err := why.value, todo := [.index] })
  | .storeCount => pure ({ w with pwmPinCount := o.index + 1 }, o)

section
variable {address : Nat → Int} {w : World} {o : Opener} {why : Errno} {k : Nat}

theorem exec_kthreadCreate_created (made : o.outcome = .created) :
    o.exec address w .kthreadCreate = .ok []
      (w.spawnAt o.position o.name o.args .asleep, { o with task := .thread w.tasks.length }) := by
  rw [exec, made]
  rfl

theorem exec_kthreadCreate_failed (made : o.outcome = .failed why) :
    o.exec address w .kthreadCreate = .ok [] (w, { o with task := .error why }) := by
  rw [exec, made]
  rfl

variable (inside : o.index < maxPwmNum)

include inside

theorem exec_name :
    o.exec address w .name = .ok [.subscript .taskName o.index]
      (w, { o with name := taskName[o.index] }) := by
  simp [exec, subscript_eq inside]

theorem exec_storeTask :
    o.exec address w .storeTask = .ok [.subscript .taskTable o.index]
      ({ w with taskTable := w.taskTable.set o.index o.task }, o) := by
  simp [exec, World.setRef_eq inside]

theorem exec_storeNull :
    o.exec address w .storeNull = .ok [.subscript .taskTable o.index]
      ({ w with taskTable := w.taskTable.set o.index .null }, o) := by
  simp [exec, World.setRef_eq inside]

theorem exec_isErr_error (failed : w.taskTable[o.index] = .error why) :
    o.exec address w .isErr = .ok [.subscript .taskTable o.index]
      (w, { o with todo := failedOps }) := by
  simp [exec, subscript_eq inside, failed]

theorem exec_isErr_valid (valid : ∀ why, w.taskTable[o.index] ≠ .error why) :
    o.exec address w .isErr = .ok [.subscript .taskTable o.index] (w, o) := by
  cases held : w.taskTable[o.index] with
  | error why => exact absurd held (valid why)
  | null | thread => simp [exec, subscript_eq inside, held]

theorem exec_ptrErr :
    o.exec address w .ptrErr = .ok [.subscript .taskTable o.index]
      (w, { o with err := w.taskTable[o.index].ptrErr address }) := by
  simp [exec, subscript_eq inside]

theorem exec_setPin :
    o.exec address w .setPin = .ok [.subscript .dutyArray o.index, .subscript .dutyArray o.index]
      ({ w with
          dutyArray := w.dutyArray.set o.index { w.dutyArray[o.index] with pin := o.args.pin } },
        o) := by
  simp [exec, World.setSlot_eq inside]

theorem exec_setMin :
    o.exec address w .setMin = .ok [.subscript .dutyArray o.index, .subscript .dutyArray o.index]
      ({ w with
          dutyArray := w.dutyArray.set o.index { w.dutyArray[o.index] with min := o.args.min } },
        o) := by
  simp [exec, World.setSlot_eq inside]

theorem exec_setMax :
    o.exec address w .setMax = .ok [.subscript .dutyArray o.index, .subscript .dutyArray o.index]
      ({ w with
          dutyArray := w.dutyArray.set o.index { w.dutyArray[o.index] with max := o.args.max } },
        o) := by
  simp [exec, World.setSlot_eq inside]

theorem exec_setDuty {value : Int32} :
    o.exec address w (.setDuty value) =
      .ok [.subscript .dutyArray o.index, .subscript .dutyArray o.index]
        ({ w with
            dutyArray := w.dutyArray.set o.index { w.dutyArray[o.index] with dutyCycle := value } },
          o) := by
  simp [exec, World.setSlot_eq inside]

theorem exec_printField :
    o.exec address w .printField = .ok [.subscript .dutyArray o.index] (w, o) := by
  simp [exec, World.slot_eq inside]

theorem exec_wakeUp (thread : w.taskTable[o.index] = .thread k) :
    o.exec address w .wakeUp = .ok [.subscript .taskTable o.index] (w.wake k, o) := by
  simp [exec, subscript_eq inside, thread]

theorem exec_wakeUp_wrong (other : ∀ k, w.taskTable[o.index] ≠ .thread k) :
    o.exec address w .wakeUp =
      .fault [.subscript .taskTable o.index] (.notAThread w.taskTable[o.index]) := by
  cases held : w.taskTable[o.index] with
  | thread k => exact absurd held (other k)
  | null | error => simp [exec, subscript_eq inside, held]

theorem exec_rtdmTaskInit_created (made : o.outcome = .created) :
    o.exec address w .rtdmTaskInit = .ok [.subscript .taskTable o.index]
      ({ w.spawnAt o.position o.name o.args .entry with
        taskTable := w.taskTable.set o.index (.thread w.tasks.length) }, o) := by
  simp [exec, made, World.setRef_eq inside, World.spawnAt]

theorem exec_rtdmTaskInit_failed (made : o.outcome = .failed why) :
    o.exec address w .rtdmTaskInit = .ok [.subscript .taskTable o.index]
      (w, { o with err := why.value, todo := [.index] }) := by
  simp [exec, made, subscript_eq inside]

end

/-- The access is a `rtdm_task_init` on a task that is in use. -/
def reuses (w : World) (o : Opener) (op : InitOp) : Bool :=
  match op, w.taskTable[o.index]? with
  | .rtdmTaskInit, some (.thread _) => true
  | _, _ => false

end Opener

/-- What goes wrong where requests race. -/
inductive RaceFault where
  | kernel (why : Fault)
  /-- `rtdm_task_init` on the object of a task that is in use. -/
  | inUse (index : Nat)
  deriving Repr, DecidableEq

def Opener.step (address : Nat → Int) (w : World) (o : Opener) :
    Traced Event RaceFault (World × Opener) :=
  match o.todo with
  | [] => pure (w, o)
  | op :: rest =>
      if o.reuses w op then .fault [.subscript .taskTable o.index] (.inUse o.index)
      else (Opener.exec address w { o with todo := rest } op).mapFault .kernel

inductive RacerPc where
  | opening (o : Opener)
  /-- At `i < pwm_pin_count`. -/
  | scan (pin duty : Int32) (i : Nat)
  /-- At `duty_array[i].pin == tmp[0]`. -/
  | look (pin duty : Int32) (i : Nat)
  | other (pc : ClientPc)
  deriving Repr, DecidableEq

namespace RacerPc

def returned (err : Int) : RacerPc := .other (.before (.returned err))

def start (D : Driver) (outcome : CreateOutcome) : Request → RacerPc
  | .pwmInit args => .opening (.start D outcome args)
  | .pwmSet pin duty => .scan pin duty 0
  | .pinSet pin type => .other (.before (.pinSet pin type))
  | .gpioSet pin status => .other (.before (.gpioSet pin status))

/-- Where a `PWM_INIT` is after an access. -/
def resume (o : Opener) : RacerPc := if o.todo = [] then .returned o.err else .opening o

def step (address : Nat → Int) (w : World) : RacerPc → Traced Event RaceFault (World × RacerPc)
  | .opening o => do
      let (w', o') ← o.step address w
      pure (w', .resume o')
  | .scan pin duty i => pure (w, if i < w.pwmPinCount then .look pin duty i else .returned 0)
  | .look pin duty i => do
      let slot ← (w.slot i).mapFault .kernel
      pure (w, if slot.pin = pin then .other (.before (.update i duty)) else .scan pin duty (i + 1))
  | .other pc => do
      let (w', next) ← (pc.step w).mapFault .kernel
      pure (w', .other next)

end RacerPc

structure Racer where
  req : Request
  outcome : CreateOutcome
  pc : RacerPc
  deriving Repr, DecidableEq

namespace Racer

def after (f : Racer) : RacerPc → Option Racer
  | .other (.before (.returned _)) => none
  | next => some { f with pc := next }

def answered (f : Racer) (client : Nat) : RacerPc → List Occurrence
  | .other (.before (.returned err)) => [.returned client ⟨f.req, f.outcome, err⟩]
  | _ => []

end Racer

structure Contending where
  world : World
  flight : Nat → Option Racer

namespace Contending

def load (gpio : Gpio) : Contending := ⟨World.load gpio, fun _ => none⟩

def put (s : Contending) (w : World) (client : Nat) (flight : Option Racer) : Contending :=
  ⟨w, Function.update s.flight client flight⟩

def advance (address : Nat → Int) (s : Contending) (client : Nat) (f : Racer) :
    Traced Occurrence RaceFault Contending := do
  let (w, next) ← (f.pc.step address s.world).tag Occurrence.event
  Traced.ok (f.answered client next) (s.put w client (f.after next))

def step (D : Driver) (address : Nat → Int) (s : Contending) :
    Turn → Option (Traced Occurrence RaceFault Contending)
  | .enter client req outcome =>
      if s.flight client = none then
        some (.ok [.entered client req]
          (s.put s.world client (some ⟨req, outcome, .start D outcome req⟩)))
      else none
  | .statement client => (s.flight client).map (s.advance address client)
  | .task k swap => (D.pwmTask s.world k swap).map fun x =>
      ((x.mapFault RaceFault.kernel).tag Occurrence.event) >>= fun w => pure { s with world := w }

end Contending

/-- A driver with many clients whose every access is a step; `address` is where the kernel
    puts the threads. -/
def Driver.contending (D : Driver) (address : Nat → Int) :
    Machine Contending Turn Occurrence RaceFault :=
  ⟨Contending.step D address⟩

namespace Contending

variable {D : Driver} {address : Nat → Int} {s : Contending} {client : Nat} {f : Racer}

theorem advance_ok {raw : List Event} {w : World} {next : RacerPc}
    (run : f.pc.step address s.world = .ok raw (w, next)) :
    s.advance address client f =
      .ok (raw.map .event ++ f.answered client next) (s.put w client (f.after next)) := by
  simp [advance, run]

inductive Taken (D : Driver) (address : Nat → Int) (s : Contending) :
    Turn → Traced Occurrence RaceFault Contending → Prop where
  | enter {c req outcome} : s.flight c = none →
      Taken D address s (.enter c req outcome) (.ok [.entered c req]
        (s.put s.world c (some ⟨req, outcome, .start D outcome req⟩)))
  | statement {c g} : s.flight c = some g →
      Taken D address s (.statement c) (s.advance address c g)
  | task {k swap x} : D.pwmTask s.world k swap = some x →
      Taken D address s (.task k swap)
        (((x.mapFault RaceFault.kernel).tag Occurrence.event) >>= fun w => pure { s with world := w })

theorem step_taken {turn : Turn} {x : Traced Occurrence RaceFault Contending}
    (taken : s.step D address turn = some x) : Taken D address s turn x := by
  cases turn with
  | enter client req outcome =>
      by_cases idle : s.flight client = none
      · simp only [step, idle, ↓reduceIte, Option.some.injEq] at taken
        exact taken ▸ .enter idle
      · simp [step, idle] at taken
  | statement client =>
      obtain ⟨f, here, rfl⟩ := Option.map_eq_some_iff.mp taken
      exact .statement here
  | task k swap =>
      obtain ⟨y, stepped, rfl⟩ := Option.map_eq_some_iff.mp taken
      exact .task stepped

@[simp]
theorem put_world (w : World) (flight : Option Racer) : (s.put w client flight).world = w := rfl

theorem flight_put_self (w : World) (flight : Option Racer) :
    (s.put w client flight).flight client = flight :=
  Function.update_self _ _ _

theorem flight_put_other {c : Nat} (other : c ≠ client) (w : World) (flight : Option Racer) :
    (s.put w client flight).flight c = s.flight c :=
  Function.update_of_ne other _ _

end Contending

end KsoftPWM
