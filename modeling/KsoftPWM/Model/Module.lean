import KsoftPWM.Base.Ledger
import KsoftPWM.Model.Serial

/-! # The life of the softPWM module

`pwm_init` asks the kernel for six things, any of which may be refused.  A refused
mapping or table is at most warned about, so the pointer stays `NULL` and whoever
dereferences it later goes wrong.  Between `pwm_init` and `pwm_exit` the module runs as
the system with whole requests does, which can be issued only while the character device
is registered.

What the module acquires and releases is noted in a ledger.  A thread is acquired by the
step that creates it and released by `kthread_stop`, which returns when the thread has.
-/

namespace KsoftPWM

inductive Resource where
  /-- The mapping of the registers made by `ioremap`. -/
  | mapping
  | dutyArray
  | pwmTsk
  /-- The device number of `alloc_chrdev_region`. -/
  | chrdevRegion
  /-- The memory of the `struct cdev`. -/
  | cdev
  /-- The entry `cdev_add` makes for the `struct cdev`. -/
  | registration
  | thread (k : Nat)
  deriving Repr, DecidableEq

/-- What the kernel answers to `pwm_init`: whether `ioremap` and the three calls of
    `kzalloc` return memory, and the errors of the two calls that return one. -/
structure Answers where
  ioremap : Bool
  dutyArray : Bool
  pwmTsk : Bool
  allocChrdevRegion : Option Errno
  cdev : Bool
  cdevAdd : Option Errno
  deriving Repr, DecidableEq

/-- The module in memory: which of its pointers are not `NULL`, what it has acquired and
    released, and the running system. -/
structure Loaded where
  gpioMap : Bool
  dutyArray : Bool
  pwmTsk : Bool
  cdevp : Bool
  ledger : List (Entry Resource)
  sys : Sys

def Label.isRequest : Label → Bool
  | .request _ _ => true
  | _ => false

inductive ModuleFault where
  | kernel (why : Fault)
  /-- A `NULL` pointer has been dereferenced. -/
  | nullPointer
  deriving Repr, DecidableEq

namespace Loaded

def unset (gpio : Gpio) : Loaded := ⟨false, false, false, false, [], Sys.load gpio⟩

def acquire (m : Loaded) (r : Resource) (granted : Bool) : Loaded :=
  { m with ledger := m.ledger ++ if granted then [.acquire r] else [] }

/-- The label `failed` of `pwm_init`. -/
def failed (m : Loaded) : Loaded :=
  if m.cdevp then { m with ledger := m.ledger ++ [.release .cdev], cdevp := false } else m

end Loaded

/-- `pwm_init`, with the value it returns. -/
def pwmInit (answers : Answers) (gpio : Gpio) : Loaded × Int :=
  let m := Loaded.unset gpio
  let m := { m.acquire .mapping answers.ioremap with gpioMap := answers.ioremap }
  -- the two tables are warned about if they are missing, and that is all
  let m := { m.acquire .dutyArray answers.dutyArray with dutyArray := answers.dutyArray }
  let m := { m.acquire .pwmTsk answers.pwmTsk with pwmTsk := answers.pwmTsk }
  match answers.allocChrdevRegion with
  | some why => (m, why.value)
  | none =>
      let m := m.acquire .chrdevRegion true
      let m := { m.acquire .cdev answers.cdev with cdevp := answers.cdev }
      if !m.cdevp then (m.failed, 0)
      else
        match answers.cdevAdd with
        | some _ => (m.failed, 0)
        | none => (m.acquire .registration true, 0)

namespace Loaded

/-- The event dereferences a pointer that is `NULL`. -/
def offends (m : Loaded) : Event → Bool
  | .subscript .dutyArray _ => !m.dutyArray
  | .subscript .taskTable _ => !m.pwmTsk
  | .gpio _ _ => !m.gpioMap
  | _ => false

/-- What an event of `pwm_exit` gives back.  `iounmap` and `kfree` leave `NULL` alone. -/
def frees (m : Loaded) : Agent × Event → Option Resource
  | (.exit, .stop k) => some (.thread k)
  | (.exit, .exit .iounmap) => if m.gpioMap then some .mapping else none
  | (.exit, .exit .unregisterChrdevRegion) => some .chrdevRegion
  | (.exit, .exit .kfreeCdev) => if m.cdevp then some .cdev else none
  | _ => none

def after (m : Loaded) (tr : List (Agent × Event)) (sys : Sys) : Loaded :=
  { m with
    ledger := m.ledger ++
      ((List.range sys.world.tasks.length).drop m.sys.world.tasks.length).map
        (fun k => Entry.acquire (Resource.thread k)) ++
      (tr.filterMap m.frees).map Entry.release
    sys := sys }

/-- Cut a step of the system off where it dereferences a pointer that is `NULL`. -/
def dereference (m : Loaded) (x : Traced (Agent × Event) Fault Sys) :
    Traced (Agent × Event) ModuleFault Loaded :=
  match x.trace.findIdx? (fun e => m.offends e.2), x with
  | some i, x => .fault (x.trace.take (i + 1)) .nullPointer
  | none, .fault tr why => .fault tr (.kernel why)
  | none, .ok tr sys => .ok tr (m.after tr sys)

def step (m : Loaded) (label : Label) : Option (Traced (Agent × Event) ModuleFault Loaded) :=
  if label.isRequest = true ∧ ¬ Ledger.Live m.ledger .registration then none
  else (m.sys.serialStep .softPWM label).map m.dereference

end Loaded

def softModule : Machine Loaded Label (Agent × Event) ModuleFault := ⟨Loaded.step⟩

end KsoftPWM
