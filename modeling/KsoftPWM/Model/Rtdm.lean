import KsoftPWM.Base.Ledger
import KsoftPWM.Model.Closing
import KsoftPWM.Model.Module

/-! # The life of the xenoPWM module

`xeno_pwm_init` asks for three things.  Whatever it is refused it only warns about, and it
always returns 0, so the module stays in memory with `NULL` pointers or without a device.
Between `xeno_pwm_init` and the end of `xeno_pwm_exit` the module runs as in
`Model.Closing`, if there is a device through which requests can come.

A task is acquired by the statement that creates it and released by `rtdm_task_destroy`.
`rtdm_dev_unregister` is called in any case, so it may release a registration that was
never made.
-/

namespace KsoftPWM

inductive RtdmResource where
  /-- The mapping of the registers made by `ioremap`. -/
  | mapping
  | dutyArray
  /-- The entry `rtdm_dev_register` makes for `xeno_pwm_dev`. -/
  | registration
  | task (k : Nat)
  deriving Repr, DecidableEq

structure RtdmAnswers where
  ioremap : Bool
  dutyArray : Bool
  devRegister : Option Errno
  deriving Repr, DecidableEq

/-- The module in memory: which of its pointers are not `NULL`, whether its device is
    registered, what it has acquired and released, and the running driver. -/
structure RtdmModule where
  gpioMap : Bool
  dutyArray : Bool
  registered : Bool
  ledger : List (Entry RtdmResource)
  closing : Closing

namespace RtdmModule

def acquire (m : RtdmModule) (r : RtdmResource) (granted : Bool) : RtdmModule :=
  { m with ledger := m.ledger ++ if granted then [.acquire r] else [] }

end RtdmModule

/-- `xeno_pwm_init`, with the value it returns. -/
def xenoPwmInit (answers : RtdmAnswers) (gpio : Gpio) : RtdmModule × Int :=
  let m : RtdmModule := ⟨false, false, false, [], .load gpio⟩
  let m := { m.acquire .mapping answers.ioremap with gpioMap := answers.ioremap }
  let m := { m.acquire .dutyArray answers.dutyArray with dutyArray := answers.dutyArray }
  let ret := answers.devRegister
  let m := { m.acquire .registration ret.isNone with registered := ret.isNone }
  -- a failed registration is warned about like the rest
  (m, 0)

namespace RtdmModule

/-- The event dereferences a pointer that is `NULL`.  The task table is a static array. -/
def offends (m : RtdmModule) : Event → Bool
  | .subscript .dutyArray _ => !m.dutyArray
  | .gpio _ _ => !m.gpioMap
  | _ => false

/-- What an event of `xeno_pwm_exit` gives back.  `iounmap` leaves `NULL` alone. -/
def frees (m : RtdmModule) : Agent × Event → Option RtdmResource
  | (.exit, .stop k) => some (.task k)
  | (.exit, .exit .iounmap) => if m.gpioMap then some .mapping else none
  | (.exit, .exit .rtdmDevUnregister) => some .registration
  | _ => none

def after (m : RtdmModule) (tr : List (Agent × Event)) (closing : Closing) : RtdmModule :=
  { m with
    ledger := m.ledger ++
      ((List.range closing.served.world.tasks.length).drop
        m.closing.served.world.tasks.length).map (fun k => Entry.acquire (RtdmResource.task k)) ++
      (tr.filterMap m.frees).map Entry.release
    closing := closing }

def dereference (m : RtdmModule) (x : Traced (Agent × Event) Fault Closing) :
    Traced (Agent × Event) ModuleFault RtdmModule :=
  match x.trace.findIdx? (fun e => m.offends e.2), x with
  | some i, x => .fault (x.trace.take (i + 1)) .nullPointer
  | none, .fault tr why => .fault tr (.kernel why)
  | none, .ok tr closing => .ok tr (m.after tr closing)

/-- Without a registered device no request comes in. -/
def delivers (m : RtdmModule) : ClosingTurn → Bool
  | .turn (.enter ..) => m.registered
  | _ => true

def step (m : RtdmModule) (turn : ClosingTurn) :
    Option (Traced (Agent × Event) ModuleFault RtdmModule) :=
  if m.delivers turn then (m.closing.step turn).map m.dereference else none

end RtdmModule

def xenoModule : Machine RtdmModule ClosingTurn (Agent × Event) ModuleFault := ⟨RtdmModule.step⟩

end KsoftPWM
