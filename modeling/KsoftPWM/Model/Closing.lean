import KsoftPWM.Model.Concurrent

/-! # Unloading xenoPWM under its clients

The RTDM core delivers requests until `rtdm_dev_unregister`, and nothing lets
`xeno_pwm_exit` wait for those that have been delivered: its steps are interleaved with
the statements of any number of clients and with the steps of the tasks.  A request that
is in flight when the device is unregistered may go on.
-/

namespace KsoftPWM

structure Closing where
  served : Concurrent
  exit : ExitPc

inductive ClosingTurn where
  | turn (turn : Turn)
  | exit
  deriving Repr, DecidableEq

namespace Closing

def load (gpio : Gpio) : Closing := ⟨.load gpio, .idle⟩

/-- What module exit sees of the module. -/
def sys (s : Closing) : Sys := ⟨s.served.world, none, s.exit⟩

def back (s : Closing) (sys : Sys) : Closing := ⟨{ s.served with world := sys.world }, sys.exit⟩

def step (s : Closing) : ClosingTurn → Option (Traced (Agent × Event) Fault Closing)
  | .turn (.enter client req outcome) =>
      if s.served.flight client = none ∧ Driver.xenoPWM.accepts s.exit then
        some (.ok [] { s with
          served := s.served.put s.served.world client
            (some ⟨req, outcome, .before (.start .xenoPWM outcome req)⟩) })
      else none
  | .turn (.statement client) => (s.served.flight client).map fun f => do
      let (w, next) ← (f.pc.step s.served.world).tag (Agent.client, ·)
      pure { s with served := s.served.put w client (f.after next) }
  | .turn (.task k swap) => (Driver.xenoPWM.pwmTask s.served.world k swap).map fun x =>
      (x.tag (Agent.task k, ·)) >>= fun w => pure (s.back { s.sys with world := w })
  | .exit => (s.sys.exitStep .xenoPWM).map fun x =>
      (x.tag (Agent.exit, ·)) >>= fun sys => pure (s.back sys)

end Closing

/-- xenoPWM with many clients, from its load to the end of `xeno_pwm_exit`. -/
def xenoClosing : Machine Closing ClosingTurn (Agent × Event) Fault := ⟨Closing.step⟩

namespace ClientPc

def spawns : ClientPc → Bool
  | before call => call.spawns
  | between .. => false

/-- The next statement, or half of one, accesses the register block. -/
def touches : ClientPc → Bool
  | before (.pinSet _ code) | before (.gpioSet _ code) => code == 0 || code == 1
  | between .. => true
  | _ => false

end ClientPc

end KsoftPWM
