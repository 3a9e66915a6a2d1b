import KsoftPWM.Requests
import KsoftPWM.Unload

/-! # Late requests to xenoPWM

`xeno_pwm_exit` destroys the recorded tasks, unmaps the registers and unregisters the
device, in this order, so requests are still delivered while it runs.  A request that
comes while the loop is at work does no harm: the loop reads `pwm_pin_count` at every
iteration and destroys the task of a channel opened meanwhile too.  After the loop nobody
destroys a new task any more, and after the unmapping nobody may touch a pin.

These two kinds of requests are exactly the harmful ones.  What a harmful request has
done is never undone, which is the invariant of the runs that have seen one.
-/

namespace KsoftPWM

def ExitPc.pastLoop : ExitPc → Bool
  | tail _ => true
  | _ => false

/-- Nobody accesses a register after the unmapping, and no task outlives module exit. -/
structure SafeUnload (tr : List (Agent × Event)) (s : Sys) : Prop where
  quiet : Quiet tr
  ended : s.exit = .tail [] → ∀ t ∈ s.world.tasks, t.pc = .returned

/-- A request creates no task once the loop has ended, and accesses no register once the
    registers have been unmapped. -/
def Harmless (s : Sys) : Label → Prop
  | .request req outcome =>
      (req.creates outcome = true → s.exit.pastLoop = false) ∧
        (req.touches = true → s.exit.unmaps ≠ 0)
  | _ => True

instance : DecidableRel Harmless
  | s, .request req outcome =>
      inferInstanceAs (Decidable ((req.creates outcome = true → s.exit.pastLoop = false) ∧
        (req.touches = true → s.exit.unmaps ≠ 0)))
  | _, .statement | _, .task .. | _, .exit => .isTrue trivial

/-- A register has been accessed after the unmapping, or the loop has ended and left a
    running task behind that nobody has asked to stop. -/
def Doomed (tr : List (Agent × Event)) (s : Sys) : Prop :=
  ¬ Quiet tr ∨ s.exit.pastLoop = true ∧
    ∃ (k : Nat) (t : Task), s.world.tasks[k]? = some t ∧ t.stop = false ∧ t.pc ≠ .returned

variable {D : Driver} {s s' : Sys} {label : Label} {tr tr' : List (Agent × Event)}

/-! ## Harmless requests -/

theorem ExitPc.Within.succ {exit : ExitPc} {count : Nat} (within : exit.Within count) :
    exit.Within (count + 1) := by
  cases exit with
  | idle | tail => trivial
  | loop i => exact Nat.le_succ_of_le within
  | join i k => exact ⟨within.1, Nat.lt_succ_of_lt within.2⟩

theorem ExitPc.joined_eq {exit : ExitPc} (early : exit.pastLoop = false) (m n : Nat) :
    exit.joined m = exit.joined n := by
  cases exit with
  | idle | loop | join => rfl
  | tail => cases early

theorem Teardown.request {req : Request} {outcome : CreateOutcome} {raw : List Event} {w : World}
    {err : Int} (teardown : Teardown tr s) (bound : s.world.pwmPinCount ≤ maxPwmNum)
    (harmless : Harmless s (.request req outcome))
    (run : D.ioctl outcome s.world req = .ok raw (w, err)) :
    Teardown (tr ++ (raw ++ [Event.ret err]).map (Agent.client, ·)) { s with world := w } := by
  have access : s.exit.unmaps = 1 ∨ ∀ e ∈ raw ++ [Event.ret err], e.Silent := by
    by_cases touches : req.touches = true
    · have mapped := harmless.2 touches
      have unmapped := teardown.unmapped
      exact .inl (by omega)
    · refine .inr fun e member => ?_
      rcases List.mem_append.mp member with early | last
      · by_contra loud
        exact touches ((ioctl_touches_iff run).mpr ⟨e, early, loud⟩)
      · obtain rfl := List.mem_singleton.mp last
        simp [Event.Silent]
  have kept : ∀ k < s.exit.joined s.world.pwmPinCount, ∃ t, w.tasks[k]? = some t ∧
      t.pc = .returned := by
    intro k below
    obtain ⟨t, here, returned⟩ := teardown.returned k below
    exact ⟨t, ioctl_kept bound run here, returned⟩
  rcases ioctl_tasks bound run with ⟨creates, count, -⟩ | ⟨-, count, -⟩
  · have joined := ExitPc.joined_eq (harmless.1 creates) w.pwmPinCount s.world.pwmPinCount
    exact teardown.foreign (by decide) rfl (count.symm ▸ teardown.within.succ) (joined ▸ kept) access
  · exact teardown.foreign (by decide) rfl (count.symm ▸ teardown.within) (count ▸ kept) access

/-- What holds all along a run without harmful requests. -/
structure Retiring (tr : List (Agent × Event)) (s : Sys) : Prop extends Teardown tr s where
  inv : s.Inv .xenoPWM
  idle : s.call = none

theorem Retiring.load (gpio : Gpio) : Retiring [] (Sys.load gpio) :=
  ⟨Teardown.load gpio, Sys.load_inv .xenoPWM gpio, rfl⟩

theorem Retiring.step (retiring : Retiring tr s) (harmless : Harmless s label)
    (taken : s.serialStep .xenoPWM label = some (.ok tr' s')) : Retiring (tr ++ tr') s' := by
  have settled := retiring.inv.settled retiring.idle
  obtain ⟨inv, idle⟩ := serialStep_idle retiring.inv retiring.idle taken
  refine ⟨?_, inv, idle⟩
  cases serialStep_moves retiring.inv retiring.idle taken with
  | request _ run => exact retiring.toTeardown.request settled.bound harmless run
  | task step => exact retiring.toTeardown.task (fun _ _ => settled) step
  | exit move _ => exact retiring.toTeardown.exit settled move

theorem Retiring.safe (retiring : Retiring tr s) : SafeUnload tr s := by
  refine ⟨retiring.quiet, fun done t member => ?_⟩
  obtain ⟨k, here⟩ := List.mem_iff_getElem?.mp member
  exact retiring.all_returned (retiring.inv.settled retiring.idle) done here

/-! ## Harmful requests -/

theorem Quiet.of_append (quiet : Quiet (tr ++ tr')) : Quiet tr :=
  (List.pairwise_append.mp quiet).1

theorem Retiring.doomed (retiring : Retiring tr s) (harmful : ¬ Harmless s label)
    (taken : s.serialStep .xenoPWM label = some (.ok tr' s')) : Doomed (tr ++ tr') s' := by
  have settled := retiring.inv.settled retiring.idle
  cases serialStep_moves retiring.inv retiring.idle taken with
  | task | exit => exact absurd trivial harmful
  | @request req outcome raw w err _ run =>
      rw [Harmless, not_and_or] at harmful
      rcases harmful with creates | touches
      · obtain ⟨creates, past⟩ := Classical.not_imp.mp creates
        rcases ioctl_tasks settled.bound run with
          ⟨-, -, t, tasks, stop, pc⟩ | ⟨creates', -⟩
        · refine .inr ⟨by simpa using past, s.world.tasks.length, t, ?_, stop, pc⟩
          simp [tasks]
        · simp [creates] at creates'
      · obtain ⟨touches, unmapped⟩ := Classical.not_imp.mp touches
        obtain ⟨e, member, loud⟩ := (ioctl_touches_iff run).mp touches
        have past : (.exit, .exit .iounmap) ∈ tr := by
          have count := retiring.unmapped
          refine List.count_pos_iff.mp ?_
          omega
        refine .inl fun quiet => loud ?_
        exact (List.pairwise_append.mp quiet).2.2 _ past (Agent.client, e) (by simp [member]) rfl

theorem Doomed.step (doomed : Doomed tr s) (inv : s.Inv D) (idle : s.call = none)
    (taken : s.serialStep D label = some (.ok tr' s')) : Doomed (tr ++ tr') s' := by
  have settled := inv.settled idle
  rcases doomed with loud | ⟨past, k, t, here, stop, going⟩
  · exact .inl fun quiet => loud quiet.of_append
  · refine .inr ?_
    cases serialStep_moves inv idle taken with
    | request _ run =>
        exact ⟨past, k, t, ioctl_kept settled.bound run here, stop, going⟩
    | @task j _ _ _ t' slot pc raw level step =>
        obtain ⟨here', -, -, -, -, -, move, -, rfl⟩ := step
        refine ⟨past, k, ?_⟩
        by_cases same : j = k
        · subst same
          obtain rfl : t' = t := by simpa [here'] using here
          rw [stop] at move
          exact ⟨_, tasks_moved here', stop, move.not_returned⟩
        · exact ⟨t, (tasks_unmoved same).trans here, stop, going⟩
    | exit move _ =>
        cases move with
        | start at_ | stop at_ | leave at_ | joined at_ => simp [at_, ExitPc.pastLoop] at past
        | tail => exact ⟨rfl, k, t, here, stop, going⟩

theorem Doomed.at_end (doomed : Doomed tr s) (done : s.exit = .tail []) :
    ¬ SafeUnload tr s := by
  intro safe
  rcases doomed with loud | ⟨-, k, t, here, -, going⟩
  · exact loud safe.quiet
  · exact going (safe.ended done t (List.mem_of_getElem? here))

/-! ## Runs -/

/-- A run has seen no harmful request and is as it should be, or it has seen one and is
    doomed. -/
theorem retiring_or_doomed {gpio : Gpio} {labels : List Label}
    (reach : Driver.xenoPWM.serial.Reaches (Sys.load gpio) labels tr s) :
    Driver.xenoPWM.serial.Guarded Harmless (Sys.load gpio) labels ∧ Retiring tr s ∨
      ¬ Driver.xenoPWM.serial.Guarded Harmless (Sys.load gpio) labels ∧ Doomed tr s := by
  have split := reach.guarded_or_left (G := Harmless) (Q := Retiring)
    (B := fun tr s => (s.Inv .xenoPWM ∧ s.call = none) ∧ Doomed tr s) (Retiring.load gpio)
    (fun retiring harmless taken => retiring.step harmless taken)
    (fun retiring harmful taken =>
      ⟨serialStep_idle retiring.inv retiring.idle taken, retiring.doomed harmful taken⟩)
    (fun ⟨⟨inv, idle⟩, doomed⟩ taken =>
      ⟨serialStep_idle inv idle taken, doomed.step inv idle taken⟩)
  exact split.imp id fun ⟨unguarded, _, doomed⟩ => ⟨unguarded, doomed⟩

/-- A run of xenoPWM with whole requests, as long as `PWM_INIT` finds a free slot, never
    goes wrong.  The unloading is safe if no request of the run is harmful, and once
    `xeno_pwm_exit` has returned only then. -/
theorem late_requests_safe_iff (gpio : Gpio) (labels : List Label)
    (x : Traced (Agent × Event) Fault Sys)
    (admitted : Driver.xenoPWM.serial.Guarded Admits (Sys.load gpio) labels)
    (run : Driver.xenoPWM.serial.run (Sys.load gpio) labels = some x) :
    ∃ tr s, x = .ok tr s ∧
      (Driver.xenoPWM.serial.Guarded Harmless (Sys.load gpio) labels → SafeUnload tr s) ∧
      (s.exit = .tail [] →
        (SafeUnload tr s ↔ Driver.xenoPWM.serial.Guarded Harmless (Sys.load gpio) labels)) := by
  obtain ⟨tr, s, rfl⟩ := serial_run_ok admitted run
  refine ⟨tr, s, rfl, ?_⟩
  rcases retiring_or_doomed run with ⟨guarded, retiring⟩ | ⟨unguarded, doomed⟩
  · exact ⟨fun _ => retiring.safe, fun _ => iff_of_true retiring.safe guarded⟩
  · exact ⟨fun guarded => absurd guarded unguarded,
      fun done => iff_of_false (doomed.at_end done) unguarded⟩

/-- A channel opened while the loop is at work is destroyed too, and a pin set between the
    loop and the unmapping is still set in time. -/
theorem late_requests_safe_iff_in_loop :
    ∃ tr s, Driver.xenoPWM.serial.Reaches (Sys.load .reset)
        ([.request (.pwmInit ⟨16, 0, 100⟩) .created, .exit, .exit,
          .request (.pwmInit ⟨20, 0, 100⟩) .created, .task 0 false, .task 0 false, .exit, .exit,
          .task 1 false, .task 1 false, .exit, .exit, .request (.pinSet 21 1) .created, .exit,
          .request (.pwmSet 16 50) .created, .exit]) tr s ∧
      s.exit = .tail [] ∧ s.world.tasks.length = 2 ∧ SafeUnload tr s := by
  obtain ⟨tr, s, reach, done⟩ := Machine.exists_reaches Driver.xenoPWM.serial (Sys.load .reset)
    ([.request (.pwmInit ⟨16, 0, 100⟩) .created, .exit, .exit,
      .request (.pwmInit ⟨20, 0, 100⟩) .created, .task 0 false, .task 0 false, .exit, .exit,
      .task 1 false, .task 1 false, .exit, .exit, .request (.pinSet 21 1) .created, .exit,
      .request (.pwmSet 16 50) .created, .exit])
    (fun _ s => s.exit == .tail [] && s.world.tasks.length == 2) (by decide)
  obtain ⟨exit, length⟩ : s.exit = .tail [] ∧ s.world.tasks.length = 2 := by
    simpa using done
  obtain ⟨_, _, same, safe, -⟩ := late_requests_safe_iff .reset _ _
    (Machine.guarded_of_checks (fun _ _ => of_decide_eq_true) (by decide)) reach
  cases same
  refine ⟨tr, s, reach, exit, length, safe ?_⟩
  exact Machine.guarded_of_checks (fun _ _ => of_decide_eq_true) (by decide)

/-- A channel opened after the loop, a step of its task that sets the pin and a `PIN_SET`,
    both after the unmapping, and `xeno_pwm_exit` returns while the task is alive. -/
theorem late_requests_outlive_exit :
    ∃ tr s, Driver.xenoPWM.serial.Reaches (Sys.load .reset)
        [.exit, .exit, .request (.pwmInit ⟨16, 0, 100⟩) .created, .exit, .task 0 false,
          .task 0 false, .task 0 false, .request (.pinSet 20 1) .created, .exit] tr s ∧
      Driver.xenoPWM.serial.Guarded Admits (Sys.load .reset)
        [.exit, .exit, .request (.pwmInit ⟨16, 0, 100⟩) .created, .exit, .task 0 false,
          .task 0 false, .task 0 false, .request (.pinSet 20 1) .created, .exit] ∧
      s.exit = .tail [] ∧ ¬ Quiet tr ∧ ∃ t ∈ s.world.tasks, t.pc ≠ .returned := by
  obtain ⟨tr, s, reach, done⟩ := Machine.exists_reaches Driver.xenoPWM.serial (Sys.load .reset)
    [.exit, .exit, .request (.pwmInit ⟨16, 0, 100⟩) .created, .exit, .task 0 false,
      .task 0 false, .task 0 false, .request (.pinSet 20 1) .created, .exit]
    (fun tr s => decide (s.exit = .tail [] ∧ ¬ Quiet tr ∧ ∃ t ∈ s.world.tasks, t.pc ≠ .returned))
    (by decide)
  exact ⟨tr, s, reach, Machine.guarded_of_checks (fun _ _ => of_decide_eq_true) (by decide),
    of_decide_eq_true done⟩

end KsoftPWM
