import KsoftPWM.Base.Fair
import KsoftPWM.Bounds
import KsoftPWM.Requests
import KsoftPWM.Unload

/-! # Module exit comes to an end

Module exit waits in `kthread_stop` or `rtdm_task_destroy` for one thread after the other.
A thread that has been asked to stop comes to its loop head after a bounded number of steps
of its own, wherever it was, and returns there, so nothing waits forever: under any fair
scheduling of the threads and of module exit itself the unload completes, unless a thread that
is waited for never returns from a sleep.

`usleep_range` and `rtdm_task_sleep` belong to the kernel: which of their calls come to an end is a
parameter.  Xenomai takes a delay of zero for no limit, so there `rtdm_task_sleep(0)` does not.

The rank of a state counts the steps that are still to be waited for.
-/

namespace KsoftPWM

/-- The steps a task still takes once it has been asked to stop. -/
def TaskPc.untilReturn (D : Driver) : TaskPc → Nat
  | returned => 0
  | asleep | loopHead => 1
  | entry => 2
  | eval .low args => D.sleepArity - args.length + 2
  | clr => D.sleepArity + 3
  | eval .high args => D.sleepArity - args.length + 1 + (D.sleepArity + 3)
  | set => 1 + (D.sleepArity + 1 + (D.sleepArity + 3))

def Driver.slotSteps (D : Driver) : Nat := 2 * D.sleepArity + 7

def Driver.loopSteps (D : Driver) (n : Nat) : Nat := n * D.slotSteps + 1 + D.exitTail.length

/-- The steps of module exit, and of the thread it waits for, that are still to come. -/
def Sys.exitRank (D : Driver) (s : Sys) : Nat :=
  match s.exit with
  | .idle => D.loopSteps s.world.pwmPinCount + 1
  | .loop i => D.loopSteps (s.world.pwmPinCount - i)
  | .join i k => (s.world.tasks[k]?.elim 0 (·.pc.untilReturn D)) + 1 +
      D.loopSteps (s.world.pwmPinCount - (i + 1))
  | .tail todo => todo.length

def Label.agent : Label → Agent
  | .request .. | .statement => .client
  | .task k _ => .task k
  | .exit => .exit

/-- Who is waited for. -/
def Sys.awaited (s : Sys) : Agent :=
  match s.exit with
  | .join _ k => if s.world.tasks[k]?.map (·.pc) = some .returned then .exit else .task k
  | _ => .exit

/-- Thread `k` has called for a sleep that does not come to an end. -/
def Sys.SleepsOn (D : Driver) (ends : List (Option Int32) → Prop) (k : Nat) (s : Sys) : Prop :=
  ∃ t phase times, s.world.tasks[k]? = some t ∧ t.pc = .eval phase times ∧
    ¬ times.length < D.sleepArity ∧ ¬ ends times

/-- What holds an agent back that could go on. -/
def Sys.held (D : Driver) (ends : List (Option Int32) → Prop) : Agent → Sys → Prop
  | .task k, s => s.SleepsOn D ends k
  | .client, _ | .exit, _ => False

/-- No request is in flight, and the thread that module exit waits for has been asked to
    stop. -/
structure Sys.Leaving (D : Driver) (s : Sys) : Prop where
  inv : s.Inv D
  idle : s.call = none
  stopped : ∀ i k, s.exit = .join i k → i < s.world.pwmPinCount ∧
    ∃ t, s.world.tasks[k]? = some t ∧ t.stop = true

variable {D : Driver} {s s' : Sys} {tr : List (Agent × Event)}

theorem untilReturn_le (D : Driver) (pc : TaskPc) : pc.untilReturn D + 2 ≤ D.slotSteps := by
  cases pc with
  | eval phase args => cases phase <;> simp only [TaskPc.untilReturn, Driver.slotSteps] <;> omega
  | asleep | entry | loopHead | set | clr | returned =>
      simp only [TaskPc.untilReturn, Driver.slotSteps]
      omega

theorem Driver.Move.untilReturn_lt {slot : Dutycycle} {pos : Nat} {swap : Bool}
    {pc pc' : TaskPc} {raw : List Event} {level : Option Bool}
    (move : D.Move slot pos true swap pc pc' raw level) :
    pc'.untilReturn D < pc.untilReturn D := by
  cases move with
  | goOn stop => cases stop
  | entry | halt | set | clr => simp [TaskPc.untilReturn]
  | @eval phase args short =>
      cases phase <;>
        simp only [TaskPc.untilReturn, List.length_append, List.length_singleton] <;> omega
  | @sleep phase args full => cases phase <;> simp only [TaskPc.untilReturn, Phase.next] <;> omega

theorem loopSteps_succ (D : Driver) (n : Nat) : D.loopSteps (n + 1) = D.slotSteps + D.loopSteps n := by
  simp only [Driver.loopSteps, Nat.add_mul, Nat.one_mul]
  omega

theorem Sys.Leaving.exitMove {raw : List Event} (leaving : s.Leaving D)
    (move : Sys.ExitMove D s s' raw) :
    s'.exitRank D < s.exitRank D ∧ ∀ i k, s'.exit = .join i k → i < s'.world.pwmPinCount ∧
      ∃ t, s'.world.tasks[k]? = some t ∧ t.stop = true := by
  have settled := leaving.inv.settled leaving.idle
  cases move with
  | start at_ => exact ⟨by simp [Sys.exitRank, at_], by simp⟩
  | @stop i k at_ more thread =>
      obtain rfl : i = k := by simpa using (settled.thread more).symm.trans thread
      obtain ⟨t, here, -⟩ := settled.task more
      have stopped : (s.world.requestStop i).tasks[i]? = some
          { t with stop := true, pc := if t.pc = .asleep then .loopHead else t.pc } := by
        simp [World.requestStop, here]
      have few := untilReturn_le D (if t.pc = .asleep then .loopHead else t.pc)
      refine ⟨?_, ?_⟩
      · obtain ⟨n, left⟩ : ∃ n, s.world.pwmPinCount - i = n + 1 :=
          ⟨s.world.pwmPinCount - (i + 1), by omega⟩
        have rest : s.world.pwmPinCount - (i + 1) = n := by omega
        have count : (s.world.requestStop i).pwmPinCount = s.world.pwmPinCount := rfl
        simp only [Sys.exitRank, at_, stopped, Option.elim_some, count, left, rest, loopSteps_succ]
        omega
      · rintro _ _ ⟨⟩
        exact ⟨more, _, stopped, rfl⟩
  | @leave i at_ done =>
      refine ⟨?_, by simp⟩
      simp only [Sys.exitRank, at_, Driver.loopSteps]
      omega
  | @joined i k at_ returned =>
      refine ⟨?_, by simp⟩
      simp only [Sys.exitRank, at_]
      omega
  | @tail stmt rest at_ => exact ⟨by simp [Sys.exitRank, at_], by simp⟩

theorem Sys.Leaving.taskStep {k : Nat} {swap : Bool} {t : Task} {slot : Dutycycle} {pc : TaskPc}
    {raw : List Event} {level : Option Bool} (leaving : s.Leaving D)
    (step : s.TaskStep D k swap tr s' t slot pc raw level) :
    (s'.exitRank D < s.exitRank D ∨
      s.awaited ≠ .task k ∧ s'.exitRank D = s.exitRank D ∧ s'.awaited = s.awaited) ∧
    ∀ i j, s'.exit = .join i j → i < s'.world.pwmPinCount ∧
      ∃ t, s'.world.tasks[j]? = some t ∧ t.stop = true := by
  obtain ⟨here, -, going, -, -, -, move, -, rfl⟩ := step
  have count : ((s.world.driven slot.pin level).jump k pc).pwmPinCount = s.world.pwmPinCount := by
    cases level <;> rfl
  cases at_ : s.exit with
  | idle | loop | tail =>
      refine ⟨.inr ⟨by simp [Sys.awaited, at_], ?_, ?_⟩, by simp⟩
      · simp only [Sys.exitRank, at_, count]
      · simp only [Sys.awaited, at_]
  | join i j =>
      obtain ⟨below, t', there, stop⟩ := leaving.stopped i j at_
      by_cases mine : k = j
      · subst mine
        obtain rfl : t = t' := Option.some.inj (here.symm.trans there)
        rw [stop] at move
        have after : ((s.world.driven slot.pin level).jump k pc).tasks[k]? =
            some { t with pc := pc } := tasks_moved here
        refine ⟨.inl ?_, ?_⟩
        · have lower := move.untilReturn_lt
          simp only [Sys.exitRank, at_, after, here, Option.elim_some, count]
          omega
        · rintro _ _ ⟨⟩
          exact ⟨count ▸ below, _, after, stop⟩
      · have after : ((s.world.driven slot.pin level).jump k pc).tasks[j]? = s.world.tasks[j]? :=
          tasks_unmoved mine
        refine ⟨.inr ⟨?_, ?_, ?_⟩, ?_⟩
        · simp only [Sys.awaited, at_]
          split
          · simp
          · simpa using Ne.symm mine
        · simp only [Sys.exitRank, at_, after, count]
        · simp only [Sys.awaited, at_, after]
        · rintro _ _ ⟨⟩
          exact ⟨count ▸ below, t', after.trans there, stop⟩

/-- Every step that is not a client's keeps the invariant and lowers the rank, or leaves it and
    who is waited for alone. -/
theorem Sys.Leaving.step {label : Label} (leaving : s.Leaving D)
    (noClient : label.agent ≠ .client) (taken : D.system.step s label = some (.ok tr s')) :
    s'.Leaving D ∧ (s'.exitRank D < s.exitRank D ∨
      label.agent ≠ s.awaited ∧ s'.exitRank D = s.exitRank D ∧ s'.awaited = s.awaited) := by
  have inv := leaving.inv.step_ok (admits_of_ok taken) taken
  generalize shape : (Traced.ok tr s' : Traced (Agent × Event) Fault Sys) = x at taken
  cases Sys.step_taken taken with
  | request | statement => exact absurd rfl noClient
  | @task k swap y stepped =>
      obtain ⟨t, slot, pc, raw, level, step⟩ := leaving.inv.taskStep stepped shape.symm
      obtain ⟨progress, stopped⟩ := leaving.taskStep step
      have idle : s'.call = none := by rw [step.after]; exact leaving.idle
      refine ⟨⟨inv, idle, stopped⟩, progress.imp_right ?_⟩
      rintro ⟨other, same⟩
      exact ⟨Ne.symm other, same⟩
  | @exit y idle stepped =>
      obtain ⟨raw, s₁, rfl, move, -, -, call⟩ :=
        exitStep_keeps (leaving.inv.settled leaving.idle) stepped
      cases shape
      obtain ⟨lower, stopped⟩ := leaving.exitMove move
      exact ⟨⟨inv, call.trans leaving.idle, stopped⟩, .inl lower⟩

theorem pwmTask_enabled {w : World} {k : Nat} {t : Task} (here : w.tasks[k]? = some t)
    (inside : t.pos < maxPwmNum) (awake : t.pc ≠ .asleep) (going : t.pc ≠ .returned) :
    ∃ tr w', D.pwmTask w k false = some (.ok tr w') := by
  cases at_ : t.pc with
  | asleep => exact absurd at_ awake
  | returned => exact absurd at_ going
  | loopHead => exact ⟨_, _, Driver.pwmTask_loopHead here at_⟩
  | entry => exact ⟨_, _, Driver.pwmTask_entry here inside at_⟩
  | set => exact ⟨_, _, Driver.pwmTask_set here inside at_⟩
  | clr => exact ⟨_, _, Driver.pwmTask_clr here inside at_⟩
  | eval phase args =>
      by_cases short : args.length < D.sleepArity
      · exact ⟨_, _, Driver.pwmTask_eval here inside at_ short⟩
      · exact ⟨_, _, Driver.pwmTask_sleep here at_ short⟩

end KsoftPWM
