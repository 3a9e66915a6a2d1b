import KsoftPWM.Shutdown

/-! # Every channel keeps pulsing

As long as the module is not being unloaded no request changes where an awake thread is or asks it
to stop.  What can stop a task is a sleep that does not come to an end.  So a thread that is
scheduled again and again and whose sleeps end sets and clears its pin again and again, whatever
the clients and the other tasks do meanwhile.
-/

namespace KsoftPWM

def TaskPc.driving : Bool → TaskPc
  | true => .set
  | false => .clr

/-- The steps a task takes until it drives its pin to the level next. -/
def TaskPc.untilDrive (D : Driver) : Bool → TaskPc → Nat
  | true, set | false, clr | _, asleep | _, returned => 0
  | true, loopHead => 1
  | true, entry => 2
  | true, eval .low args => D.sleepArity - args.length + 2
  | true, clr => D.sleepArity + 3
  | true, eval .high args => D.sleepArity - args.length + (D.sleepArity + 4)
  | false, eval .high args => D.sleepArity - args.length + 1
  | false, set => D.sleepArity + 2
  | false, loopHead => D.sleepArity + 3
  | false, entry => D.sleepArity + 4
  | false, eval .low args => D.sleepArity - args.length + (D.sleepArity + 4)

variable {D : Driver} {s s' : Sys} {w w' : World} {tr : List (Agent × Event)} {k : Nat}

theorem untilDrive_eq_zero {level : Bool} {pc : TaskPc} (awake : pc ≠ .asleep)
    (going : pc ≠ .returned) (zero : pc.untilDrive D level = 0) : pc = .driving level := by
  cases pc with
  | asleep => exact absurd rfl awake
  | returned => exact absurd rfl going
  | eval phase args => cases level <;> cases phase <;> simp [TaskPc.untilDrive] at zero
  | entry | loopHead | set | clr =>
      cases level <;> first | rfl | simp [TaskPc.untilDrive] at zero

/-- Every step of a task that has not been asked to stop brings it nearer, unless it is there,
    and does not let it return. -/
theorem Driver.Move.untilDrive_lt {slot : Dutycycle} {pos : Nat} {swap : Bool} {pc pc' : TaskPc}
    {raw : List Event} {level : Option Bool} (target : Bool)
    (move : D.Move slot pos false swap pc pc' raw level) (away : pc.untilDrive D target ≠ 0) :
    pc'.untilDrive D target < pc.untilDrive D target := by
  cases move with
  | halt stop => cases stop
  | entry | goOn => cases target <;> simp [TaskPc.untilDrive]
  | set | clr =>
      cases target with
      | true | false => first | exact absurd rfl away | (simp only [TaskPc.untilDrive, List.length_nil]; omega)
  | @eval phase args short =>
      cases target <;> cases phase <;>
        simp only [TaskPc.untilDrive, List.length_append, List.length_singleton] <;> omega
  | @sleep phase args full =>
      cases target <;> cases phase <;> simp only [TaskPc.untilDrive, Phase.next] <;> omega

theorem Driver.Move.drives {slot : Dutycycle} {pos : Nat} {stop swap level : Bool}
    {pc pc' : TaskPc} {raw : List Event} {driven : Option Bool} (at_ : pc = .driving level)
    (move : D.Move slot pos stop swap pc pc' raw driven) :
    .gpio slot.pin (driveStore slot.pin level) ∈ raw := by
  cases level with
  | true | false =>
      subst at_
      cases move
      simp [driveStore]

/-! ## Nothing stops a task but module exit -/

def World.Unstopped (w : World) : Prop := ∀ t ∈ w.tasks, t.stop = false

theorem unstopped_modify {ts : List Task} {j : Nat} {f : Task → Task}
    (unstopped : ∀ t ∈ ts, t.stop = false) (same : ∀ t, (f t).stop = t.stop) :
    ∀ t ∈ ts.modify j f, t.stop = false := by
  intro t member
  obtain ⟨i, here⟩ := List.getElem?_of_mem member
  rw [List.getElem?_modify] at here
  obtain ⟨t₀, old, rfl⟩ := Option.map_eq_some_iff.mp here
  have before := unstopped t₀ (List.mem_of_getElem? old)
  split
  · exact (same t₀).trans before
  · exact before

theorem World.Unstopped.call {call next : Call} {raw : List Event} (unstopped : w.Unstopped)
    (run : call.step w = .ok raw (w', next)) : w'.Unstopped := by
  intro t member
  rcases Call.step_tasks run with ⟨-, name, args, pc, -, tasks⟩ | ⟨-, tasks | ⟨-, k, tasks⟩⟩
  · rw [tasks] at member
    rcases List.mem_append.mp member with old | new
    · exact unstopped t old
    · rw [List.mem_singleton.mp new]
  · exact unstopped t (tasks ▸ member)
  · rw [tasks] at member
    refine unstopped_modify unstopped (fun t => ?_) t member
    split <;> rfl

theorem World.Unstopped.advance {call : Call} {raw : List Event} (unstopped : s.world.Unstopped)
    (run : s.advance call = .ok raw s') : s'.world.Unstopped := by
  obtain ⟨_, ⟨w, next⟩, _, ran, done, -⟩ := Traced.bind_eq_ok.mp run
  have after := unstopped.call ran
  cases next with
  | returned | init | pinSet | gpioSet | scan | update =>
      cases done
      exact after

/-- The module is loaded: no thread has been asked to stop, and none has returned. -/
structure Sys.Serving (D : Driver) (s : Sys) : Prop where
  inv : s.Inv D
  exit : s.exit = .idle
  unstopped : s.world.Unstopped
  going : ∀ (k : Nat) (t : Task), s.world.tasks[k]? = some t → t.pc ≠ .returned

theorem Grows.going {before after : List Task} (grows : Grows before after)
    (going : ∀ (k : Nat) (t : Task), before[k]? = some t → t.pc ≠ .returned) (k : Nat) (t' : Task)
    (here' : after[k]? = some t') : t'.pc ≠ .returned := by
  cases here : before[k]? with
  | none => rcases grows.fresh k t' here here' with pc | pc <;> simp [pc]
  | some t =>
      obtain ⟨t'', there, -, same | ⟨-, woken⟩⟩ := grows.kept k t here
      · obtain rfl := Option.some.inj (here'.symm.trans there)
        exact same ▸ going k t here
      · obtain rfl := Option.some.inj (here'.symm.trans there)
        simp [woken]

structure World.Going (w : World) : Prop where
  unstopped : w.Unstopped
  running : ∀ (k : Nat) (t : Task), w.tasks[k]? = some t → t.pc ≠ .returned

theorem World.Going.call {call next : Call} {raw : List Event} (going : w.Going)
    (run : call.step w = .ok raw (w', next)) : w'.Going :=
  ⟨going.unstopped.call run, (Call.step_frame run).tasks.going going.running⟩

theorem World.Going.jump {t : Task} {pc : TaskPc} (going : w.Going) (pin : Int32)
    (level : Option Bool) (here : w.tasks[k]? = some t) (stays : pc ≠ .returned) :
    ((w.driven pin level).jump k pc).Going where
  unstopped := by
    refine unstopped_modify ?_ (fun _ => rfl)
    rw [tasks_driven]
    exact going.unstopped
  running := by
    intro j t' here'
    by_cases mine : k = j
    · subst mine
      obtain rfl := Option.some.inj ((tasks_moved here).symm.trans here')
      exact stays
    · exact going.running j t' ((tasks_unmoved mine).symm.trans here')

theorem Sys.Serving.taskStep {swap : Bool} {t : Task} {slot : Dutycycle} {pc : TaskPc}
    {raw : List Event} {level : Option Bool} (serving : s.Serving D)
    (step : s.TaskStep D k swap tr s' t slot pc raw level) :
    D.Move slot k false swap t.pc pc raw level :=
  serving.unstopped t (List.mem_of_getElem? step.here) ▸ step.move

/-- Every step that is not module exit's keeps that. -/
theorem Sys.Serving.next {label : Label} (serving : s.Serving D) (noExit : label ≠ .exit)
    (taken : D.system.step s label = some (.ok tr s')) : s'.Serving D := by
  have inv := serving.inv.step_ok (admits_of_ok taken) taken
  generalize shape : (Traced.ok tr s' : Traced (Agent × Event) Fault Sys) = x at taken
  cases Sys.step_taken taken with
  | request | statement =>
      obtain ⟨raw, run, -⟩ := Traced.tag_eq_ok.mp shape.symm
      obtain ⟨exit, -, grows⟩ := Sys.advance_frame run
      exact ⟨inv, exit.trans serving.exit, serving.unstopped.advance run, grows.going serving.going⟩
  | @task k swap y stepped =>
      obtain ⟨t, slot, pc, raw, level, step⟩ := serving.inv.taskStep stepped shape.symm
      have move := serving.taskStep step
      obtain ⟨here, -, -, -, -, -, -, -, rfl⟩ := step
      have before : s.world.Going := ⟨serving.unstopped, serving.going⟩
      have going := before.jump slot.pin level here move.not_returned
      exact ⟨inv, serving.exit, going.unstopped, going.running⟩
  | exit => exact absurd rfl noExit

/-- A thread that is awake takes a step of its own or stays where it is. -/
theorem Sys.Serving.awake {label : Label} {t : Task} (serving : s.Serving D)
    (noExit : label ≠ .exit) (here : s.world.tasks[k]? = some t) (awake : t.pc ≠ .asleep)
    (taken : D.system.step s label = some (.ok tr s')) :
    ∃ t', s'.world.tasks[k]? = some t' ∧ t'.creator = t.creator ∧
      (label.agent ≠ .task k ∧ t'.pc = t.pc ∨
        ∃ slot swap raw level, label = .task k swap ∧ slot.Serves t.creator ∧
          D.Move slot k false swap t.pc t'.pc raw level ∧ tr = raw.map (Agent.task k, ·)) := by
  generalize shape : (Traced.ok tr s' : Traced (Agent × Event) Fault Sys) = x at taken
  cases Sys.step_taken taken with
  | request | statement =>
      obtain ⟨raw, run, -⟩ := Traced.tag_eq_ok.mp shape.symm
      obtain ⟨t', here', creator, pc⟩ := (Sys.advance_frame run).2.2.awake here awake
      exact ⟨t', here', creator, .inl ⟨by simp [Label.agent], pc⟩⟩
  | @task j swap y stepped =>
      obtain ⟨t', slot, pc, raw, level, step⟩ := serving.inv.taskStep stepped shape.symm
      have move := serving.taskStep step
      obtain ⟨here', -, -, -, -, serves, -, rfl, rfl⟩ := step
      by_cases mine : j = k
      · subst mine
        obtain rfl : t = t' := Option.some.inj (here.symm.trans here')
        exact ⟨_, tasks_moved here, rfl, .inr ⟨slot, swap, raw, level, rfl, serves, move, rfl⟩⟩
      · exact ⟨t, (tasks_unmoved mine).trans here, rfl, .inl ⟨by simpa [Label.agent] using mine, rfl⟩⟩
  | exit => exact absurd rfl noExit

/-! ## Endless runs -/

structure Sys.Pulses (D : Driver) (k : Nat) (args : InitArgs) (s : Sys) : Prop where
  serving : s.Serving D
  task : ∃ t, s.world.tasks[k]? = some t ∧ t.creator = args ∧ t.pc ≠ .asleep

def Sys.untilDrive (D : Driver) (k : Nat) (level : Bool) (s : Sys) : Nat :=
  s.world.tasks[k]?.elim 0 (·.pc.untilDrive D level)

variable {args : InitArgs} {label : Label} (level : Bool)

theorem Sys.Pulses.next (pulses : s.Pulses D k args) (noExit : label ≠ .exit)
    (taken : D.system.step s label = some (.ok tr s')) : s'.Pulses D k args := by
  obtain ⟨t, here, rfl, awake⟩ := pulses.task
  refine ⟨pulses.serving.next noExit taken, ?_⟩
  obtain ⟨t', here', creator, ⟨-, pc⟩ | ⟨slot, swap, raw, driven, -, -, move, -⟩⟩ :=
    pulses.serving.awake noExit here awake taken
  · exact ⟨t', here', creator, pc ▸ awake⟩
  · exact ⟨t', here', creator, move.awake⟩

theorem Sys.Pulses.unmoved (pulses : s.Pulses D k args) (noExit : label ≠ .exit)
    (other : label.agent ≠ .task k) (taken : D.system.step s label = some (.ok tr s')) :
    s'.untilDrive D k level = s.untilDrive D k level := by
  obtain ⟨t, here, rfl, awake⟩ := pulses.task
  obtain ⟨t', here', creator, ⟨-, pc⟩ | ⟨slot, swap, raw, driven, rfl, -⟩⟩ :=
    pulses.serving.awake noExit here awake taken
  · simp only [Sys.untilDrive, here, here', Option.elim_some, pc]
  · exact absurd rfl other

theorem Sys.Pulses.moved (pulses : s.Pulses D k args) (mine : label.agent = .task k)
    (taken : D.system.step s label = some (.ok tr s')) :
    (s.untilDrive D k level ≠ 0 → s'.untilDrive D k level < s.untilDrive D k level) ∧
      (s.untilDrive D k level = 0 →
        (.task k, .gpio args.pin (driveStore args.pin level)) ∈ tr) := by
  obtain ⟨t, here, rfl, awake⟩ := pulses.task
  have noExit : label ≠ .exit := by
    rintro rfl
    cases mine
  obtain ⟨t', here', creator, ⟨other, -⟩ | ⟨slot, swap, raw, driven, rfl, serves, move, rfl⟩⟩ :=
    pulses.serving.awake noExit here awake taken
  · exact absurd mine other
  · simp only [Sys.untilDrive, here, here', Option.elim_some]
    refine ⟨fun away => move.untilDrive_lt level away, fun zero => ?_⟩
    have stores := move.drives (untilDrive_eq_zero awake (pulses.serving.going k t here) zero)
    rw [serves.1] at stores
    exact List.mem_map_of_mem stores

theorem Sys.Pulses.goes (pulses : s.Pulses D k args) :
    ∃ tr s', D.system.step s (.task k false) = some (.ok tr s') ∧ s'.Pulses D k args := by
  obtain ⟨t, here, -, awake⟩ := pulses.task
  obtain ⟨raw, w, stepped⟩ := pwmTask_enabled (D := D) here (pulses.serving.inv.pos_inside here)
    awake (pulses.serving.going k t here)
  have taken : D.system.step s (.task k false) =
      some (.ok (raw.map (Agent.task k, ·)) { s with world := w }) := by
    simp [Driver.system, Sys.step, stepped]
  exact ⟨_, _, taken, pulses.next (by simp) taken⟩

end KsoftPWM
