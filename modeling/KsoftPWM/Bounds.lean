import KsoftPWM.Ownership

/-! # Subscripts of the tables

The code compares `pwm_pin_count` with nothing, so a `PWM_INIT` on a full table
runs past the end of it at once.  That is the only way out of the tables: as long
as every `PWM_INIT` is issued while a slot is free, no subscript of the handler, of
a task or of the exit loop leaves them, in whatever order the steps come.
-/

namespace KsoftPWM

variable {D : Driver} {s : Sys}

theorem init_overruns (D : Driver) (args : InitArgs) (outcome : CreateOutcome) {w : World}
    (full : ¬ w.pwmPinCount < maxPwmNum) :
    ∃ table e, (Call.start D outcome (.pwmInit args)).step w =
      .fault [.subscript table w.pwmPinCount] e := by
  cases D with
  | softPWM =>
      refine ⟨.taskName, .outOfBounds .taskName w.pwmPinCount, ?_⟩
      simp only [Call.start, Driver.initCode, Call.step, Stmt.exec, subscript_full full,
        Traced.fault_bind]
  | xenoPWM =>
      refine ⟨.dutyArray, .outOfBounds .dutyArray w.pwmPinCount, ?_⟩
      simp only [Call.start, Driver.initCode, Call.step, Stmt.exec, World.setSlot_full full,
        Traced.fault_bind]

theorem step_overruns {label : Label} {x : Traced (Agent × Event) Fault Sys}
    (refused : ¬ Admits s label) (taken : s.step D label = some x) :
    ∃ e ∈ x.trace, ¬ e.2.InBounds := by
  cases label with
  | statement | task | exit => exact absurd trivial refused
  | request req outcome =>
      cases req with
      | pinSet | gpioSet | pwmSet => exact absurd trivial refused
      | pwmInit args =>
          by_cases ready : s.call = none ∧ D.accepts s.exit
          · obtain ⟨table, e, run⟩ := init_overruns D args outcome refused
            simp only [Sys.step, ready, and_self, ↓reduceIte, Option.some.injEq] at taken
            refine ⟨(.client, .subscript table s.world.pwmPinCount), ?_, refused⟩
            simp [← taken, Sys.advance, run]
          · simp [Sys.step, ready] at taken

theorem admits_of_ok {s s' : Sys} {label : Label} {tr : List (Agent × Event)}
    (taken : s.step D label = some (.ok tr s')) : Admits s label := by
  cases label with
  | statement | task | exit => trivial
  | request req outcome =>
      cases req with
      | pinSet | gpioSet | pwmSet => trivial
      | pwmInit args =>
          by_contra full
          generalize shape : (Traced.ok tr s' : Traced (Agent × Event) Fault Sys) = x at taken
          cases Sys.step_taken taken with
          | request =>
              obtain ⟨raw, run, -⟩ := Traced.tag_eq_ok.mp shape.symm
              obtain ⟨table, e, overrun⟩ := init_overruns D args outcome full
              simp [Sys.advance, overrun] at run

theorem Sys.inv_of_reaches {gpio : Gpio} {labels : List Label} {tr : List (Agent × Event)}
    (reach : D.system.Reaches (Sys.load gpio) labels tr s) : s.Inv D := by
  refine reach.invariant (Sys.load_inv D gpio) ?_
  intro s label tr s' inv taken
  exact inv.step_ok (admits_of_ok taken) taken

/-- A run subscripts the tables below `MAX_PWM_NUM` only, and counts at most that many
    channels, exactly when every `PWM_INIT` in it is issued while a slot is free. -/
theorem subscripts_in_bounds_iff (D : Driver) (gpio : Gpio) (labels : List Label)
    (x : Traced (Agent × Event) Fault Sys)
    (run : D.system.run (Sys.load gpio) labels = some x) :
    ((∀ e ∈ x.trace, e.2.InBounds) ∧
        ∀ tr s, x = .ok tr s → s.world.pwmPinCount ≤ maxPwmNum) ↔
      D.system.Guarded Admits (Sys.load gpio) labels := by
  have bounds : (∀ e ∈ x.trace, e.2.InBounds) ↔
      D.system.Guarded Admits (Sys.load gpio) labels := by
    refine Machine.trace_forall_iff_guarded (Sys.load_inv D gpio) ?_ ?_ ?_ run
    · intro s label x inv taken
      constructor
      · intro good
        by_contra refused
        obtain ⟨e, member, bad⟩ := step_overruns refused taken
        exact bad (good e member)
      · intro admits
        obtain ⟨tr, s', rfl, bounds, -⟩ := inv.step admits taken
        exact bounds
    · intro s label tr s' inv admits taken
      exact inv.step_ok admits taken
    · intro s label tr e inv admits taken
      obtain ⟨_, _, same, -⟩ := inv.step admits taken
      cases same
  rw [bounds]
  refine ⟨fun held => held.1, fun guarded => ⟨guarded, ?_⟩⟩
  rintro tr s rfl
  exact (Sys.reaches_inv run guarded).established.bound

/-- One channel, opened on the empty table. -/
theorem subscripts_in_bounds_first :
    ∃ tr s, Driver.xenoPWM.system.Reaches (Sys.load .reset)
        (Driver.xenoPWM.openSchedule ⟨16, 0, 100⟩) tr s ∧ s.world.pwmPinCount = 1 ∧
      ∀ e ∈ tr, e.2.InBounds := by
  obtain ⟨tr, s, reach, count⟩ := Machine.exists_reaches Driver.xenoPWM.system
    (Sys.load .reset) (Driver.xenoPWM.openSchedule ⟨16, 0, 100⟩)
    (fun _ s => s.world.pwmPinCount == 1) (by decide)
  refine ⟨tr, s, reach, by simpa using count, ?_⟩
  exact ((subscripts_in_bounds_iff .xenoPWM .reset _ _ reach).mpr
    (Sys.few_admitted _ _ (by decide))).1

/-- With five channels open, the sixth `PWM_INIT` subscripts past the tables, in
    either driver. -/
theorem sixth_channel_overruns :
    (¬ ∀ e ∈ ((Driver.softPWM.system.run (Sys.load .reset)
      (List.replicate 6 (Driver.softPWM.openSchedule ⟨16, 0, 100⟩)).flatten).elim []
        Traced.trace), e.2.InBounds) ∧
    ¬ ∀ e ∈ ((Driver.xenoPWM.system.run (Sys.load .reset)
      (List.replicate 6 (Driver.xenoPWM.openSchedule ⟨16, 0, 100⟩)).flatten).elim []
        Traced.trace), e.2.InBounds := by
  constructor <;> decide

end KsoftPWM
