import KsoftPWM.Bounds
import KsoftPWM.Overwrites
import KsoftPWM.Unload

/-! # The output latch of a pulsed pin

The latch of a pin holds the last level stored for it in a set or clear register, whatever the
function of the pin, and the pin shows it while it is an output.  As long as no request drives
the pin itself, its latch is high only while one of the tasks that aim at it is between its set
and its clear, and if there is one such task the latch tells where it is: high while it sleeps
for `HIGH_TIME`, low while it sleeps for `LOW_TIME`, and low when it has returned.
-/

namespace KsoftPWM

/-- The stores of `gpio_set` and `gpio_clr` for the number reach the pin. -/
def Aims (pin : Int32) (p : Fin 54) : Prop := Gpio.selects 0 (shl 1 pin.toInt) p = true

instance (pin : Int32) (p : Fin 54) : Decidable (Aims pin p) := inferInstanceAs (Decidable (_ = true))

/-- The request does not drive the pin itself: it is no `GPIO_SET` that aims at it, and no
    `PIN_SET` whose word is one of the set and clear registers. -/
def Request.Leaves (p : Fin 54) : Request → Prop
  | .gpioSet pin status => ValidType status → ¬ Aims pin p
  | .pinSet pin type => ValidType type → Keeping (modeWord pin)
  | _ => True

/-- The thread is the only one that aims at the pin. -/
def Alone (p : Fin 54) (tasks : List Task) (k : Nat) : Prop :=
  ∀ j t, tasks[j]? = some t → Aims t.creator.pin p → j = k

/-- What the latch of a pin says about the threads that aim at it. -/
structure Shows (p : Fin 54) (tasks : List Task) (level : Bool) : Prop where
  high : level = true → ∃ (k : Nat) (t : Task), tasks[k]? = some t ∧ Aims t.creator.pin p ∧ t.pc.High
  alone : ∀ k t, tasks[k]? = some t → Aims t.creator.pin p → Alone p tasks k → t.pc.High → level = true

variable {D : Driver} {s s' : Sys} {w w' : World} {p : Fin 54} {tasks tasks' : List Task} {k : Nat}
  {t : Task} {tr : List (Agent × Event)} {raw : List Event} {label : Label}

/-! ## The registers -/

theorem levels_store_keeping {word : Int} (keeps : Keeping word) (g : Gpio) (value : BitVec 32) :
    (g.store word value).levels = g.levels := by
  obtain ⟨seven, eight, ten, eleven⟩ := keeps
  simp [Gpio.store, seven, eight, ten, eleven]

theorem pinSet_levels {pin type : Int32} (leaves : (Request.pinSet pin type).Leaves p)
    (run : pinSet pin type w = .ok raw w') : w'.gpio.levels p = w.gpio.levels p := by
  by_cases valid : ValidType type
  · have keeps := leaves valid
    obtain rfl | rfl := valid
    · cases run
      exact congrFun (levels_store_keeping keeps _ _) p
    · cases run
      exact congrFun (levels_store_keeping keeps _ _) p
  · rw [pinSet_invalid valid] at run
    cases run
    rfl

theorem gpioStatus_levels {pin status : Int32} (leaves : (Request.gpioSet pin status).Leaves p)
    (run : gpioStatus pin status w = .ok raw w') : w'.gpio.levels p = w.gpio.levels p := by
  by_cases valid : ValidType status
  · have misses := leaves valid
    obtain rfl | rfl := valid
    · cases run
      exact if_neg misses
    · cases run
      exact if_neg misses
  · rw [gpioStatus_eq, actOnPin_invalid valid] at run
    cases run
    rfl

theorem Request.Leaves.start {req : Request} {outcome : CreateOutcome} {next : Call}
    (leaves : req.Leaves p) (run : (Call.start D outcome req).step w = .ok raw (w', next)) :
    w'.gpio.levels p = w.gpio.levels p ∧ next.onPin = false := by
  cases req with
  | pinSet pin type =>
      obtain ⟨_, w₁, _, ran, done, -⟩ := Traced.bind_eq_ok.mp run
      cases done
      exact ⟨pinSet_levels leaves ran, rfl⟩
  | gpioSet pin status =>
      obtain ⟨_, w₁, _, ran, done, -⟩ := Traced.bind_eq_ok.mp run
      cases done
      exact ⟨gpioStatus_levels leaves ran, rfl⟩
  | pwmInit | pwmSet =>
      obtain ⟨gpio, off⟩ := Call.step_gpio rfl run
      exact ⟨by rw [gpio], off⟩

/-! ## The threads -/

theorem TaskPc.High.awake {pc : TaskPc} (high : pc.High) : pc ≠ .asleep := by
  rintro rfl
  exact high

theorem Alone.of_grows (grows : Grows tasks tasks') (alone : Alone p tasks' k) : Alone p tasks k := by
  intro j t here aims
  obtain ⟨t', here', creator, -⟩ := grows.kept j t here
  exact alone j t' here' (creator ▸ aims)

theorem Shows.grows {level : Bool} (shows : Shows p tasks level) (grows : Grows tasks tasks') :
    Shows p tasks' level where
  high := by
    intro isHigh
    obtain ⟨k, t, here, aims, high⟩ := shows.high isHigh
    obtain ⟨t', here', creator, pc⟩ := grows.awake here high.awake
    exact ⟨k, t', here', creator ▸ aims, pc ▸ high⟩
  alone := by
    intro k t' here' aims alone high
    cases here : tasks[k]? with
    | none => rcases grows.fresh k t' here here' with pc | pc <;> simp [pc, TaskPc.High] at high
    | some t =>
        obtain ⟨t'', there, creator, pc⟩ := grows.kept k t here
        obtain rfl := Option.some.inj (here'.symm.trans there)
        rcases pc with same | ⟨-, woken⟩
        · exact shows.alone k t here (creator ▸ aims) (alone.of_grows grows) (same ▸ high)
        · simp [woken, TaskPc.High] at high

theorem Alone.of_jump {pin : Int32} {level : Option Bool} {j : Nat} {pc : TaskPc}
    (here : w.tasks[k]? = some t) (alone : Alone p ((w.driven pin level).jump k pc).tasks j) :
    Alone p w.tasks j := by
  intro i t' here' aims
  by_cases mine : k = i
  · subst mine
    obtain rfl := Option.some.inj (here.symm.trans here')
    exact alone k _ (tasks_moved here) aims
  · exact alone i t' ((tasks_unmoved mine).trans here') aims

theorem levels_driven (w : World) (pin : Int32) (level : Option Bool) (p : Fin 54) :
    Aims pin p ∧ (∃ l, level = some l ∧ (w.driven pin level).gpio.levels p = l) ∨
      (Aims pin p → level = none) ∧ (w.driven pin level).gpio.levels p = w.gpio.levels p := by
  cases level with
  | none => exact .inr ⟨fun _ => rfl, rfl⟩
  | some l =>
      by_cases aims : Aims pin p
      · exact .inl ⟨aims, l, rfl, if_pos aims⟩
      · exact .inr ⟨fun other => absurd other aims, if_neg aims⟩

theorem Shows.move {slot : Dutycycle} {pos : Nat} {stop swap : Bool} {pc : TaskPc}
    {level : Option Bool} (shows : Shows p w.tasks (w.gpio.levels p)) (here : w.tasks[k]? = some t)
    (mine : slot.pin = t.creator.pin) (move : D.Move slot pos stop swap t.pc pc raw level) :
    Shows p ((w.driven slot.pin level).jump k pc).tasks
      (((w.driven slot.pin level).jump k pc).gpio.levels p) := by
  have half := move.high
  have moved : ((w.driven t.creator.pin level).jump k pc).tasks[k]? = some { t with pc := pc } :=
    tasks_moved here
  rw [mine]
  change Shows p _ ((w.driven t.creator.pin level).gpio.levels p)
  rcases levels_driven w t.creator.pin level p with ⟨aims, l, rfl, now⟩ | ⟨silent, same⟩
  · -- the task has stored for the pin
    rw [now]
    refine ⟨fun isHigh => ⟨k, _, moved, aims, half.mpr isHigh⟩, ?_⟩
    intro j t' here' _ alone high
    obtain rfl : k = j := alone k _ moved aims
    obtain rfl := Option.some.inj (moved.symm.trans here')
    exact half.mp high
  · rw [same]
    constructor
    · intro isHigh
      obtain ⟨j, t', here', aims, high⟩ := shows.high isHigh
      by_cases own : k = j
      · subst own
        obtain rfl := Option.some.inj (here.symm.trans here')
        rw [silent aims] at half
        exact ⟨k, _, moved, aims, half.mpr high⟩
      · exact ⟨j, t', (tasks_unmoved own).trans here', aims, high⟩
    · intro j t' here' aims alone high
      have alone₀ := alone.of_jump here
      by_cases own : k = j
      · subst own
        obtain rfl := Option.some.inj (moved.symm.trans here')
        rw [silent aims] at half
        exact shows.alone k t here aims alone₀ (half.mp high)
      · exact shows.alone j t' ((tasks_unmoved own).symm.trans here') aims alone₀ high

/-! ## Whole runs -/

structure Sys.Showing (D : Driver) (p : Fin 54) (s : Sys) : Prop where
  inv : s.Inv D
  offPin : ∀ call, s.call = some call → call.onPin = false
  shows : Shows p s.world.tasks (s.world.gpio.levels p)

theorem Sys.Showing.advance {call : Call} (showing : s.Showing D p) (inv : s'.Inv D)
    (leaves : ∀ raw w' next, call.step s.world = .ok raw (w', next) →
      w'.gpio.levels p = s.world.gpio.levels p ∧ next.onPin = false)
    (run : s.advance call = .ok raw s') : s'.Showing D p := by
  have grows := (Sys.advance_frame run).2.2
  have shown := showing.shows.grows grows
  obtain ⟨_, ⟨w', next⟩, _, ran, done, -⟩ := Traced.bind_eq_ok.mp run
  obtain ⟨same, off⟩ := leaves _ _ _ ran
  cases next with
  | returned err =>
      cases done
      exact ⟨inv, by simp, same ▸ shown⟩
  | init | pinSet | gpioSet | scan | update =>
      cases done
      refine ⟨inv, fun call here => ?_, same ▸ shown⟩
      cases here
      exact off

theorem Sys.Showing.next (showing : s.Showing D p)
    (leaves : ∀ req outcome, label = .request req outcome → req.Leaves p)
    (taken : D.system.step s label = some (.ok tr s')) : s'.Showing D p := by
  have inv := showing.inv.step_ok (admits_of_ok taken) taken
  generalize shape : (Traced.ok tr s' : Traced (Agent × Event) Fault Sys) = x at taken
  cases Sys.step_taken taken with
  | @request req outcome =>
      obtain ⟨raw, run, -⟩ := Traced.tag_eq_ok.mp shape.symm
      exact showing.advance inv (fun _ _ _ => (leaves req outcome rfl).start) run
  | @statement call here =>
      obtain ⟨raw, run, -⟩ := Traced.tag_eq_ok.mp shape.symm
      refine showing.advance inv (fun raw w' next ran => ?_) run
      obtain ⟨gpio, off⟩ := Call.step_gpio (showing.offPin call here) ran
      exact ⟨by rw [gpio], off⟩
  | @task k swap y stepped =>
      obtain ⟨t, slot, pc, raw, level, step⟩ := showing.inv.taskStep stepped shape.symm
      obtain ⟨here, -, -, -, -, ⟨pin, -⟩, move, -, rfl⟩ := step
      exact ⟨inv, showing.offPin, showing.shows.move here pin move⟩
  | @exit y idle stepped =>
      obtain ⟨raw, s₁, rfl, move, -, -, call⟩ := exitStep_keeps (showing.inv.settled idle) stepped
      cases shape
      have shown := showing.shows.grows move.grows
      refine ⟨inv, fun c here => showing.offPin c (call ▸ here), ?_⟩
      cases move <;> exact shown

/-- A task that sleeps is past the store for the half it sleeps through. -/
theorem Driver.Move.sleeps {slot : Dutycycle} {pos : Nat} {stop swap : Bool} {pc pc' : TaskPc}
    {level : Option Bool} {phase : Phase} {args : List (Option Int32)}
    (move : D.Move slot pos stop swap pc pc' raw level) (member : .sleep phase args ∈ raw) :
    pc' = phase.next := by
  cases move with
  | sleep =>
      simp only [List.mem_singleton, Event.sleep.injEq] at member
      rw [member.1]
  | entry | halt | goOn | set | clr | eval => simp at member

end KsoftPWM
