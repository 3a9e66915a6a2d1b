import KsoftPWM.Bank
import KsoftPWM.Bounds
import KsoftPWM.Pins
import KsoftPWM.Requests

/-! # Driving one pin

`PIN_SET` divides a pin over six words and so reaches all 54 pins.  `gpio_set` and
`gpio_clr` always store to the words of the first bank, and shift by the pin without
looking at it.  So the pins 32..53 can be made outputs and never be driven, and a number
that is no pin either drives nothing or, where its low byte is below 32, a pin that nobody
asked for.
-/

namespace KsoftPWM

/-- C defines a shift of an `int` for these amounts only. -/
def ShiftDefined (amount : Int) : Prop := 0 ≤ amount ∧ amount < 32

/-- The pin exists, the shift by it is defined, and it is the only pin to take the level. -/
structure DrivesExactly (pin : Int32) (level : Bool) (before after : Gpio) : Prop where
  exist : 0 ≤ pin.toInt ∧ pin.toInt ≤ 53
  shift : ShiftDefined pin.toInt
  levels : ∀ p : Fin 54, after.levels p = if pin.toInt = p.val then level else before.levels p

/-- The request is turned down: it returns an error, or leaves the registers alone. -/
def Refused (tr : List Event) (err : Int) : Prop := err ≠ 0 ∨ ∀ e ∈ tr, e.Silent

def DrivesOrRefuses (pin : Int32) (level : Bool) (w : World) (x : Kernel (World × Int)) : Prop :=
  ∃ tr w' err, x = .ok tr (w', err) ∧
    (Refused tr err ∧ w'.gpio.levels = w.gpio.levels ∨ DrivesExactly pin level w.gpio w'.gpio)

def TaskPc.asks : TaskPc → Option Bool
  | .set => some true
  | .clr => some false
  | _ => none

def DrivesAsked (pin : Int32) (before after : Gpio) : Option Bool → Prop
  | none => after.levels = before.levels
  | some level => DrivesExactly pin level before after

/-- In every run, every step of a task that a `PWM_INIT` with these arguments has created
    drives the pin as it should. -/
def Driver.TasksDrive (D : Driver) (args : InitArgs) : Prop :=
  ∀ gpio labels tr s k swap tr' s' t, D.system.Reaches (Sys.load gpio) labels tr s →
    D.system.step s (.task k swap) = some (.ok tr' s') → s.world.tasks[k]? = some t →
    t.creator = args → DrivesAsked args.pin s.world.gpio s'.world.gpio t.pc.asks

/-- `PIN_SET` makes the pin an output. -/
def Driver.CanOutput (D : Driver) (p : Fin 54) : Prop :=
  ∃ outcome w tr w', D.ioctl outcome w (.pinSet (pinNumber p) 1) = .ok tr (w', 0) ∧
    w'.gpio.field p = 1

def Driver.CanDrive (D : Driver) (p : Fin 54) : Prop :=
  ∀ outcome w level, ∃ status tr w',
    D.ioctl outcome w (.gpioSet (pinNumber p) status) = .ok tr (w', 0) ∧ w'.gpio.levels p = level

/-! ## Stores to the first bank -/

theorem selects_high {p : Fin 54} (high : 32 ≤ p.val) (value : BitVec 32) :
    Gpio.selects 0 value p = false := by
  have bank : p.val / 32 ≠ 0 := by omega
  simp [Gpio.selects, bank]

theorem drive_high {p : Fin 54} (high : 32 ≤ p.val) (g : Gpio) (value : BitVec 32) (level : Bool) :
    (g.drive 0 value level).levels p = g.levels p := by
  simp [Gpio.drive, selects_high high]

theorem Banked.drives {pin : Int32} (banked : Banked pin) (g : Gpio) (level : Bool) :
    DrivesExactly pin level g (g.drive 0 (shl 1 pin.toInt) level) where
  exist := ⟨banked.1, by have := banked.2; omega⟩
  shift := banked
  levels := by
    intro p
    simp only [Gpio.drive, selects_shl banked.1 banked.2, decide_eq_true_eq]

theorem banked_of_drives {pin : Int32} (level : Bool)
    (drives : ∀ g : Gpio, DrivesExactly pin level g (g.drive 0 (shl 1 pin.toInt) level)) :
    Banked pin := by
  obtain ⟨low, high⟩ := (drives .reset).exist
  refine ⟨low, ?_⟩
  by_contra beyond
  -- a pin of the second bank keeps the opposite level
  let p : Fin 54 := ⟨pin.toInt.toNat, by omega⟩
  let opposite : Gpio := { Gpio.reset with levels := fun _ => !level }
  have mine : pin.toInt = (p.val : Int) := (Int.toNat_of_nonneg low).symm
  have second : 32 ≤ p.val := by omega
  have wanted := (drives opposite).levels p
  rw [if_pos mine, drive_high second] at wanted
  cases level <;> simp [opposite] at wanted

/-! ## `GPIO_SET` -/

variable {D : Driver}

theorem gpioSet_invalid {status : Int32} (invalid : ¬ ValidType status) (D : Driver)
    (outcome : CreateOutcome) (pin : Int32) (w : World) :
    D.ioctl outcome w (.gpioSet pin status) = .ok [] (w, 0) := by
  rw [Driver.ioctl, gpioStatus_eq, actOnPin_invalid invalid]
  rfl

theorem gpioSet_valid {status : Int32} (valid : ValidType status) (D : Driver)
    (outcome : CreateOutcome) (pin : Int32) (w : World) :
    ∃ access, D.ioctl outcome w (.gpioSet pin status) = .ok [.gpio pin access]
      ({ w with gpio := w.gpio.drive 0 (shl 1 pin.toInt) (status = 1) }, 0) := by
  obtain rfl | rfl := valid
  · exact ⟨_, rfl⟩
  · exact ⟨_, rfl⟩

theorem gpioSet_drives_iff (D : Driver) (pin status : Int32) :
    (∀ outcome w, DrivesOrRefuses pin (status = 1) w (D.ioctl outcome w (.gpioSet pin status))) ↔
      ¬ ValidType status ∨ Banked pin := by
  constructor
  · intro drives
    by_cases valid : ValidType status
    · refine .inr (banked_of_drives (status = 1) fun g => ?_)
      obtain ⟨tr, w', err, run, answer⟩ := drives .created (World.load g)
      obtain ⟨access, stored⟩ := gpioSet_valid valid D .created pin (World.load g)
      rw [stored] at run
      cases run
      rcases answer with ⟨refused, -⟩ | exactly
      · -- the store has been issued and the answer is zero
        rcases refused with failed | silent
        · exact absurd rfl failed
        · exact absurd rfl (silent _ (by simp) pin access)
      · exact exactly
    · exact .inl valid
  · intro allowed outcome w
    by_cases valid : ValidType status
    · have banked : Banked pin := allowed.resolve_left (not_not_intro valid)
      obtain ⟨access, stored⟩ := gpioSet_valid valid D outcome pin w
      exact ⟨_, _, _, stored, .inr (banked.drives w.gpio _)⟩
    · exact ⟨_, _, _, gpioSet_invalid valid D outcome pin w, .inl ⟨.inr (by simp), rfl⟩⟩

/-! ## Tasks -/

variable {s s' : Sys} {tr : List (Agent × Event)}

theorem Driver.Move.asks {slot : Dutycycle} {pos : Nat} {stop swap : Bool} {pc pc' : TaskPc}
    {tr : List Event} {level : Option Bool}
    (move : D.Move slot pos stop swap pc pc' tr level) : level = pc.asks := by
  cases move <;> rfl

/-- Some run brings the task of a channel with any arguments to its first `gpio_set`, from any
    state of the registers. -/
theorem exists_set (D : Driver) (args : InitArgs) (gpio : Gpio) :
    ∃ labels tr s tr' s' t, D.system.Reaches (Sys.load gpio) labels tr s ∧
      D.system.step s (.task 0 false) = some (.ok tr' s') ∧ s.world.tasks[0]? = some t ∧
      t.creator = args ∧ t.pc = .set ∧ s.world.gpio = gpio := by
  cases D with
  | softPWM =>
      exact ⟨Driver.softPWM.openSchedule args ++ [Label.task 0 false], _, _, _, _, _, rfl, rfl, rfl,
        rfl, rfl, rfl⟩
  | xenoPWM =>
      exact ⟨Driver.xenoPWM.openSchedule args ++ [Label.task 0 false, .task 0 false], _, _, _, _, _, rfl,
        rfl, rfl, rfl, rfl, rfl⟩

theorem gpio_driven (w : World) (pin : Int32) (level : Option Bool) :
    (w.driven pin level).gpio =
      level.elim w.gpio fun level => w.gpio.drive 0 (shl 1 pin.toInt) level := by
  cases level <;> rfl

/-- What a step of a task does to the registers is decided by where it is and by the request
    that created it. -/
theorem taskStep_gpio {k : Nat} {swap : Bool} {t : Task} (inv : s.Inv D)
    (taken : D.system.step s (.task k swap) = some (.ok tr s'))
    (here : s.world.tasks[k]? = some t) :
    s'.world.gpio = (s.world.driven t.creator.pin t.pc.asks).gpio := by
  obtain ⟨x, stepped, run⟩ := Option.map_eq_some_iff.mp taken
  obtain ⟨t', slot, pc, raw, level, step⟩ := inv.taskStep stepped run
  obtain rfl : t' = t := by simpa [here] using step.here.symm
  rw [step.after, ← step.move.asks, ← step.serves.1]
  rfl

theorem tasksDrive_iff (D : Driver) (args : InitArgs) : D.TasksDrive args ↔ Banked args.pin := by
  constructor
  · intro drives
    refine banked_of_drives true fun g => ?_
    obtain ⟨labels, tr, s, tr', s', t, reach, taken, here, rfl, pc, rfl⟩ := exists_set D args g
    have asked := drives _ labels tr s 0 false tr' s' t reach taken here rfl
    rw [taskStep_gpio (Sys.inv_of_reaches reach) taken here, pc] at asked
    exact asked
  · rintro banked gpio labels tr s k swap tr' s' t reach taken here rfl
    rw [taskStep_gpio (Sys.inv_of_reaches reach) taken here, gpio_driven]
    cases t.pc.asks with
    | none => rfl
    | some level => exact banked.drives s.world.gpio level

/-! ## Outputs -/

theorem canOutput (D : Driver) (p : Fin 54) : D.CanOutput p := by
  obtain ⟨tr, run⟩ := ioctl_select D .created ⟨p, .output⟩ (World.load .reset)
  refine ⟨.created, World.load .reset, tr, _, run, ?_⟩
  have field := field_select_self Gpio.reset ⟨p, .output⟩
  have empty : Gpio.reset.field p = 0 := by
    simp [Gpio.field, Gpio.reset, Fields.get]
  rw [empty] at field
  exact field

theorem canDrive_iff (D : Driver) (p : Fin 54) : D.CanDrive p ↔ p.val < 32 := by
  have number := toInt_pinNumber p
  constructor
  · intro drives
    by_contra beyond
    obtain ⟨status, tr, w', run, level⟩ := drives .created (World.load .reset) true
    have kept : w'.gpio.levels p = false := by
      by_cases valid : ValidType status
      · obtain ⟨access, stored⟩ := gpioSet_valid valid D .created (pinNumber p) (World.load .reset)
        rw [stored] at run
        cases run
        exact drive_high (by omega) _ _ _
      · rw [gpioSet_invalid valid] at run
        cases run
        rfl
    rw [kept] at level
    cases level
  · intro low outcome w level
    have banked : Banked (pinNumber p) := by
      rw [Banked, number]
      omega
    have set := (banked.drives w.gpio level).levels p
    rw [if_pos number] at set
    cases level with
    | false => exact ⟨0, _, _, rfl, set⟩
    | true => exact ⟨1, _, _, rfl, set⟩

/-- In either driver, `GPIO_SET` with a valid status and the tasks of a `PWM_INIT` drive
    exactly the pin they are given if and only if it is one of 0..31; a `PWM_INIT` changes no
    level itself; and all 54 pins can be made outputs while 32 of them can be driven. -/
theorem drives_exactly_iff (D : Driver) :
    (∀ pin status,
      (∀ outcome w, DrivesOrRefuses pin (status = 1) w (D.ioctl outcome w (.gpioSet pin status))) ↔
        ¬ ValidType status ∨ Banked pin) ∧
    (∀ args outcome w tr w' err, D.ioctl outcome w (.pwmInit args) = .ok tr (w', err) →
      w'.gpio = w.gpio) ∧
    (∀ args, D.TasksDrive args ↔ Banked args.pin) ∧
    ∀ p, D.CanOutput p ∧ (D.CanDrive p ↔ p.val < 32) := by
  refine ⟨gpioSet_drives_iff D, ?_, tasksDrive_iff D, fun p => ⟨canOutput D p, canDrive_iff D p⟩⟩
  intro args outcome w tr w' err run
  obtain ⟨room, ⟨-, rfl, -⟩ | ⟨why, -, rfl, -⟩⟩ := ioctl_pwmInit run
  · rfl
  · cases D <;> rfl

theorem pin_forty_undriven (D : Driver) :
    ∃ tr w tr' w', D.ioctl .created (World.load .reset) (.pinSet 40 1) = .ok tr (w, 0) ∧
      w.gpio.field 40 = 1 ∧ D.ioctl .created w (.gpioSet 40 1) = .ok tr' (w', 0) ∧
      w'.gpio.levels 40 = false ∧
      ¬ DrivesOrRefuses 40 true w (D.ioctl .created w (.gpioSet 40 1)) := by
  refine ⟨_, _, _, _, rfl, by decide, rfl, by decide, ?_⟩
  rintro ⟨tr', w', err, run, answer⟩
  cases run
  rcases answer with ⟨failed | silent, -⟩ | exactly
  · exact failed rfl
  · exact silent _ (List.mem_singleton.mpr rfl) _ _ rfl
  · -- bit 40 of a 32-bit word is no bit, so the level is still low
    exact absurd (exactly.levels 40) (by decide)

/-- `PIN_SET(40, OUTPUT)` makes an output that `GPIO_SET(40, HIGH)` leaves low while it reports
    success, and `GPIO_SET(256, HIGH)` drives pin 0. -/
theorem pin_forty_is_never_driven :
    ((∃ tr w tr' w', Driver.softPWM.ioctl .created (World.load .reset) (.pinSet 40 1) =
          .ok tr (w, 0) ∧
        w.gpio.field 40 = 1 ∧ Driver.softPWM.ioctl .created w (.gpioSet 40 1) = .ok tr' (w', 0) ∧
        w'.gpio.levels 40 = false ∧
        ¬ DrivesOrRefuses 40 true w (Driver.softPWM.ioctl .created w (.gpioSet 40 1))) ∧
      ∃ tr w tr' w', Driver.xenoPWM.ioctl .created (World.load .reset) (.pinSet 40 1) =
          .ok tr (w, 0) ∧
        w.gpio.field 40 = 1 ∧ Driver.xenoPWM.ioctl .created w (.gpioSet 40 1) = .ok tr' (w', 0) ∧
        w'.gpio.levels 40 = false ∧
        ¬ DrivesOrRefuses 40 true w (Driver.xenoPWM.ioctl .created w (.gpioSet 40 1))) ∧
    ∃ tr w', Driver.softPWM.ioctl .created (World.load .reset) (.gpioSet 256 1) = .ok tr (w', 0) ∧
      w'.gpio.levels 0 = true ∧ ¬ DrivesExactly 256 true Gpio.reset w'.gpio := by
  refine ⟨⟨pin_forty_undriven .softPWM, pin_forty_undriven .xenoPWM⟩, _, _, rfl, by decide, ?_⟩
  intro exactly
  exact absurd exactly.exist.2 (by decide)

end KsoftPWM
