import Mathlib.Data.List.Nodup
import KsoftPWM.Requests

/-! # One channel per pin

`PWM_SET` looks for the first active slot with its pin and writes there.  That reaches
every task of the pin only if no other active slot has the pin, and `PWM_INIT` opens a
slot without looking.  The pins stay distinct exactly as long as every channel is
opened for a pin that no active slot has, and then an update reaches the only task of
its pin and stays until the next one.
-/

namespace KsoftPWM

def World.pins (w : World) : List Int32 := w.channels.map (·.pin)

def Sys.DistinctPins (s : Sys) : Prop := s.world.pins.Nodup

def NewPin (w : World) (req : Request) (outcome : CreateOutcome) : Prop :=
  match req, outcome with
  | .pwmInit args, .created => args.pin ∉ w.pins
  | _, _ => True

instance : DecidableRel (OnRequest NewPin)
  | s, .request (.pwmInit args) .created => inferInstanceAs (Decidable (args.pin ∉ s.world.pins))
  | _, .request (.pwmInit _) (.failed _) | _, .request (.pinSet ..) _ | _, .request (.gpioSet ..) _
  | _, .request (.pwmSet ..) _ | _, .statement | _, .task .. | _, .exit => .isTrue trivial

/-- Every task that is awake and drives the pin reads this duty cycle. -/
def Sys.Reads (pin duty : Int32) (s : Sys) : Prop :=
  ∀ (k : Nat) (t : Task) slot, s.world.tasks[k]? = some t → t.pc ≠ .asleep →
    s.world.dutyArray[t.pos]? = some slot → slot.pin = pin → slot.dutyCycle = duty

/-- After a `PWM_SET` that finds a slot every task of the pin reads its duty cycle, until
    the next `PWM_SET` for the pin. -/
def UpdatesReach (D : Driver) (start : Sys) (labels : List Label) : Prop :=
  ∀ before pin duty outcome between after tr s tr' s',
    labels = before ++ .request (.pwmSet pin duty) outcome :: (between ++ after) →
    D.serial.Reaches start before tr s → s.world.find pin ≠ none →
    (∀ duty' outcome', .request (.pwmSet pin duty') outcome' ∉ between) →
    D.serial.Reaches s (.request (.pwmSet pin duty) outcome :: between) tr' s' → s'.Reads pin duty

variable {D : Driver} {s s' : Sys} {w : World} {req : Request} {outcome : CreateOutcome}
  {pin duty : Int32} {slots : List Dutycycle}

theorem pins_onChannels (D : Driver) (req : Request) (outcome : CreateOutcome)
    (slots : List Dutycycle) :
    (req.onChannels D outcome slots).map (·.pin) =
      match req, outcome with
      | .pwmInit args, .created => slots.map (·.pin) ++ [args.pin]
      | _, _ => slots.map (·.pin) := by
  cases req with
  | pinSet | gpioSet => rfl
  | pwmInit args =>
      cases outcome with
      | failed why => rfl
      | created => simp [Request.onChannels, Driver.fresh, InitArgs.slot]
  | pwmSet pin duty => exact map_updateFirst (fun _ => rfl)

theorem distinct_exact (req : Request) (outcome : CreateOutcome) (distinct : w.pins.Nodup) :
    ((req.onChannels D outcome w.channels).map (·.pin)).Nodup ↔ NewPin w req outcome := by
  rw [pins_onChannels]
  cases req with
  | pinSet | gpioSet | pwmSet => exact iff_of_true distinct trivial
  | pwmInit args =>
      cases outcome with
      | failed why => exact iff_of_true distinct trivial
      | created =>
          have append := List.nodup_concat w.pins args.pin
          rw [List.concat_eq_append, and_iff_left distinct] at append
          exact append

def Holding (pin duty : Int32) (slots : List Dutycycle) : Prop :=
  pin ∈ slots.map (·.pin) ∧ ∀ slot ∈ slots, slot.pin = pin → slot.dutyCycle = duty

theorem holding_set (distinct : (slots.map (·.pin)).Nodup) (found : pin ∈ slots.map (·.pin)) :
    Holding pin duty ((Request.pwmSet pin duty).onChannels D outcome slots) := by
  refine ⟨by rwa [pins_onChannels], fun slot member same => ?_⟩
  obtain ⟨old, rfl⟩ := updateFirst_reaches Dutycycle.pin distinct member same
  rfl

theorem Holding.onChannels (holding : Holding pin duty w.channels) (new : NewPin w req outcome)
    (other : ∀ duty', req ≠ .pwmSet pin duty') :
    Holding pin duty (req.onChannels D outcome w.channels) := by
  obtain ⟨found, all⟩ := holding
  cases req with
  | pinSet | gpioSet => exact ⟨found, all⟩
  | pwmInit args =>
      cases outcome with
      | failed why => exact ⟨found, all⟩
      | created =>
          refine ⟨by rw [pins_onChannels]; exact List.mem_append_left _ found, ?_⟩
          intro slot member same
          rcases List.mem_append.mp member with old | fresh
          · exact all slot old same
          · rw [List.mem_singleton.mp fresh] at same
            have clash : args.pin = pin := same
            exact absurd (clash ▸ found) new
  | pwmSet pin' duty' =>
      refine ⟨by rwa [pins_onChannels], ?_⟩
      refine (forall_mem_updateFirst all).mpr fun i slot first here same => ?_
      obtain ⟨inside, matched, -⟩ := List.findIdx?_eq_some_iff_getElem.mp first
      obtain ⟨_, rfl⟩ := List.getElem?_eq_some_iff.mp here
      obtain rfl : pin' = pin := (of_decide_eq_true matched).symm.trans same
      exact absurd rfl (other duty')

theorem mem_pins_iff : pin ∈ w.pins ↔ w.find pin ≠ none := by
  rw [World.find, ne_eq, List.findIdx?_eq_none_iff, World.pins, List.mem_map]
  simp

theorem Holding.reads (holding : Holding pin duty s.world.channels)
    (settled : s.world.tables.Settled) : s.Reads pin duty := by
  intro k t slot here _ held same
  obtain ⟨rfl, below⟩ := settled.task_pos here
  exact holding.2 slot (mem_channels.mpr ⟨t.pos, below, held⟩) same

theorem Holding.run {labels : List Label} {tr : List (Agent × Event)}
    (holding : Holding pin duty s.world.channels) (inv : s.Inv D) (idle : s.call = none)
    (reach : D.serial.Reaches s labels tr s')
    (guarded : D.serial.Guarded (OnRequest NewPin) s labels)
    (quiet : ∀ duty' outcome', .request (.pwmSet pin duty') outcome' ∉ labels) :
    s'.Inv D ∧ s'.call = none ∧ Holding pin duty s'.world.channels := by
  have other : D.serial.Guarded
      (fun _ l => ∀ duty' outcome', l ≠ .request (.pwmSet pin duty') outcome') s labels :=
    Machine.Guarded.of_forall fun l member _ duty' outcome' same =>
      quiet duty' outcome' (same ▸ member)
  refine reach.guarded_invariant (guarded.and other)
    (I := fun s => s.Inv D ∧ s.call = none ∧ Holding pin duty s.world.channels)
    ⟨inv, idle, holding⟩ ?_
  rintro s label tr s' ⟨inv, idle, holding⟩ ⟨new, other⟩ taken
  obtain ⟨inv', idle', channels⟩ := serialStep_ok inv idle taken
  refine ⟨inv', idle', ?_⟩
  rw [channels]
  cases label with
  | request req outcome =>
      exact holding.onChannels new (fun duty' same => other duty' outcome (same ▸ rfl))
  | statement | task | exit => exact holding

/-- The pins of the active slots stay distinct, and updates reach every task of their
    pin, exactly when every channel is opened for a pin that no active slot has. -/
theorem pins_distinct_iff (D : Driver) (gpio : Gpio) (labels : List Label)
    (served : D.serial.Guarded (Served D) (Sys.load gpio) labels) :
    (D.serial.Always Sys.DistinctPins (Sys.load gpio) labels ∧
        UpdatesReach D (Sys.load gpio) labels) ↔
      D.serial.Guarded (OnRequest NewPin) (Sys.load gpio) labels := by
  have always : D.serial.Always Sys.DistinctPins (Sys.load gpio) labels ↔
      D.serial.Guarded (OnRequest NewPin) (Sys.load gpio) labels :=
    serial_always_iff (R := fun slots => (slots.map Dutycycle.pin).Nodup) List.nodup_nil
      (fun _ _ => Iff.rfl) (fun _ req outcome _ distinct => distinct_exact req outcome distinct)
      served
  rw [always, and_iff_left_iff_imp]
  rintro new before pin duty outcome between after tr s tr' s' rfl reach found quiet reach'
  have distinct : s.DistinctPins := always.mpr new before _ tr s rfl reach
  obtain ⟨-, later⟩ := Machine.guarded_append.mp new
  obtain ⟨inv, idle⟩ := serial_reaches_inv (Sys.load_inv D gpio) rfl reach
  obtain ⟨-, onward⟩ := later tr s reach
  obtain ⟨first, s₁, rest, taken, run, rfl⟩ := Machine.reaches_cons.mp reach'
  obtain ⟨inv₁, idle₁, channels⟩ := serialStep_ok inv idle taken
  have holding : Holding pin duty s₁.world.channels := by
    rw [channels, Label.onChannels]
    exact holding_set distinct (mem_pins_iff.mpr found)
  obtain ⟨inv', idle', holding'⟩ := holding.run inv₁ idle₁ run
    (Machine.guarded_append.mp (onward first s₁ taken)).1 quiet
  exact holding'.reads (inv'.settled idle')

/-- Two channels on different pins, one of them updated. -/
theorem pins_distinct_two :
    Driver.softPWM.serial.Always Sys.DistinctPins (Sys.load .reset)
        [.request (.pwmInit ⟨16, 0, 100⟩) .created, .request (.pwmInit ⟨21, 0, 10000⟩) .created,
          .request (.pwmSet 16 50) .created, .task 0 false] ∧
      UpdatesReach .softPWM (Sys.load .reset)
        [.request (.pwmInit ⟨16, 0, 100⟩) .created, .request (.pwmInit ⟨21, 0, 10000⟩) .created,
          .request (.pwmSet 16 50) .created, .task 0 false] := by
  refine (pins_distinct_iff .softPWM .reset _ ?_).mpr ?_
  · exact Machine.guarded_of_checks (fun _ _ => of_decide_eq_true) (by decide)
  · exact Machine.guarded_of_checks (fun _ _ => of_decide_eq_true) (by decide)

/-- The requests of the sample program of the user library. -/
def sampleProgram : List Label :=
  [.request (.pinSet 16 1) .created, .request (.pinSet 21 1) .created,
    .request (.pwmInit ⟨16, 0, 100⟩) .created, .request (.pwmInit ⟨21, 0, 10000⟩) .created,
    .request (.pwmSet 16 50) .created, .request (.pwmSet 21 1000) .created]

/-- Its second run opens channels for pins that have one, and updates the old ones. -/
theorem sampleProgram_duplicates (D : Driver) :
    ∃ tr s, D.serial.Reaches (Sys.load .reset) (sampleProgram ++ sampleProgram) tr s ∧
      ¬ s.DistinctPins ∧ ¬ s.Reads 16 50 := by
  obtain ⟨tr, s, reach, passed⟩ := Machine.exists_reaches D.serial (Sys.load .reset)
    (sampleProgram ++ sampleProgram)
    (fun _ s => s.world.pins == [16, 21, 16, 21] &&
      (s.world.tasks[2]?.map fun t => (t.pos, t.pc)) == some (2, D.startPc) &&
      s.world.dutyArray[2]? == some (D.fresh ⟨16, 0, 100⟩)) (by cases D <;> decide)
  simp only [Bool.and_eq_true, beq_iff_eq] at passed
  obtain ⟨⟨pins, task⟩, held⟩ := passed
  refine ⟨tr, s, reach, ?_, fun reads => ?_⟩
  · rw [Sys.DistinctPins, pins]
    decide
  · obtain ⟨t, here, same⟩ := Option.map_eq_some_iff.mp task
    obtain ⟨pos, pc⟩ := Prod.mk.inj same
    have duty := reads 2 t _ here (by rw [pc]; cases D <;> decide) (pos ▸ held) rfl
    revert duty
    cases D <;> decide

/-- In either driver. -/
theorem sample_program_twice_duplicates :
    (∃ tr s, Driver.softPWM.serial.Reaches (Sys.load .reset) (sampleProgram ++ sampleProgram) tr s ∧
      ¬ s.DistinctPins ∧ ¬ s.Reads 16 50) ∧
    ∃ tr s, Driver.xenoPWM.serial.Reaches (Sys.load .reset) (sampleProgram ++ sampleProgram) tr s ∧
      ¬ s.DistinctPins ∧ ¬ s.Reads 16 50 :=
  ⟨sampleProgram_duplicates .softPWM, sampleProgram_duplicates .xenoPWM⟩

end KsoftPWM
