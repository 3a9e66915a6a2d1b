import KsoftPWM.Range
import KsoftPWM.Unique

/-! # Well-behaved clients of xenoPWM

Clients that open their channels from zero upwards, one for each pin, and send values in
scale only, still depend on what the driver itself puts into a new slot: xenoPWM starts a
channel at a duty cycle of ten, whatever its range.  A channel of less than ten units
begins out of scale and stays there until its first `PWM_SET`.
-/

namespace KsoftPWM

/-- A channel is opened from zero upwards for a new pin, and a value sent to a pin lies
    between zero and the maximum of the channel of that pin. -/
def WellBehaved (w : World) (req : Request) (_ : CreateOutcome) : Prop :=
  match req with
  | .pwmInit args => args.min = 0 ∧ 0 < args.max.toInt ∧ args.pin ∉ w.pins
  | .pwmSet pin duty => ∀ pos ∈ w.find pin, ∀ slot ∈ w.dutyArray[pos]?,
      0 ≤ duty.toInt ∧ duty.toInt ≤ slot.max.toInt
  | _ => True

instance : DecidableRel (OnRequest WellBehaved)
  | s, .request (.pwmInit args) _ =>
      inferInstanceAs (Decidable (args.min = 0 ∧ 0 < args.max.toInt ∧ args.pin ∉ s.world.pins))
  | s, .request (.pwmSet pin duty) _ => inferInstanceAs (Decidable
      (∀ pos ∈ s.world.find pin, ∀ slot ∈ s.world.dutyArray[pos]?,
        0 ≤ duty.toInt ∧ duty.toInt ≤ slot.max.toInt))
  | _, .request (.pinSet ..) _ | _, .request (.gpioSet ..) _ | _, .statement | _, .task ..
  | _, .exit => .isTrue trivial

/-- A channel that comes to life has room for the ten units it starts with. -/
def HoldsTen (_ : World) (req : Request) (outcome : CreateOutcome) : Prop :=
  match req, outcome with
  | .pwmInit args, .created => 10 ≤ args.max.toInt
  | _, _ => True

instance : DecidableRel (OnRequest HoldsTen)
  | _, .request (.pwmInit args) .created => inferInstanceAs (Decidable (10 ≤ args.max.toInt))
  | _, .request (.pwmInit _) (.failed _) | _, .request (.pinSet ..) _ | _, .request (.gpioSet ..) _
  | _, .request (.pwmSet ..) _ | _, .statement | _, .task .. | _, .exit => .isTrue trivial

def Dutycycle.FromZero (slot : Dutycycle) : Prop := slot.min = 0 ∧ 0 < slot.max.toInt

variable {s s' : Sys} {w : World} {label : Label} {tr : List (Agent × Event)}

theorem Dutycycle.FromZero.range {slot : Dutycycle} (fromZero : slot.FromZero) :
    slot.range = slot.max.toInt := by
  rw [Dutycycle.range, fromZero.1, Int32.toInt_zero, sub_zero]

/-- Among channels from zero upwards, what well-behaved clients can still get wrong is a
    range of less than ten. -/
theorem timely_iff_holdsTen {req : Request} {outcome : CreateOutcome}
    (fromZero : ∀ slot ∈ w.channels, slot.FromZero) (behaved : WellBehaved w req outcome) :
    Driver.xenoPWM.Timely w req outcome ↔ HoldsTen w req outcome := by
  cases req with
  | pinSet | gpioSet => exact Iff.rfl
  | pwmInit args =>
      cases outcome with
      | failed why => exact Iff.rfl
      | created =>
          obtain ⟨min, pos, -⟩ := behaved
          have range : args.range = args.max.toInt := by
            rw [InitArgs.range, min, Int32.toInt_zero, sub_zero]
          have top := args.max.toInt_lt
          have ten : Driver.xenoPWM.creationDuty.toInt = 10 := by decide
          simp only [Driver.Timely, Driver.Takes, HoldsTen, range, ten]
          omega
  | pwmSet pin duty =>
      refine iff_of_true (fun pos found slot held => ?_) trivial
      have active : slot ∈ w.channels := mem_channels.mpr ⟨pos, (find_inside found).1, held⟩
      obtain ⟨nonneg, inScale⟩ := behaved pos found slot held
      have range := (fromZero slot active).range
      have pos := (fromZero slot active).2
      have top := slot.max.toInt_lt
      simp only [Driver.Takes, range]
      omega

theorem wellBehaved_respects {D : Driver} (behaved : OnRequest WellBehaved s label) :
    Respects D Dutycycle.FromZero s label := by
  cases label with
  | statement | task | exit => trivial
  | request req outcome =>
      cases req with
      | pinSet | gpioSet => trivial
      | pwmInit args => exact fun _ => ⟨behaved.1, behaved.2.1⟩
      | pwmSet pin duty => exact fun _ _ _ _ _ _ fromZero => fromZero

theorem fromZero_serialStep {D : Driver} (inv : s.Inv D) (idle : s.call = none)
    (fromZero : ∀ slot ∈ s.world.channels, slot.FromZero)
    (behaved : OnRequest WellBehaved s label) (taken : D.serial.step s label = some (.ok tr s')) :
    s'.Inv D ∧ s'.call = none ∧ ∀ slot ∈ s'.world.channels, slot.FromZero := by
  obtain ⟨inv', idle', channels⟩ := serialStep_ok inv idle taken
  refine ⟨inv', idle', ?_⟩
  rw [channels]
  cases label with
  | statement | task | exit => exact fromZero
  | request req outcome =>
      cases req with
      | pinSet | gpioSet => exact fromZero
      | pwmInit args =>
          cases outcome with
          | failed why => exact fromZero
          | created =>
              intro slot member
              rcases List.mem_append.mp member with old | new
              · exact fromZero slot old
              · rw [List.mem_singleton.mp new]
                exact ⟨behaved.1, behaved.2.1⟩
      | pwmSet pin duty =>
          refine (forall_mem_updateFirst fromZero).mpr fun i slot _ here => ?_
          exact fromZero slot (List.mem_of_getElem? here)

/-- Along a run of well-behaved clients, conditions that agree as long as the channels are
    from zero upwards may be exchanged. -/
theorem guarded_exchange {D : Driver} {gpio : Gpio} {labels : List Label}
    {C C' : World → Request → CreateOutcome → Prop}
    (guarded : D.serial.Guarded (fun s l => Served D s l ∧ OnRequest WellBehaved s l)
      (Sys.load gpio) labels)
    (implies : ∀ w req outcome, (∀ slot ∈ w.channels, slot.FromZero) → WellBehaved w req outcome →
      C w req outcome → C' w req outcome)
    (held : D.serial.Guarded (OnRequest C) (Sys.load gpio) labels) :
    D.serial.Guarded (OnRequest C') (Sys.load gpio) labels := by
  refine (guarded.and held).imp_of_invariant
    (I := fun s => s.Inv D ∧ s.call = none ∧ ∀ slot ∈ s.world.channels, slot.FromZero)
    ⟨Sys.load_inv D gpio, rfl, by simp [Sys.load, World.load, World.channels]⟩ ?_ ?_
  · rintro s l tr s' ⟨inv, idle, fromZero⟩ ⟨⟨-, behaved⟩, -⟩ taken
    exact fromZero_serialStep inv idle fromZero behaved taken
  · rintro s l ⟨-, -, fromZero⟩ ⟨⟨-, behaved⟩, here⟩
    cases l with
    | statement | task | exit => trivial
    | request req outcome => exact implies s.world req outcome fromZero behaved here

/-- With well-behaved clients whose channels all hold ten units, every task of xenoPWM finds
    `HIGH_TIME` and `LOW_TIME` between zero and the period and sleeps for such times only,
    from the creation of its channel on and in whatever order the steps come.  With whole
    requests, any channel of less than ten units breaks this. -/
theorem well_behaved_within_period (gpio : Gpio) (labels : List Label) :
    (∀ tr s, Driver.xenoPWM.system.Reaches (Sys.load gpio) labels tr s →
      Driver.xenoPWM.system.Guarded (fun s l => Admits s l ∧ OnRequest WellBehaved s l ∧
        OnRequest HoldsTen s l) (Sys.load gpio) labels →
      s.Timed .xenoPWM ∧ ∀ k phase args, (Agent.task k, Event.sleep phase args) ∈ tr →
        ∀ time ∈ args, Driver.xenoPWM.InPeriod time) ∧
    (Driver.xenoPWM.serial.Guarded (fun s l => Served .xenoPWM s l ∧ OnRequest WellBehaved s l)
        (Sys.load gpio) labels →
      (Driver.xenoPWM.serial.Always (Sys.Timed .xenoPWM) (Sys.load gpio) labels ↔
        Driver.xenoPWM.serial.Guarded (OnRequest HoldsTen) (Sys.load gpio) labels)) := by
  constructor
  · intro tr s reach guarded
    refine timely_run reach (guarded.imp_of_invariant
      (I := Sys.Keeps .xenoPWM Dutycycle.FromZero) (Sys.load_keeps _ _ gpio) ?_ ?_)
    · rintro s l tr s' keeps ⟨admitted, behaved, -⟩ taken
      exact keeps.step admitted (wellBehaved_respects behaved) taken
    · rintro s l keeps ⟨admitted, behaved, ten⟩
      refine ⟨admitted, ?_⟩
      cases l with
      | statement | task | exit => trivial
      | request req outcome =>
          refine (timely_iff_holdsTen (fun slot member => ?_) behaved).mpr ten
          obtain ⟨k, below, held⟩ := mem_channels.mp member
          exact keeps.active k below slot held
  · intro guarded
    rw [timely_always_iff (guarded.mono fun _ _ both => both.1)]
    constructor
    · exact guarded_exchange guarded fun _ _ _ fromZero behaved =>
        (timely_iff_holdsTen fromZero behaved).mp
    · exact guarded_exchange guarded fun _ _ _ fromZero behaved =>
        (timely_iff_holdsTen fromZero behaved).mpr

/-- A channel of exactly ten units: before its first `PWM_SET` it is high all the time. -/
theorem well_behaved_within_period_ten :
    (∃ tr s, Driver.xenoPWM.system.Reaches (Sys.load .reset)
        (Driver.xenoPWM.openSchedule ⟨16, 0, 10⟩ ++ List.replicate 5 (.task 0 false)) tr s ∧
      (Agent.task 0, Event.sleep .high [some 10000000]) ∈ tr ∧ s.Timed .xenoPWM ∧
      Driver.xenoPWM.InPeriod (some 10000000)) ∧
    Driver.xenoPWM.serial.Always (Sys.Timed .xenoPWM) (Sys.load .reset)
      [.request (.pwmInit ⟨16, 0, 10⟩) .created, .task 0 false,
        .request (.pwmSet 16 5) .created] := by
  constructor
  · obtain ⟨tr, s, reach, slept⟩ := Machine.exists_reaches Driver.xenoPWM.system (Sys.load .reset)
      (Driver.xenoPWM.openSchedule ⟨16, 0, 10⟩ ++ List.replicate 5 (.task 0 false))
      (fun tr _ => tr.contains (Agent.task 0, Event.sleep .high [some 10000000])) (by decide)
    rw [List.contains_iff_mem] at slept
    have guarded : Driver.xenoPWM.system.Guarded (fun s l => Admits s l ∧
        OnRequest WellBehaved s l ∧ OnRequest HoldsTen s l) (Sys.load .reset)
        (Driver.xenoPWM.openSchedule ⟨16, 0, 10⟩ ++ List.replicate 5 (.task 0 false)) :=
      Machine.guarded_of_checks (fun _ _ => of_decide_eq_true) (by decide)
    obtain ⟨timed, sleeps⟩ := (well_behaved_within_period .reset _).1 tr s reach guarded
    exact ⟨tr, s, reach, slept, timed, sleeps 0 .high _ slept _ (by simp)⟩
  · refine ((well_behaved_within_period .reset _).2 ?_).mpr ?_
    · exact Machine.guarded_of_checks (fun _ _ => of_decide_eq_true) (by decide)
    · exact Machine.guarded_of_checks (fun _ _ => of_decide_eq_true) (by decide)

/-- A channel of five units is opened properly, and its task sleeps for two periods and then
    for less than nothing. -/
theorem five_units_start_out_of_scale :
    ∃ tr s, Driver.xenoPWM.system.Reaches (Sys.load .reset)
        (Driver.xenoPWM.openSchedule ⟨16, 0, 5⟩ ++ List.replicate 8 (.task 0 false)) tr s ∧
      Driver.xenoPWM.system.Guarded (fun s l => Admits s l ∧ OnRequest WellBehaved s l)
        (Sys.load .reset)
        (Driver.xenoPWM.openSchedule ⟨16, 0, 5⟩ ++ List.replicate 8 (.task 0 false)) ∧
      (Agent.task 0, Event.sleep .high [some 20000000]) ∈ tr ∧
      (Agent.task 0, Event.sleep .low [some (-10000000)]) ∈ tr ∧ ¬ s.Timed .xenoPWM := by
  obtain ⟨tr, s, reach, passed⟩ := Machine.exists_reaches Driver.xenoPWM.system (Sys.load .reset)
    (Driver.xenoPWM.openSchedule ⟨16, 0, 5⟩ ++ List.replicate 8 (.task 0 false))
    (fun tr s => tr.contains (Agent.task 0, Event.sleep .high [some 20000000]) &&
      tr.contains (Agent.task 0, Event.sleep .low [some (-10000000)]) &&
      (s.world.tasks[0]?.map fun t => (t.pos, t.pc)) == some (0, .loopHead) &&
      s.world.dutyArray[0]? == some (Driver.xenoPWM.fresh ⟨16, 0, 5⟩)) (by decide)
  simp only [Bool.and_eq_true, List.contains_iff_mem, beq_iff_eq] at passed
  obtain ⟨⟨⟨high, low⟩, task⟩, held⟩ := passed
  obtain ⟨t, here, same⟩ := Option.map_eq_some_iff.mp task
  obtain ⟨pos, pc⟩ := Prod.mk.inj same
  refine ⟨tr, s, reach, ?_, high, low, ?_⟩
  · exact Machine.guarded_of_checks (fun _ _ => of_decide_eq_true) (by decide)
  · exact not_timed here (by simp [pc]) (pos ▸ held) (by decide)

end KsoftPWM
