import KsoftPWM.Bounds
import KsoftPWM.Requests

/-! # How failures are reported

The handlers warn about a request they do not carry out, but only a failed thread
creation also sets `err`; the other warnings leave the switch with zero, which the user
library takes for success.  A failed creation leaves the tables as they were in softPWM.
xenoPWM has written the free slot by then, and leaves it written.
-/

namespace KsoftPWM

/-- The driver can do what the request asks for. -/
def CarriedOut (w : World) (req : Request) (outcome : CreateOutcome) : Prop :=
  match req, outcome with
  | .pinSet _ type, _ => type = 0 ∨ type = 1
  | .gpioSet _ status, _ => status = 0 ∨ status = 1
  | .pwmInit _, .created => True
  | .pwmInit _, .failed _ => False
  | .pwmSet pin _, _ => ∃ slot ∈ w.channels, slot.pin = pin

instance (w : World) (req : Request) (outcome : CreateOutcome) :
    Decidable (CarriedOut w req outcome) :=
  match req, outcome with
  | .pinSet _ type, _ => inferInstanceAs (Decidable (type = 0 ∨ type = 1))
  | .gpioSet _ status, _ => inferInstanceAs (Decidable (status = 0 ∨ status = 1))
  | .pwmInit _, .created => .isTrue trivial
  | .pwmInit _, .failed _ => .isFalse id
  | .pwmSet pin _, _ => inferInstanceAs (Decidable (∃ slot ∈ w.channels, slot.pin = pin))

structure World.Intact (w w' : World) : Prop where
  dutyArray : w'.dutyArray = w.dutyArray
  taskTable : w'.taskTable = w.taskTable
  pwmPinCount : w'.pwmPinCount = w.pwmPinCount
  gpio : w'.gpio = w.gpio

/-- A request that is carried out returns zero; one that is not returns a negative
    value and leaves the world intact. -/
def Driver.Answers (D : Driver) (w : World) (req : Request) (outcome : CreateOutcome) : Prop :=
  ∃ tr w' err, D.ioctl outcome w req = .ok tr (w', err) ∧
    (CarriedOut w req outcome → err = 0) ∧ (¬ CarriedOut w req outcome → err < 0 ∧ w.Intact w')

/-- The failures that are answered as they should be: those of thread creation, in
    xenoPWM only if the free slot happens to hold what the request writes to it. -/
def Driver.Reported (D : Driver) (w : World) (req : Request) (outcome : CreateOutcome) : Prop :=
  match req, outcome with
  | .pwmInit args, .failed _ =>
      D = .softPWM ∨ w.dutyArray[w.pwmPinCount]? = some (D.fresh args)
  | _, _ => False

instance (D : Driver) (w : World) (req : Request) (outcome : CreateOutcome) :
    Decidable (D.Reported w req outcome) :=
  match req, outcome with
  | .pwmInit args, .failed _ => inferInstanceAs
      (Decidable (D = .softPWM ∨ w.dutyArray[w.pwmPinCount]? = some (D.fresh args)))
  | .pwmInit _, .created | .pinSet .., _ | .gpioSet .., _ | .pwmSet .., _ => .isFalse id

variable {D : Driver} {w w' : World} {req : Request} {outcome : CreateOutcome} {tr : List Event}
  {err : Int}

theorem answers_iff (run : D.ioctl outcome w req = .ok tr (w', err)) :
    D.Answers w req outcome ↔
      (CarriedOut w req outcome → err = 0) ∧
        (¬ CarriedOut w req outcome → err < 0 ∧ w.Intact w') := by
  constructor
  · rintro ⟨_, _, _, again, answered⟩
    rw [run] at again
    cases again
    exact answered
  · intro answered
    exact ⟨tr, w', err, run, answered⟩

theorem answers_zero_iff (run : D.ioctl outcome w req = .ok tr (w', 0))
    (unreported : ¬ D.Reported w req outcome) :
    D.Answers w req outcome ↔ CarriedOut w req outcome ∨ D.Reported w req outcome := by
  rw [answers_iff run, or_iff_left unreported]
  constructor
  · rintro ⟨-, refused⟩
    by_contra failed
    exact absurd (refused failed).1 (Int.lt_irrefl 0)
  · intro carried
    exact ⟨fun _ => rfl, fun failed => absurd carried failed⟩

theorem refused_intact_iff {args : InitArgs} (settled : w.tables.Settled)
    (room : w.pwmPinCount < maxPwmNum) :
    w.Intact (w.refused D args room) ↔
      (D = .softPWM ∨ w.dutyArray[w.pwmPinCount]? = some (D.fresh args)) := by
  cases D with
  | softPWM =>
      have free : w.taskTable[w.pwmPinCount]? = some .null :=
        settled.free w.pwmPinCount (Nat.le_refl _) room
      have null : w.taskTable[w.pwmPinCount] = .null := by
        simpa [Vector.getElem?_eq_getElem room] using free
      have same : w.taskTable.set w.pwmPinCount .null = w.taskTable := by
        rw [← null, Vector.set_getElem_self]
      exact iff_of_true ⟨rfl, same, rfl, rfl⟩ (.inl rfl)
  | xenoPWM =>
      simp only [reduceCtorEq, false_or]
      constructor
      · intro intact
        have written : (w.dutyArray.set w.pwmPinCount (Driver.xenoPWM.fresh args))[w.pwmPinCount]? =
            some (Driver.xenoPWM.fresh args) := Vector.getElem?_set_self room
        rw [← written]
        exact congrArg (·[w.pwmPinCount]?) intact.dutyArray.symm
      · intro held
        have entry : w.dutyArray[w.pwmPinCount] = Driver.xenoPWM.fresh args := by
          simpa [Vector.getElem?_eq_getElem room] using held
        have same : w.dutyArray.set w.pwmPinCount (Driver.xenoPWM.fresh args) = w.dutyArray := by
          rw [← entry, Vector.set_getElem_self]
        exact ⟨same, rfl, rfl, rfl⟩

/-- Between requests, with a slot free, a request is answered exactly if it is carried
    out or its failure is one that is reported. -/
theorem Tables.Settled.answers_iff (settled : w.tables.Settled) (room : w.pwmPinCount < maxPwmNum)
    (req : Request) (outcome : CreateOutcome) :
    D.Answers w req outcome ↔ CarriedOut w req outcome ∨ D.Reported w req outcome := by
  cases req with
  | pinSet pin type =>
      obtain ⟨tr, gpio, run⟩ := ioctl_pinSet (w := w) D outcome pin type
      exact answers_zero_iff run id
  | gpioSet pin status =>
      obtain ⟨tr, gpio, run⟩ := ioctl_gpioSet (w := w) D outcome pin status
      exact answers_zero_iff run id
  | pwmSet pin duty =>
      obtain ⟨tr, w', run⟩ : ∃ tr w', D.ioctl outcome w (.pwmSet pin duty) = .ok tr (w', 0) := by
        cases found : w.find pin with
        | none =>
            obtain ⟨tr, run⟩ := ioctl_unknown D outcome duty settled.bound found
            exact ⟨tr, w, run⟩
        | some pos =>
            obtain ⟨tr, run⟩ := ioctl_found D outcome duty settled.bound found
            exact ⟨tr, _, run⟩
      exact answers_zero_iff run id
  | pwmInit args =>
      cases outcome with
      | created =>
          obtain ⟨tr, run⟩ := ioctl_created D args room
          exact answers_zero_iff run id
      | failed why =>
          obtain ⟨tr, run⟩ := ioctl_failed D args why room
          rw [KsoftPWM.answers_iff run]
          have negative := why.value_neg
          simp only [CarriedOut, false_implies, not_false_eq_true, true_and, forall_const,
            false_or, negative, Driver.Reported]
          exact refused_intact_iff settled room

/-- In every state reached between two requests with a slot free, a request is answered
    exactly if it is carried out or its failure is one that is reported. -/
theorem answered_iff (D : Driver) (gpio : Gpio) (labels : List Label) (tr : List (Agent × Event))
    (s : Sys) (reach : D.system.Reaches (Sys.load gpio) labels tr s) (idle : s.call = none)
    (room : s.world.pwmPinCount < maxPwmNum) (req : Request) (outcome : CreateOutcome) :
    D.Answers s.world req outcome ↔
      CarriedOut s.world req outcome ∨ D.Reported s.world req outcome := by
  exact ((Sys.inv_of_reaches reach).settled idle).answers_iff room req outcome

/-- A failed creation in softPWM, with one channel open. -/
theorem answered_failed_creation :
    ∃ tr s, Driver.softPWM.system.Reaches (Sys.load .reset)
        (Driver.softPWM.openSchedule ⟨16, 0, 100⟩) tr s ∧ s.world.pwmPinCount = 1 ∧
      Driver.softPWM.Answers s.world (.pwmInit ⟨21, 0, 100⟩) (.failed ⟨12, by decide, by decide⟩) := by
  obtain ⟨tr, s, reach, passed⟩ := Machine.exists_reaches Driver.softPWM.system (Sys.load .reset)
    (Driver.softPWM.openSchedule ⟨16, 0, 100⟩)
    (fun _ s => s.call.isNone && s.world.pwmPinCount == 1) (by decide)
  rw [Bool.and_eq_true, Option.isNone_iff_eq_none, beq_iff_eq] at passed
  refine ⟨tr, s, reach, passed.2, ?_⟩
  exact (answered_iff .softPWM .reset _ tr s reach passed.1 (by rw [passed.2]; decide) _ _).mpr
    (.inr (.inl rfl))

theorem load_unanswered (D : Driver) (req : Request) (outcome : CreateOutcome)
    (neither : ¬ (CarriedOut (World.load .reset) req outcome ∨
      D.Reported (World.load .reset) req outcome)) :
    ¬ D.Answers (World.load .reset) req outcome := by
  rwa [(Tables.load_settled .reset).answers_iff (by decide) req outcome]

/-- Right after load, a pin type, a status and a pin that the drivers warn about get the
    answer zero, and a failed creation in xenoPWM leaves the free slot written. -/
theorem refusals_go_unreported :
    (¬ Driver.softPWM.Answers (World.load .reset) (.pinSet 16 2) .created ∧
      ¬ Driver.xenoPWM.Answers (World.load .reset) (.pinSet 16 2) .created) ∧
    (¬ Driver.softPWM.Answers (World.load .reset) (.gpioSet 16 2) .created ∧
      ¬ Driver.xenoPWM.Answers (World.load .reset) (.gpioSet 16 2) .created) ∧
    (¬ Driver.softPWM.Answers (World.load .reset) (.pwmSet 16 50) .created ∧
      ¬ Driver.xenoPWM.Answers (World.load .reset) (.pwmSet 16 50) .created) ∧
    ¬ Driver.xenoPWM.Answers (World.load .reset) (.pwmInit ⟨16, 0, 100⟩)
      (.failed ⟨12, by decide, by decide⟩) := by
  refine ⟨⟨?_, ?_⟩, ⟨?_, ?_⟩, ⟨?_, ?_⟩, ?_⟩
  all_goals exact load_unanswered _ _ _ (by decide)

end KsoftPWM
