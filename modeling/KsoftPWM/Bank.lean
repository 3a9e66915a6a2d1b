import KsoftPWM.Select

/-! # Pin numbers that are no pins

`PIN_SET` takes any `int` for a pin.  The word and the shift come from its truncated
quotient and remainder by ten, so a number above 59 reaches the registers behind the
function-select bank or leaves the mapping, a negative one leaves the mapping on the other
side or shifts by a negative amount, and 54..59 touch bits of word 5 that belong to no pin.
The bank is safe exactly from the pins 0..53.
-/

namespace KsoftPWM

def Access.word : Access → Int
  | .load word => word
  | .store word _ => word

/-- The amount by which `gpio_input` and `gpio_output` shift. -/
def selectShift (pin : Int32) : Int := pin.toInt.tmod 10 * 3

structure StaysInBank (pin : Int32) (before after : Gpio) (tr : List Event) : Prop where
  change : after.words = before.words ∨ ∃ p : Fin 54, ∀ v i,
    (v ≠ selectWord p ∨ i / 3 ≠ selectPlace p) →
      (after.words v).getLsbD i = (before.words v).getLsbD i
  bank : ∀ p access, .gpio p access ∈ tr → 0 ≤ access.word ∧ access.word ≤ 5
  shift : ∀ p access, .gpio p access ∈ tr → 0 ≤ selectShift pin

/-- A type that `PIN_SET` acts on. -/
def ValidType (type : Int32) : Prop := type = 0 ∨ type = 1

instance (type : Int32) : Decidable (ValidType type) := inferInstanceAs (Decidable (_ ∨ _))

variable {pin type : Int32} {w : World}

theorem actOnPin_invalid {zero one : Int32 → Gpio → Traced Access Fault Gpio}
    (invalid : ¬ ValidType type) : actOnPin zero one pin type w = .ok [] w := by
  rw [ValidType, not_or] at invalid
  rw [actOnPin, if_pos invalid]
  rfl

theorem pinSet_invalid (invalid : ¬ ValidType type) : pinSet pin type w = .ok [] w :=
  actOnPin_invalid invalid

theorem pinSet_accesses (pin : Int32) (w : World) (valid : ValidType type) :
    ∃ value gpio, pinSet pin type w =
        .ok [.gpio pin (.load (pin.toInt.tdiv 10)), .gpio pin (.store (pin.toInt.tdiv 10) value)]
          { w with gpio := gpio } ∧
      gpio = w.gpio.store (pin.toInt.tdiv 10) value ∧
      value = if type = 0 then w.gpio.words (pin.toInt.tdiv 10) &&& ~~~(shl 7 (selectShift pin))
        else w.gpio.words (pin.toInt.tdiv 10) ||| shl 1 (selectShift pin) := by
  obtain rfl | rfl := valid
  · exact ⟨_, _, rfl, rfl, rfl⟩
  · exact ⟨_, _, rfl, rfl, rfl⟩

theorem quotient_in_bank {z : Int} :
    (0 ≤ z.tdiv 10 ∧ z.tdiv 10 ≤ 5) ∧ 0 ≤ z.tmod 10 * 3 ↔ 0 ≤ z ∧ z < 60 := by
  have split := Int.tmod_add_mul_tdiv z 10
  constructor
  · rintro ⟨⟨low, high⟩, rest⟩
    have small := Int.tmod_lt_of_pos z (b := 10) (by decide)
    omega
  · rintro ⟨low, high⟩
    rw [Int.tdiv_eq_ediv_of_nonneg low, Int.tmod_eq_emod_of_nonneg low]
    omega

theorem exists_pinRequest (valid : ValidType type) (low : 0 ≤ pin.toInt) (high : pin.toInt ≤ 53) :
    ∃ r : PinRequest, pinNumber r.pin = pin ∧ r.type.code = type := by
  have number : pinNumber ⟨pin.toInt.toNat, by omega⟩ = pin := by
    apply Int32.toInt_inj.mp
    rw [toInt_pinNumber]
    exact Int.toNat_of_nonneg low
  obtain rfl | rfl := valid
  · exact ⟨⟨_, .input⟩, number, rfl⟩
  · exact ⟨⟨_, .output⟩, number, rfl⟩

theorem select_staysInBank (r : PinRequest) (w : World) :
    ∃ tr, pinSet (pinNumber r.pin) r.type.code w = .ok tr { w with gpio := w.gpio.select r } ∧
      StaysInBank (pinNumber r.pin) w.gpio (w.gpio.select r) tr := by
  have shift : 0 ≤ selectShift (pinNumber r.pin) := by
    rw [selectShift, toInt_pinNumber, Int.tmod_eq_emod_of_nonneg (by omega)]
    omega
  refine ⟨_, pinSet_select r w, .inr ⟨r.pin, fun v i => getLsbD_select⟩, ?_, fun _ _ _ => shift⟩
  intro p access member
  have word := selectWord_range r.pin
  rcases List.mem_pair.mp member with same | same
  · cases same
    exact word
  · cases same
    exact word

theorem op_changes (valid : ValidType type) {n : Nat} (place : n % 10 < 10) :
    ∃ x : BitVec 32, (if type = 0 then x &&& ~~~(7#32 <<< (3 * (n % 10)))
      else x ||| 1#32 <<< (3 * (n % 10))).getLsbD (3 * (n % 10)) ≠ x.getLsbD (3 * (n % 10)) := by
  generalize n % 10 = k at place
  obtain rfl | rfl := valid
  · refine ⟨BitVec.allOnes 32, ?_⟩
    revert k
    decide
  · refine ⟨0, ?_⟩
    revert k
    decide

/-- The numbers 54..59 have a place in word 5 that belongs to no pin. -/
theorem changes_no_pin (valid : ValidType type) (low : 54 ≤ pin.toInt) (high : pin.toInt < 60) :
    ∃ w : World, ∀ tr w', pinSet pin type w = .ok tr w' → ¬ StaysInBank pin w.gpio w'.gpio tr := by
  obtain ⟨n, number⟩ := Int.eq_ofNat_of_zero_le (show 0 ≤ pin.toInt by omega)
  have word : pin.toInt.tdiv 10 = 5 := by
    rw [Int.tdiv_eq_ediv_of_nonneg (by omega)]
    omega
  obtain ⟨x, changed⟩ := op_changes valid (Nat.mod_lt n (by decide))
  refine ⟨World.load { Gpio.reset with words := fun _ => x }, fun tr w' run stays => ?_⟩
  obtain ⟨value, gpio, run', stored, value_eq⟩ :=
    pinSet_accesses pin (World.load { Gpio.reset with words := fun _ => x }) valid
  rw [run] at run'
  cases run'
  have now : gpio.words 5 = value := by
    rw [stored, word]
    rfl
  have different : (gpio.words 5).getLsbD (3 * (n % 10)) ≠ x.getLsbD (3 * (n % 10)) := by
    rw [now, value_eq, selectShift, number, shl_place, shl_place]
    exact changed
  rcases stays.change with same | ⟨p, same⟩
  · exact different (by rw [same]; rfl)
  · refine different (same 5 _ ?_)
    have inside := p.isLt
    unfold selectWord selectPlace
    omega

/-- In either driver, a `PIN_SET` stays in the function-select bank whatever the registers
    hold exactly if its type is refused or its pin exists. -/
theorem pin_set_in_bank_iff (D : Driver) (pin type : Int32) :
    (∀ outcome w, ∃ tr w', D.ioctl outcome w (.pinSet pin type) = .ok tr (w', 0) ∧
      StaysInBank pin w.gpio w'.gpio tr) ↔
    ¬ ValidType type ∨ 0 ≤ pin.toInt ∧ pin.toInt ≤ 53 := by
  have whole : ∀ outcome w tr w', pinSet pin type w = .ok tr w' →
      D.ioctl outcome w (.pinSet pin type) = .ok tr (w', 0) := by
    intro outcome w tr w' run
    simp only [Driver.ioctl, run, Traced.ok_bind, Traced.pure_eq, Traced.after_ok, List.append_nil]
  constructor
  · intro stays
    by_cases valid : ValidType type
    · have inBank : ∀ w tr w', pinSet pin type w = .ok tr w' →
          StaysInBank pin w.gpio w'.gpio tr := by
        intro w tr w' run
        obtain ⟨_, _, run', inBank⟩ := stays .created w
        rw [whole _ _ _ _ run] at run'
        cases run'
        exact inBank
      obtain ⟨value, gpio, accesses, -⟩ := pinSet_accesses pin (World.load .reset) valid
      have first := inBank _ _ _ accesses
      obtain ⟨low, high⟩ := quotient_in_bank.mp
        ⟨first.bank pin (.load (pin.toInt.tdiv 10)) (by simp),
          first.shift pin (.load (pin.toInt.tdiv 10)) (by simp)⟩
      refine .inr ⟨low, ?_⟩
      by_contra beyond
      obtain ⟨w, never⟩ := changes_no_pin valid (by omega) high
      obtain ⟨value, gpio, accesses, -⟩ := pinSet_accesses pin w valid
      exact never _ _ accesses (inBank _ _ _ accesses)
    · exact .inl valid
  · rintro (invalid | ⟨low, high⟩) outcome w
    · exact ⟨[], w, whole _ _ _ _ (pinSet_invalid invalid), .inl rfl, by simp, by simp⟩
    · by_cases valid : ValidType type
      · obtain ⟨r, rfl, rfl⟩ := exists_pinRequest valid low high
        obtain ⟨tr, run, inBank⟩ := select_staysInBank r w
        exact ⟨tr, _, whole _ _ _ _ run, inBank⟩
      · exact ⟨[], w, whole _ _ _ _ (pinSet_invalid valid), .inl rfl, by simp, by simp⟩

theorem pin_seventy_leaves_bank (D : Driver) :
    ∃ w', D.ioctl .created (World.load .reset) (.pinSet 70 1) =
        .ok [.gpio 70 (.load 7), .gpio 70 (.store 7 1)] (w', 0) ∧ w'.gpio.levels 0 = true ∧
      ¬ StaysInBank 70 Gpio.reset w'.gpio [.gpio 70 (.load 7), .gpio 70 (.store 7 1)] := by
  refine ⟨_, rfl, rfl, fun stays => ?_⟩
  have word := stays.bank 70 (.load 7) (by simp)
  exact absurd word.2 (by decide)

/-- `PIN_SET(70, OUTPUT)` reads and writes the set register and so drives pin 0 high. -/
theorem pin_seventy_sets_pin_zero :
    (∃ w', Driver.softPWM.ioctl .created (World.load .reset) (.pinSet 70 1) =
        .ok [.gpio 70 (.load 7), .gpio 70 (.store 7 1)] (w', 0) ∧ w'.gpio.levels 0 = true ∧
      ¬ StaysInBank 70 Gpio.reset w'.gpio [.gpio 70 (.load 7), .gpio 70 (.store 7 1)]) ∧
    ∃ w', Driver.xenoPWM.ioctl .created (World.load .reset) (.pinSet 70 1) =
        .ok [.gpio 70 (.load 7), .gpio 70 (.store 7 1)] (w', 0) ∧ w'.gpio.levels 0 = true ∧
      ¬ StaysInBank 70 Gpio.reset w'.gpio [.gpio 70 (.load 7), .gpio 70 (.store 7 1)] :=
  ⟨pin_seventy_leaves_bank .softPWM, pin_seventy_leaves_bank .xenoPWM⟩

end KsoftPWM
