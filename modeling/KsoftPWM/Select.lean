import KsoftPWM.Base.Fields
import KsoftPWM.Base.Replay
import KsoftPWM.Model.Serial

/-! # The function-select fields

Words 0..5 of the register block hold a three-bit function for each of the pins 0..53, ten
to a word.  `gpio_input` clears the field of its pin, `gpio_output` sets the lowest bit of
it, and both leave every other bit of the block alone.
-/

namespace KsoftPWM

inductive PinType where
  | input
  | output
  deriving Repr, DecidableEq

namespace PinType

def code : PinType → Int32
  | input => 0
  | output => 1

def act : PinType → BitVec 3 → BitVec 3
  | input, _ => 0
  | output, field => field ||| 1

@[simp]
theorem act_input (f : BitVec 3) : input.act f = 0 := rfl

@[simp]
theorem act_output (f : BitVec 3) : output.act f = f ||| 1 := rfl

def op : PinType → Nat → BitVec 32 → BitVec 32
  | input, k, word => word &&& ~~~(7#32 <<< (3 * k))
  | output, k, word => word ||| 1#32 <<< (3 * k)

end PinType

/-- A valid `PIN_SET` request for a pin of the block. -/
structure PinRequest where
  pin : Fin 54
  type : PinType
  deriving Repr, DecidableEq

def pinNumber (p : Fin 54) : Int32 := Int32.ofInt p.val

def PinRequest.request (r : PinRequest) : Request := .pinSet (pinNumber r.pin) r.type.code

def selectWord (p : Fin 54) : Int := (p.val / 10 : Nat)

/-- The place of its field in the word. -/
def selectPlace (p : Fin 54) : Nat := p.val % 10

namespace Gpio

/-- The three-bit field of a pin. -/
def field (g : Gpio) (p : Fin 54) : BitVec 3 := Fields.get 3 (g.words (selectWord p)) (selectPlace p)

/-- The block after a valid `PIN_SET`. -/
def select (g : Gpio) (r : PinRequest) : Gpio :=
  { g with
    words := Function.update g.words (selectWord r.pin)
      (r.type.op (selectPlace r.pin) (g.words (selectWord r.pin))) }

end Gpio

variable {g : Gpio} {q r : PinRequest} {p : Fin 54} {v : Int}

theorem toInt_pinNumber (p : Fin 54) : (pinNumber p).toInt = p.val := by
  have inside := p.isLt
  exact Int32.toInt_ofInt_of_le (by omega) (by omega)

theorem selectWord_range (p : Fin 54) : 0 ≤ selectWord p ∧ selectWord p ≤ 5 := by
  unfold selectWord
  omega

theorem selectPlace_lt (p : Fin 54) : selectPlace p < 10 := Nat.mod_lt _ (by decide)

theorem selectPlace_ne {p q : Fin 54} (other : p ≠ q) (word : selectWord p = selectWord q) :
    selectPlace p ≠ selectPlace q := by
  unfold selectWord at word
  unfold selectPlace
  intro place
  exact other (Fin.ext (by omega))

/-! ## One request -/

/-- Within a word the request works on the field of its place only. -/
theorem PinType.actsOn (type : PinType) (p : Fin 54) :
    Fields.ActsOn 3 (selectPlace p) (type.op (selectPlace p)) type.act := by
  have place := selectPlace_lt p
  cases type with
  | input => exact Fields.actsOn_clear (n := 3) (by decide) _
  | output => exact Fields.actsOn_mark (n := 3) (by decide) (by omega)

theorem words_select_self (g : Gpio) (r : PinRequest) :
    (g.select r).words (selectWord r.pin) =
      r.type.op (selectPlace r.pin) (g.words (selectWord r.pin)) :=
  Function.update_self _ _ _

theorem words_select_other (other : v ≠ selectWord r.pin) : (g.select r).words v = g.words v :=
  Function.update_of_ne other _ _

theorem field_select_self (g : Gpio) (r : PinRequest) :
    (g.select r).field r.pin = r.type.act (g.field r.pin) := by
  rw [Gpio.field, words_select_self, (r.type.actsOn r.pin).inside]
  rfl

theorem field_select_other (other : r.pin ≠ p) : (g.select r).field p = g.field p := by
  unfold Gpio.field
  by_cases word : selectWord p = selectWord r.pin
  · rw [word, words_select_self, (r.type.actsOn r.pin).get_other (selectPlace_ne other.symm word)]
  · rw [words_select_other word]

theorem getLsbD_select {i : Nat} (outside : v ≠ selectWord r.pin ∨ i / 3 ≠ selectPlace r.pin) :
    ((g.select r).words v).getLsbD i = (g.words v).getLsbD i := by
  by_cases word : v = selectWord r.pin
  · rw [word, words_select_self]
    exact (r.type.actsOn r.pin).outside _ i (outside.resolve_left (fun other => other word))
  · rw [words_select_other word]

theorem select_comm (other : q.pin ≠ r.pin) :
    (g.select q).select r = (g.select r).select q := by
  suffices words : ((g.select q).select r).words = ((g.select r).select q).words by
    simpa only [Gpio.select, Gpio.mk.injEq, and_true] using words
  funext v
  by_cases wordR : v = selectWord r.pin
  · subst wordR
    rw [words_select_self]
    by_cases wordQ : selectWord r.pin = selectWord q.pin
    · rw [wordQ, words_select_self, words_select_self, ← wordQ, words_select_self]
      exact Fields.ActsOn.comm (by decide) (r.type.actsOn r.pin) (q.type.actsOn q.pin)
        (selectPlace_ne other wordQ.symm) _
    · rw [words_select_other wordQ, words_select_other wordQ, words_select_self]
  · rw [words_select_other wordR]
    by_cases wordQ : v = selectWord q.pin
    · subst wordQ
      rw [words_select_self, words_select_self, words_select_other wordR]
    · rw [words_select_other wordQ, words_select_other wordQ, words_select_other wordR]

theorem shl_place (x : BitVec 32) (n : Nat) :
    shl x ((n : Int).tmod 10 * 3) = x <<< (3 * (n % 10)) := by
  have amount : ((n : Int).tmod 10 * 3 % 256).toNat = 3 * (n % 10) := by
    rw [Int.tmod_eq_emod_of_nonneg (by omega)]
    omega
  rw [shl, amount]

/-- A valid `PIN_SET` loads and stores the word of its pin and selects there. -/
theorem pinSet_select (r : PinRequest) (w : World) :
    pinSet (pinNumber r.pin) r.type.code w =
      .ok [.gpio (pinNumber r.pin) (.load (selectWord r.pin)),
          .gpio (pinNumber r.pin) (.store (selectWord r.pin)
            (r.type.op (selectPlace r.pin) (w.gpio.words (selectWord r.pin))))]
        { w with gpio := w.gpio.select r } := by
  have word : (r.pin.val : Int).tdiv 10 = selectWord r.pin := by
    rw [Int.tdiv_eq_ediv_of_nonneg (by omega)]
    unfold selectWord
    omega
  obtain ⟨low, high⟩ := selectWord_range r.pin
  have stored : ∀ value, w.gpio.store (selectWord r.pin) value =
      { w.gpio with words := Function.update w.gpio.words (selectWord r.pin) value } := by
    intro value
    rw [Gpio.store, if_neg (by omega), if_neg (by omega), if_neg (by omega), if_neg (by omega)]
  cases type : r.type with
  | input =>
      simp [pinSet, PinType.code, World.onGpio, gpioInput, Gpio.read, Gpio.write, toInt_pinNumber,
        word, shl_place, stored, Gpio.select, PinType.op, selectPlace, type]
  | output =>
      simp [pinSet, PinType.code, World.onGpio, gpioOutput, Gpio.read, Gpio.write, toInt_pinNumber,
        word, shl_place, stored, Gpio.select, PinType.op, selectPlace, type]

theorem ioctl_select (D : Driver) (outcome : CreateOutcome) (r : PinRequest) (w : World) :
    ∃ tr, D.ioctl outcome w r.request = .ok tr ({ w with gpio := w.gpio.select r }, 0) := by
  simp [Driver.ioctl, PinRequest.request, pinSet_select]

end KsoftPWM
