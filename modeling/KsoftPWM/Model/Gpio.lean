import Mathlib.Logic.Function.Basic
import KsoftPWM.Base.Traced

/-! # The GPIO block and `gpio.c`

Both drivers map the GPIO block of the BCM2837 and reach it through the same four
functions.  A register is named by its word offset from `gpio`; the offset is an
integer, since `pin / 10` of an unchecked pin may leave the mapping on either side.

The hardware gives words 7 and 8 write-one-to-set and words 10 and 11
write-one-to-clear meaning, for the pins 0..31 and 32..53.  `levels` are the output
latches these stores change; a pin shows its latch while its function is output.
-/

namespace KsoftPWM

structure Gpio where
  words : Int → BitVec 32
  levels : Fin 54 → Bool

inductive Access where
  | load (word : Int)
  | store (word : Int) (value : BitVec 32)
  deriving Repr, DecidableEq

namespace Gpio

def reset : Gpio := ⟨fun _ => 0, fun _ => false⟩

/-- The value has a one at the pin's place in the 32-pin bank. -/
def selects (bank : Nat) (value : BitVec 32) (p : Fin 54) : Bool :=
  p.val / 32 == bank && value.getLsbD (p.val % 32)

/-- Every selected pin takes the level; a zero bit has no effect. -/
def drive (g : Gpio) (bank : Nat) (value : BitVec 32) (level : Bool) : Gpio :=
  { g with levels := fun p => if selects bank value p then level else g.levels p }

def store (g : Gpio) (word : Int) (value : BitVec 32) : Gpio :=
  if word = 7 then g.drive 0 value true
  else if word = 8 then g.drive 1 value true
  else if word = 10 then g.drive 0 value false
  else if word = 11 then g.drive 1 value false
  else { g with words := Function.update g.words word value }

def replay (g : Gpio) : Access → Gpio
  | .load _ => g
  | .store word value => g.store word value

variable {φ : Type}

def read (g : Gpio) (word : Int) : Traced Access φ (BitVec 32) :=
  .ok [.load word] (g.words word)

def write (g : Gpio) (word : Int) (value : BitVec 32) : Traced Access φ Gpio :=
  .ok [.store word value] (g.store word value)

end Gpio

/-- `x << n` as the ARM core computes it from registers: the low byte of `n` is the
    shift amount, and an amount of 32 or more gives zero.  In C the shift is only
    defined for `0 ≤ n < 32`. -/
def shl (x : BitVec 32) (n : Int) : BitVec 32 := x <<< (n % 256).toNat

section
variable {φ : Type}

/-- `*(gpio + (pin / 10)) &= ~(7 << ((pin % 10) * 3))` -/
def gpioInput (pin : Int32) (g : Gpio) : Traced Access φ Gpio := do
  let word := pin.toInt.tdiv 10
  let old ← g.read word
  g.write word (old &&& ~~~(shl 7 (pin.toInt.tmod 10 * 3)))

/-- `*(gpio + (pin / 10)) |= (1 << ((pin % 10) * 3))` -/
def gpioOutput (pin : Int32) (g : Gpio) : Traced Access φ Gpio := do
  let word := pin.toInt.tdiv 10
  let old ← g.read word
  g.write word (old ||| shl 1 (pin.toInt.tmod 10 * 3))

/-- `*(gpio + 7) = 1 << pin` -/
def gpioSet (pin : Int32) (g : Gpio) : Traced Access φ Gpio := g.write 7 (shl 1 pin.toInt)

/-- `*(gpio + 10) = 1 << pin` -/
def gpioClr (pin : Int32) (g : Gpio) : Traced Access φ Gpio := g.write 10 (shl 1 pin.toInt)

end

end KsoftPWM
