import KsoftPWM.Base.Machine
import Mathlib.Algebra.BigOperators.Fin

/-! # The latency tool

`wiring_latency.c` sleeps `times` times and sorts what each sleep took too long into bins of
a microsecond.  A sample is the value of `LATENCY` in one iteration: nanoseconds, a signed
number of 64 bits.  The recording loop takes one step for each sample, and the dump writes
the bins up to `max_latency` into a file.

`times` is an `int`, so the counters cannot overflow; they are natural numbers here.  No
subscript of `latency` is checked by the code, so every subscript reports itself and faults
when it leaves the array, with its value as the fault.
-/

namespace KsoftPWM

abbrev arraySize : Nat := 10000

/-- The static variables of the tool. -/
structure LatencyTool where
  negativeNum : Nat
  overrunNum : Nat
  latency : Fin arraySize → Nat
  maxLatency : Int64
  minLatency : Int64

inductive ToolEvent where
  /-- `latency[index]` -/
  | subscript (index : Int)
  /-- `"# Max:%lld Min:%lld Overrun:%d Negative:%d\n"` -/
  | header (max min : Int64) (overrun negative : Nat)
  /-- `"%d %d\n"` -/
  | line (index count : Nat)
  deriving Repr, DecidableEq

/-- `LATENCY / 1000` -/
def micros (sample : Int64) : Int64 := sample / 1000

namespace LatencyTool

/-- The initial values; `LONG_MAX` is that of a 32-bit `long`. -/
def start : LatencyTool where
  negativeNum := 0
  overrunNum := 0
  latency := fun _ => 0
  maxLatency := 0
  minLatency := 2147483647

/-- `latency[index]++` -/
def incr (t : LatencyTool) (index : Int) : Traced ToolEvent Int LatencyTool :=
  if h : 0 ≤ index ∧ index < arraySize then
    let k : Fin arraySize := ⟨index.toNat, by omega⟩
    .ok [.subscript index] { t with latency := Function.update t.latency k (t.latency k + 1) }
  else .fault [.subscript index] index

/-- The chain of conditions that picks a counter. -/
def count (t : LatencyTool) (us : Int64) : Traced ToolEvent Int LatencyTool :=
  if us < 0 then pure { t with negativeNum := t.negativeNum + 1 }
  else if us > Int64.ofNat arraySize then pure { t with overrunNum := t.overrunNum + 1 }
  else t.incr us.toInt

/-- The updates of `min_latency` and `max_latency`. -/
def track (t : LatencyTool) (us : Int64) : LatencyTool :=
  let t' := if us < t.minLatency then { t with minLatency := us } else t
  if us > t'.maxLatency then { t' with maxLatency := us } else t'

/-- The body of the recording loop. -/
def record (t : LatencyTool) (sample : Int64) : Traced ToolEvent Int LatencyTool := do
  let t' ← t.count (micros sample)
  pure (t'.track (micros sample))

def recording : Machine LatencyTool Int64 ToolEvent Int := ⟨fun t sample => some (t.record sample)⟩

def bin (t : LatencyTool) (i : Nat) : Traced ToolEvent Int Nat :=
  if h : i < arraySize then .ok [.subscript i] (t.latency ⟨i, h⟩) else .fault [.subscript i] i

/-- The loop of the dump, with the iterations left and the loop variable. -/
def lines (t : LatencyTool) : Nat → Nat → Traced ToolEvent Int Unit
  | 0, _ => pure ()
  | n + 1, i => do
      let value ← t.bin i
      Traced.emit (.line i value)
      lines t n (i + 1)

/-- What is written if a file `output` is named. -/
def dump (t : LatencyTool) : Traced ToolEvent Int Unit := do
  Traced.emit (.header t.maxLatency t.minLatency t.overrunNum t.negativeNum)
  t.lines (t.maxLatency.toInt + 1).toNat 0

/-! ## One sample -/

variable {t t' : LatencyTool} {sample us : Int64} {tr : List ToolEvent}

theorem toInt_micros (sample : Int64) : (micros sample).toInt = sample.toInt.tdiv 1000 :=
  Int64.toInt_div_of_ne_right sample 1000 (by decide)

/-- A step of the loop that does not go wrong adds one to one counter: for a negative number of
    microseconds, for more than `array_size` of them, and else to their bin, which exists. -/
inductive Counted (t : LatencyTool) (us : Int64) : LatencyTool → Prop where
  | negative : us.toInt < 0 → Counted t us { t with negativeNum := t.negativeNum + 1 }
  | overrun : arraySize < us.toInt → Counted t us { t with overrunNum := t.overrunNum + 1 }
  | bin {k : Fin arraySize} : us.toInt = k.val →
      Counted t us { t with latency := Function.update t.latency k (t.latency k + 1) }

theorem count_negative (low : us.toInt < 0) :
    t.count us = .ok [] { t with negativeNum := t.negativeNum + 1 } := by
  rw [count, if_pos (Int64.lt_iff_toInt_lt.mpr low)]
  rfl

theorem count_overrun (high : arraySize < us.toInt) :
    t.count us = .ok [] { t with overrunNum := t.overrunNum + 1 } := by
  have bound : (Int64.ofNat arraySize).toInt = arraySize := Int64.toInt_ofNat_of_lt (by decide)
  have low : ¬ us < 0 := by
    rw [Int64.lt_iff_toInt_lt, show (0 : Int64).toInt = 0 from rfl]
    omega
  rw [count, if_neg low, if_pos (Int64.lt_iff_toInt_lt.mpr (bound ▸ high))]
  rfl

theorem count_incr (low : 0 ≤ us.toInt) (high : us.toInt ≤ arraySize) :
    t.count us = t.incr us.toInt := by
  have bound : (Int64.ofNat arraySize).toInt = arraySize := Int64.toInt_ofNat_of_lt (by decide)
  have notLow : ¬ us < 0 := by
    rw [Int64.lt_iff_toInt_lt, show (0 : Int64).toInt = 0 from rfl]
    omega
  have notHigh : ¬ us > Int64.ofNat arraySize := by
    rw [gt_iff_lt, Int64.lt_iff_toInt_lt, bound]
    omega
  rw [count, if_neg notLow, if_neg notHigh]

theorem count_ok (run : t.count us = .ok tr t') : Counted t us t' := by
  by_cases negative : us.toInt < 0
  · rw [count_negative negative] at run
    cases run
    exact .negative negative
  · by_cases overrun : arraySize < us.toInt
    · rw [count_overrun overrun] at run
      cases run
      exact .overrun overrun
    · rw [count_incr (by omega) (by omega), incr] at run
      split at run
      · rename_i inside
        cases run
        exact .bin (Int.toNat_of_nonneg inside.1).symm
      · cases run

theorem record_ok (run : t.record sample = .ok tr t') :
    ∃ counted, Counted t (micros sample) counted ∧ t' = counted.track (micros sample) := by
  obtain ⟨first, counted, second, ran, done, -⟩ := Traced.bind_eq_ok.mp run
  cases done
  exact ⟨counted, count_ok ran, rfl⟩

theorem record_ok_iff (t : LatencyTool) (sample : Int64) :
    (∃ tr t', t.record sample = .ok tr t') ↔ (micros sample).toInt ≠ arraySize := by
  constructor
  · rintro ⟨tr, t', run⟩
    obtain ⟨counted, one, -⟩ := record_ok run
    cases one with
    | negative low => omega
    | overrun high => omega
    | @bin k same => omega
  · intro other
    have counts : ∃ tr counted, t.count (micros sample) = .ok tr counted := by
      by_cases negative : (micros sample).toInt < 0
      · exact ⟨_, _, count_negative negative⟩
      · by_cases overrun : arraySize < (micros sample).toInt
        · exact ⟨_, _, count_overrun overrun⟩
        · have inside : 0 ≤ (micros sample).toInt ∧ (micros sample).toInt < arraySize := by omega
          rw [count_incr inside.1 (by omega), incr, dif_pos inside]
          exact ⟨_, _, rfl⟩
    obtain ⟨tr, counted, ran⟩ := counts
    exact ⟨_, _, Traced.bind_eq_ok.mpr ⟨tr, counted, [], ran, rfl, rfl⟩⟩

section
variable (t : LatencyTool) (us : Int64)

theorem track_counters : (t.track us).negativeNum = t.negativeNum ∧
    (t.track us).overrunNum = t.overrunNum ∧ (t.track us).latency = t.latency := by
  unfold track
  dsimp only
  split <;> split <;> exact ⟨rfl, rfl, rfl⟩

theorem track_max : (t.track us).maxLatency.toInt = max t.maxLatency.toInt us.toInt := by
  have same : (if us < t.minLatency then { t with minLatency := us } else t).maxLatency =
      t.maxLatency := by
    split <;> rfl
  unfold track
  dsimp only
  rw [same]
  split
  · rename_i above
    have higher := Int64.lt_iff_toInt_lt.mp above
    dsimp only
    omega
  · rename_i notAbove
    rw [same]
    rw [gt_iff_lt, Int64.lt_iff_toInt_lt] at notAbove
    omega

end

/-! ## The dump -/

theorem lines_inside {i : Nat} (inside : i < arraySize) (n : Nat) :
    t.lines (n + 1) i =
      (t.lines n (i + 1)).after [.subscript i, .line i (t.latency ⟨i, inside⟩)] := by
  rw [lines, bin, dif_pos inside, Traced.ok_bind, Traced.emit_eq, Traced.ok_bind]
  cases t.lines n (i + 1) <;> rfl

end LatencyTool

end KsoftPWM
