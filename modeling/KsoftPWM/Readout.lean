import KsoftPWM.Base.Text
import KsoftPWM.Histogram

/-! # What the file of the latency tool says

The tool takes every sample in whole microseconds, truncated towards zero, and writes a heading
and one line for every microsecond up to the maximum.  The text says how many samples were
negative then, what the lowest one was and how many samples fell into each microsecond, and it
says nothing else: two series of samples that agree in this give the same file, and two that do
not give different files.
-/

namespace KsoftPWM

def heading (max min : Int) (overrun negative : Nat) : List Char :=
  "# Max:".toList ++ (signed max ++ ' ' :: ("Min:".toList ++ (signed min ++ ' ' ::
    ("Overrun:".toList ++ (decimal overrun ++ ' ' :: ("Negative:".toList ++ decimal negative))))))

def row (entry : Nat × Nat) : List Char := decimal entry.1 ++ ' ' :: decimal entry.2

/-- What `fprintf` writes; a subscript writes nothing. -/
def ToolEvent.text : ToolEvent → List Char
  | subscript _ => []
  | header max min overrun negative => heading max.toInt min.toInt overrun negative ++ ['\n']
  | line index count => row (index, count) ++ ['\n']

namespace LatencyTool

/-- The tool gets through the samples and through the dump without leaving its array, and leaves
    this file. -/
def Writes (samples : List Int64) (file : List Char) : Prop :=
  ∃ tr t tr', recording.Reaches start samples tr t ∧ t.dump = .ok tr' () ∧
    file = tr'.flatMap ToolEvent.text

def tally (samples : List Int64) (k : Nat) : Nat :=
  samples.countP fun sample => (micros sample).toInt = k

/-- The lowest sample, in microseconds, if there is one below `LONG_MAX`. -/
def lowest (samples : List Int64) : Int :=
  samples.foldl (fun low sample => min low (micros sample).toInt) 2147483647

/-- The two series agree in what the tool counts: a sample of less than a microsecond below zero
    is none that is negative. -/
structure SameHistogram (xs ys : List Int64) : Prop where
  negative : (xs.countP fun x => (micros x).toInt < 0) = ys.countP fun y => (micros y).toInt < 0
  lowest : lowest xs = lowest ys
  tally : ∀ k, tally xs k = tally ys k

variable {t t' : LatencyTool} {sample : Int64} {samples xs ys : List Int64} {tr : List ToolEvent}

/-! ## The counters -/

theorem track_min (t : LatencyTool) (us : Int64) :
    (t.track us).minLatency.toInt = min t.minLatency.toInt us.toInt := by
  have same : (t.track us).minLatency = if us < t.minLatency then us else t.minLatency := by
    unfold track
    dsimp only
    split <;> split <;> rfl
  rw [same]
  split
  · rename_i below
    have lower := Int64.lt_iff_toInt_lt.mp below
    omega
  · rename_i notBelow
    rw [Int64.lt_iff_toInt_lt] at notBelow
    omega

theorem record_min (run : t.record sample = .ok tr t') :
    t'.minLatency.toInt = min t.minLatency.toInt (micros sample).toInt := by
  obtain ⟨counted, one, rfl⟩ := record_ok run
  have kept : counted.minLatency = t.minLatency := by
    cases one <;> rfl
  rw [track_min, kept]

theorem record_latency (run : t.record sample = .ok tr t') (k : Fin arraySize) :
    t'.latency k = t.latency k + if (micros sample).toInt = k.val then 1 else 0 := by
  obtain ⟨counted, one, rfl⟩ := record_ok run
  rw [(track_counters counted (micros sample)).2.2]
  have inside := k.isLt
  cases one with
  | negative low =>
      rw [if_neg (by omega)]
      rfl
  | overrun high =>
      rw [if_neg (by omega)]
      rfl
  | @bin j same =>
      by_cases mine : k = j
      · subst mine
        rw [if_pos same]
        exact Function.update_self _ _ _
      · have other : ¬ (micros sample).toInt = k.val := by
          intro equal
          exact mine (Fin.ext (by omega))
        rw [if_neg other]
        exact Function.update_of_ne mine _ _

theorem record_overrun (run : t.record sample = .ok tr t') :
    t'.overrunNum = t.overrunNum + if (arraySize : Int) < (micros sample).toInt then 1 else 0 := by
  obtain ⟨counted, one, rfl⟩ := record_ok run
  rw [(track_counters counted (micros sample)).2.1]
  cases one with
  | negative low =>
      rw [if_neg (by omega)]
      rfl
  | overrun high => rw [if_pos high]
  | @bin j same =>
      have inside := j.isLt
      rw [if_neg (by omega)]
      rfl

structure Tallies (samples : List Int64) (t : LatencyTool) : Prop where
  bins : ∀ k : Fin arraySize, t.latency k = tally samples k
  lowest : t.minLatency.toInt = lowest samples
  overrun : t.overrunNum = samples.countP fun sample => (arraySize : Int) < (micros sample).toInt

theorem reaches_tallies (reach : recording.Reaches start samples tr t) : Tallies samples t := by
  refine reach.induction (Q := fun samples _ t => Tallies samples t) ?_ ?_
  · exact ⟨fun _ => rfl, by decide, rfl⟩
  · intro samples tr t sample tr' t' _ tallies taken
    have run := Option.some.inj taken
    refine ⟨fun k => ?_, ?_, ?_⟩
    · rw [record_latency run, tallies.bins, tally, tally, List.countP_append, List.countP_singleton]
      simp only [decide_eq_true_eq]
    · rw [record_min run, tallies.lowest, LatencyTool.lowest, LatencyTool.lowest, List.foldl_append]
      rfl
    · rw [record_overrun run, tallies.overrun, List.countP_append, List.countP_singleton]
      simp only [decide_eq_true_eq]

/-! ## The text -/

theorem newline_notMem_row (entry : Nat × Nat) : '\n' ∉ row entry := by
  simp [row, notMem_decimal]

theorem row_injective : Function.Injective row := by
  rintro ⟨i, m⟩ ⟨j, n⟩ same
  obtain ⟨index, count⟩ := append_sep_inj (notMem_decimal rfl i) (notMem_decimal rfl j) same
  exact Prod.ext (decimal_injective index) (decimal_injective count)

theorem newline_notMem_heading (max min : Int) (overrun negative : Nat) :
    '\n' ∉ heading max min overrun negative := by
  unfold heading
  simp [notMem_decimal, notMem_signed]

theorem heading_injective {max min max' min' : Int} {overrun negative overrun' negative' : Nat}
    (same : heading max min overrun negative = heading max' min' overrun' negative') :
    max = max' ∧ min = min' ∧ negative = negative' := by
  obtain ⟨first, same⟩ := append_sep_inj (notMem_signed rfl (by decide) _)
    (notMem_signed rfl (by decide) _) (List.append_cancel_left same)
  obtain ⟨second, same⟩ := append_sep_inj (notMem_signed rfl (by decide) _)
    (notMem_signed rfl (by decide) _) (List.append_cancel_left same)
  obtain ⟨-, same⟩ := append_sep_inj (notMem_decimal rfl _) (notMem_decimal rfl _)
    (List.append_cancel_left same)
  exact ⟨signed_injective first, signed_injective second,
    decimal_injective (List.append_cancel_left same)⟩

def rows (count : Nat → Nat) (i n : Nat) : List (Nat × Nat) :=
  (List.range' i n).map fun k => (k, count k)

theorem lines_text {count : Nat → Nat} (bins : ∀ k : Fin arraySize, t.latency k = count k) {n i : Nat}
    (inside : i + n ≤ arraySize) :
    ∃ tr, t.lines n i = .ok tr () ∧
      tr.flatMap ToolEvent.text = (rows count i n).flatMap fun entry => row entry ++ ['\n'] := by
  induction n generalizing i with
  | zero => exact ⟨[], rfl, rfl⟩
  | succ n ih =>
      obtain ⟨tr, run, text⟩ := @ih (i + 1) (by omega)
      refine ⟨_, by rw [lines_inside (by omega), run]; rfl, ?_⟩
      rw [List.flatMap_append, text, bins]
      simp [rows, List.range'_succ, ToolEvent.text]

theorem lines_short {n i : Nat} (run : t.lines n i = .ok tr ()) : n = 0 ∨ i + n ≤ arraySize := by
  induction n generalizing i tr with
  | zero => exact .inl rfl
  | succ n ih =>
      by_cases inside : i < arraySize
      · rw [lines_inside inside] at run
        obtain ⟨tail, later, -⟩ := Traced.after_eq_ok.mp run
        rcases ih later with rfl | short
        · exact .inr (by omega)
        · exact .inr (by omega)
      · rw [lines, bin, dif_neg inside] at run
        cases run

/-- The file, as the counters give it. -/
structure Reports (samples : List Int64) (t : LatencyTool) (file : List Char) : Prop where
  records : Records samples t
  tallies : Tallies samples t
  short : t.maxLatency.toInt < arraySize
  text : file = heading t.maxLatency.toInt t.minLatency.toInt t.overrunNum t.negativeNum ++ '\n' ::
    (rows (tally samples) 0 (t.maxLatency.toInt + 1).toNat).flatMap fun entry => row entry ++ ['\n']

theorem dump_text {count : Nat → Nat} (bins : ∀ k : Fin arraySize, t.latency k = count k)
    (nonneg : 0 ≤ t.maxLatency.toInt) :
    (∃ tr, t.dump = .ok tr ()) ↔ t.maxLatency.toInt < arraySize := by
  constructor
  · rintro ⟨tr, run⟩
    obtain ⟨_, _, _, -, lines, -⟩ := Traced.bind_eq_ok.mp run
    have short := lines_short lines
    omega
  · intro short
    obtain ⟨tr, run, -⟩ := lines_text bins (show 0 + (t.maxLatency.toInt + 1).toNat ≤ arraySize by omega)
    exact ⟨_, Traced.bind_eq_ok.mpr ⟨_, (), tr, rfl, run, rfl⟩⟩

theorem Writes.reports {file : List Char} (writes : Writes samples file) :
    ∃ t, Reports samples t file := by
  obtain ⟨tr, t, tr', reach, dumped, rfl⟩ := writes
  have records := reaches_records reach
  have tallies := reaches_tallies reach
  have short := (dump_text tallies.bins records.nonneg).mp ⟨tr', dumped⟩
  obtain ⟨first, _, second, written, lines, rfl⟩ := Traced.bind_eq_ok.mp dumped
  cases written
  obtain ⟨lines', run, text⟩ := lines_text tallies.bins
    (show 0 + (t.maxLatency.toInt + 1).toNat ≤ arraySize by omega)
  cases run.symm.trans lines
  refine ⟨t, records, tallies, short, ?_⟩
  rw [List.flatMap_append, text]
  simp [ToolEvent.text]

/-! ## Files and histograms -/

variable {file file' : List Char}

theorem Reports.tally_above (reports : Reports samples t file) {k : Nat}
    (above : t.maxLatency.toInt < k) : tally samples k = 0 := by
  rw [tally, List.countP_eq_zero]
  intro sample member same
  have below := reports.records.above sample member
  have here : (micros sample).toInt = k := of_decide_eq_true same
  omega

theorem Reports.overrun_zero (reports : Reports samples t file) : t.overrunNum = 0 := by
  rw [reports.tallies.overrun, List.countP_eq_zero]
  intro sample member high
  have below := reports.records.above sample member
  have short := reports.short
  have beyond : (arraySize : Int) < (micros sample).toInt := of_decide_eq_true high
  omega

theorem Reports.max_le (one : Reports xs t file) (two : Reports ys t' file')
    (same : ∀ k, tally xs k = tally ys k) : t.maxLatency.toInt ≤ t'.maxLatency.toInt := by
  have nonneg := two.records.nonneg
  rcases one.records.attained with zero | ⟨sample, member, attained⟩
  · omega
  · by_contra higher
    have positive : 0 < tally xs t.maxLatency.toInt.toNat :=
      List.countP_pos_iff.mpr ⟨sample, member, decide_eq_true (by omega)⟩
    rw [same, two.tally_above (by omega)] at positive
    omega

theorem Reports.same_iff (one : Reports xs t file) (two : Reports ys t' file') :
    file = file' ↔ SameHistogram xs ys := by
  constructor
  · intro same
    rw [one.text, two.text] at same
    obtain ⟨head, body⟩ := append_sep_inj (newline_notMem_heading _ _ _ _)
      (newline_notMem_heading _ _ _ _) same
    obtain ⟨max, min, negative⟩ := heading_injective head
    have entries := flatMap_sep_inj newline_notMem_row row_injective body
    refine ⟨?_, ?_, fun k => ?_⟩
    · rw [← one.records.negative, ← two.records.negative, negative]
    · rw [← one.tallies.lowest, ← two.tallies.lowest, min]
    · by_cases low : (k : Int) ≤ t.maxLatency.toInt
      · have member : (k, tally xs k) ∈ rows (tally ys) 0 (t'.maxLatency.toInt + 1).toNat := by
          rw [← entries]
          exact List.mem_map.mpr ⟨k, by simp [List.mem_range']; omega, rfl⟩
        obtain ⟨j, -, entry⟩ := List.mem_map.mp member
        obtain ⟨rfl, equal⟩ := Prod.mk.inj entry
        exact equal.symm
      · rw [one.tally_above (by omega), two.tally_above (by omega)]
  · intro same
    have max : t.maxLatency.toInt = t'.maxLatency.toInt :=
      Int.le_antisymm (one.max_le two same.tally) (two.max_le one fun k => (same.tally k).symm)
    have tallies : tally xs = tally ys := funext same.tally
    rw [one.text, two.text, max, one.tallies.lowest, two.tallies.lowest, same.lowest,
      one.overrun_zero, two.overrun_zero, one.records.negative, two.records.negative, same.negative,
      tallies]

/-- The tool leaves a file without leaving its array exactly if every sample is below `array_size`
    microseconds.  Two such series of samples leave the same file exactly if, in whole microseconds,
    as many of each are negative, their lowest samples are the same and as many of each fall into
    every microsecond. -/
theorem file_tells_histogram (xs ys : List Int64) :
    ((∃ file, Writes xs file) ↔ ∀ x ∈ xs, (micros x).toInt < arraySize) ∧
    ∀ file file', Writes xs file → Writes ys file' → (file = file' ↔ SameHistogram xs ys) := by
  refine ⟨⟨?_, ?_⟩, ?_⟩
  · rintro ⟨file, writes⟩ x member
    obtain ⟨t, reports⟩ := writes.reports
    have below := reports.records.above x member
    have short := reports.short
    omega
  · intro short
    have elsewhere : ∀ x ∈ xs, (micros x).toInt ≠ arraySize := by
      intro x member
      exact Int.ne_of_lt (short x member)
    obtain ⟨tr, t, reach⟩ := (exists_reaches_iff start xs).mpr elsewhere
    have records := reaches_records reach
    have inside : t.maxLatency.toInt < arraySize := by
      rcases records.attained with zero | ⟨x, member, attained⟩
      · rw [zero]
        decide
      · rw [attained]
        exact short x member
    obtain ⟨tr', dumped⟩ := (dump_text (reaches_tallies reach).bins records.nonneg).mpr inside
    exact ⟨_, tr, t, tr', reach, dumped, rfl⟩
  · intro file file' one two
    obtain ⟨t, reports⟩ := one.reports
    obtain ⟨t', reports'⟩ := two.reports
    exact reports.same_iff reports'

/-- Neither the order of the samples nor their fractions of a microsecond matter. -/
theorem sameHistogram_of_perm
    (perm : (xs.map fun x => (micros x).toInt).Perm (ys.map fun y => (micros y).toInt)) :
    SameHistogram xs ys where
  negative := by
    have counts := perm.countP_eq fun us => us < 0
    rwa [List.countP_map, List.countP_map] at counts
  lowest := by
    have folds := perm.foldl_eq (f := (min : Int → Int → Int)) 2147483647
    rwa [List.foldl_map, List.foldl_map] at folds
  tally := by
    intro k
    have counts := perm.countP_eq fun us => us = (k : Int)
    rwa [List.countP_map, List.countP_map] at counts

theorem file_tells_histogram_shuffled :
    ∃ file, Writes [1500, -2500, 300] file ∧ Writes [-300, -2000, 1999] file := by
  have short : ∀ x ∈ [1500, -2500, 300], (micros x).toInt < arraySize := by
    simp only [List.forall_mem_cons]
    exact ⟨by decide, by decide, by decide, nofun⟩
  have short' : ∀ x ∈ [-300, -2000, 1999], (micros x).toInt < arraySize := by
    simp only [List.forall_mem_cons]
    exact ⟨by decide, by decide, by decide, nofun⟩
  obtain ⟨file, one⟩ := (file_tells_histogram _ []).1.mpr short
  obtain ⟨file', two⟩ := (file_tells_histogram _ []).1.mpr short'
  have same := ((file_tells_histogram _ _).2 file file' one two).mpr (sameHistogram_of_perm (by decide))
  exact ⟨file, one, same ▸ two⟩

end LatencyTool

end KsoftPWM
