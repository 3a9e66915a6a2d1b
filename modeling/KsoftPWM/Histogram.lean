import KsoftPWM.Model.Latency

/-! # Which samples the latency tool accounts for

The recording loop divides by 1000 before it looks at the sign, compares with `array_size`
where the array ends one below, and the dump runs up to a maximum that overruns have raised
too.  So three kinds of samples go wrong: those less than a microsecond below zero are
filed as zero, those of `array_size` microseconds land behind the array, and longer ones
make the dump read there.  All others are accounted for.
-/

namespace KsoftPWM

namespace LatencyTool

def CountsOne (t t' : LatencyTool) : Prop :=
  (t'.negativeNum = t.negativeNum + 1 ∧ t'.overrunNum = t.overrunNum ∧ t'.latency = t.latency) ∨
  (t'.negativeNum = t.negativeNum ∧ t'.overrunNum = t.overrunNum + 1 ∧ t'.latency = t.latency) ∨
  t'.negativeNum = t.negativeNum ∧ t'.overrunNum = t.overrunNum ∧
    ∃ k, t'.latency = Function.update t.latency k (t.latency k + 1)

/-- What the tool is to have done at the end of the recording loop, and to do in the dump. -/
structure Accounts (samples : List Int64) (t : LatencyTool) : Prop where
  each : ∀ pre sample post tr t₁ tr' t₂, samples = pre ++ sample :: post →
    recording.Reaches start pre tr t₁ → t₁.record sample = .ok tr' t₂ → CountsOne t₁ t₂
  total : t.negativeNum + t.overrunNum + ∑ k, t.latency k = samples.length
  negative : t.negativeNum = samples.countP fun sample => sample < 0
  inside : ∀ i, .subscript i ∈ t.dump.trace → 0 ≤ i ∧ i < arraySize
  printed : ∀ k, t.latency k ≠ 0 → .line k.val (t.latency k) ∈ t.dump.trace

def AccountsFor (samples : List Int64) : Prop :=
  ∃ tr t, recording.Reaches start samples tr t ∧ Accounts samples t

variable {t t' : LatencyTool} {sample : Int64} {samples : List Int64} {tr : List ToolEvent}

/-! ## The recording loop -/

theorem record_countsOne (run : t.record sample = .ok tr t') : CountsOne t t' := by
  obtain ⟨counted, one, rfl⟩ := record_ok run
  obtain ⟨negative, overrun, latency⟩ := track_counters counted (micros sample)
  rw [CountsOne, negative, overrun, latency]
  cases one with
  | negative => exact .inl ⟨rfl, rfl, rfl⟩
  | overrun => exact .inr (.inl ⟨rfl, rfl, rfl⟩)
  | @bin k => exact .inr (.inr ⟨rfl, rfl, k, rfl⟩)

theorem CountsOne.total (one : CountsOne t t') :
    t'.negativeNum + t'.overrunNum + ∑ k, t'.latency k =
      t.negativeNum + t.overrunNum + ∑ k, t.latency k + 1 := by
  rcases one with ⟨negative, overrun, latency⟩ | ⟨negative, overrun, latency⟩ |
    ⟨negative, overrun, k, latency⟩
  · rw [negative, overrun, latency]
    omega
  · rw [negative, overrun, latency]
    omega
  · have bins : ∑ j, t'.latency j = ∑ j, t.latency j + 1 := by
      have split := Finset.add_sum_erase Finset.univ t.latency (Finset.mem_univ k)
      rw [latency, Finset.sum_update_of_mem (Finset.mem_univ k), Finset.sdiff_singleton_eq_erase,
        ← split]
      omega
    rw [negative, overrun, bins]
    omega

theorem record_negative (run : t.record sample = .ok tr t') :
    t'.negativeNum = t.negativeNum + if (micros sample).toInt < 0 then 1 else 0 := by
  obtain ⟨counted, one, rfl⟩ := record_ok run
  rw [(track_counters counted (micros sample)).1]
  cases one with
  | negative low => rw [if_pos low]
  | overrun high =>
      rw [if_neg (by omega)]
      rfl
  | bin same =>
      rw [if_neg (by omega)]
      rfl

theorem record_max (run : t.record sample = .ok tr t') :
    t'.maxLatency.toInt = max t.maxLatency.toInt (micros sample).toInt := by
  obtain ⟨counted, one, rfl⟩ := record_ok run
  have kept : counted.maxLatency = t.maxLatency := by
    cases one <;> rfl
  rw [track_max, kept]

theorem record_bins (run : t.record sample = .ok tr t') {k : Fin arraySize}
    (nonzero : t'.latency k ≠ 0) : t.latency k ≠ 0 ∨ (micros sample).toInt = k.val := by
  obtain ⟨counted, one, rfl⟩ := record_ok run
  rw [(track_counters counted (micros sample)).2.2] at nonzero
  cases one with
  | negative | overrun => exact .inl nonzero
  | @bin j same =>
      by_cases mine : k = j
      · exact .inr (mine ▸ same)
      · have other : Function.update t.latency j (t.latency j + 1) k = t.latency k :=
          Function.update_of_ne mine _ _
        exact .inl (other ▸ nonzero)

/-- What the counters say about the samples seen so far. -/
structure Records (samples : List Int64) (t : LatencyTool) : Prop where
  total : t.negativeNum + t.overrunNum + ∑ k, t.latency k = samples.length
  negative : t.negativeNum = samples.countP fun sample => (micros sample).toInt < 0
  nonneg : 0 ≤ t.maxLatency.toInt
  above : ∀ sample ∈ samples, (micros sample).toInt ≤ t.maxLatency.toInt
  attained : t.maxLatency.toInt = 0 ∨
    ∃ sample ∈ samples, t.maxLatency.toInt = (micros sample).toInt
  bins : ∀ k, t.latency k ≠ 0 → (k.val : Int) ≤ t.maxLatency.toInt

theorem start_records : Records [] start where
  total := by simp [start]
  negative := rfl
  nonneg := by decide
  above := by simp
  attained := .inl rfl
  bins := fun _ nonzero => absurd rfl nonzero

theorem Records.step (records : Records samples t) (run : t.record sample = .ok tr t') :
    Records (samples ++ [sample]) t' where
  total := by
    rw [(record_countsOne run).total, records.total, List.length_append, List.length_singleton]
  negative := by
    rw [record_negative run, records.negative, List.countP_append, List.countP_singleton]
    simp only [decide_eq_true_eq]
  nonneg := by
    have grown := record_max run
    have nonneg := records.nonneg
    omega
  above := by
    intro other member
    have grown := record_max run
    rcases List.mem_append.mp member with old | new
    · have below := records.above other old
      omega
    · obtain rfl := List.mem_singleton.mp new
      omega
  attained := by
    have grown := record_max run
    by_cases higher : t.maxLatency.toInt < (micros sample).toInt
    · exact .inr ⟨sample, by simp, by omega⟩
    · have same : t'.maxLatency.toInt = t.maxLatency.toInt := by omega
      rw [same]
      rcases records.attained with zero | ⟨other, member, attained⟩
      · exact .inl zero
      · exact .inr ⟨other, List.mem_append_left _ member, attained⟩
  bins := by
    intro k nonzero
    have grown := record_max run
    rcases record_bins run nonzero with old | new
    · have below := records.bins k old
      omega
    · omega

theorem reaches_records (reach : recording.Reaches start samples tr t) : Records samples t := by
  refine reach.induction (Q := fun samples _ t => Records samples t) start_records ?_
  intro samples tr t sample tr' t' _ records taken
  exact records.step (Option.some.inj taken)

theorem exists_reaches_iff (t : LatencyTool) (samples : List Int64) :
    (∃ tr t', recording.Reaches t samples tr t') ↔
      ∀ sample ∈ samples, (micros sample).toInt ≠ arraySize := by
  induction samples generalizing t with
  | nil => simp [Machine.reaches_nil]
  | cons sample samples ih =>
      rw [List.forall_mem_cons, ← record_ok_iff t sample]
      constructor
      · rintro ⟨tr, t', reach⟩
        obtain ⟨first, t₁, rest, taken, later, -⟩ := Machine.reaches_cons.mp reach
        exact ⟨⟨first, t₁, Option.some.inj taken⟩, (ih t₁).mp ⟨rest, t', later⟩⟩
      · rintro ⟨⟨first, t₁, run⟩, others⟩
        obtain ⟨rest, t', later⟩ := (ih t₁).mpr others
        exact ⟨_, t', Machine.reaches_cons.mpr ⟨first, t₁, rest, congrArg some run, later, rfl⟩⟩

/-! ## The dump -/

/-- While it stays in the array the loop reads its own range and prints all of it. -/
theorem lines_trace {n i : Nat} (inside : i + n ≤ arraySize) :
    (∀ j, .subscript j ∈ (t.lines n i).trace → (i : Int) ≤ j ∧ j < i + n) ∧
      ∀ k : Fin arraySize, i ≤ k.val → k.val < i + n →
        .line k.val (t.latency k) ∈ (t.lines n i).trace := by
  induction n generalizing i with
  | zero =>
      refine ⟨by simp [lines], fun k low high => ?_⟩
      omega
  | succ n ih =>
      obtain ⟨read, printed⟩ := ih (i := i + 1) (by omega)
      rw [lines_inside (by omega), Traced.trace_after]
      constructor
      · intro j member
        rcases List.mem_append.mp member with here | later
        · simp at here
          omega
        · have range := read j later
          omega
      · intro k low high
        rw [List.mem_append]
        by_cases mine : k.val = i
        · left
          subst mine
          simp
        · exact .inr (printed k (by omega) (by omega))

theorem lines_beyond {n i : Nat} (low : i ≤ arraySize) (high : arraySize < i + n) :
    .subscript arraySize ∈ (t.lines n i).trace := by
  induction n generalizing i with
  | zero => omega
  | succ n ih =>
      by_cases inside : i < arraySize
      · rw [lines_inside inside, Traced.trace_after, List.mem_append]
        exact .inr (ih inside (by omega))
      · have last : i = arraySize := by omega
        rw [lines, bin, dif_neg inside, last]
        simp

theorem dump_trace (t : LatencyTool) :
    t.dump.trace = .header t.maxLatency t.minLatency t.overrunNum t.negativeNum ::
      (t.lines (t.maxLatency.toInt + 1).toNat 0).trace := by
  rw [dump, Traced.emit_eq, Traced.ok_bind, Traced.trace_after]
  rfl

theorem dump_inside_iff (nonneg : 0 ≤ t.maxLatency.toInt) :
    (∀ i, .subscript i ∈ t.dump.trace → 0 ≤ i ∧ i < arraySize) ↔
      t.maxLatency.toInt < arraySize := by
  rw [dump_trace]
  constructor
  · intro inside
    by_contra beyond
    have read : .subscript arraySize ∈ (t.lines (t.maxLatency.toInt + 1).toNat 0).trace :=
      lines_beyond (Nat.zero_le _) (by omega)
    have below := (inside arraySize (List.mem_cons_of_mem _ read)).2
    omega
  · intro below i member
    rcases List.mem_cons.mp member with same | later
    · cases same
    · have range := (lines_trace (t := t) (i := 0) (by omega)).1 i later
      omega

theorem dump_printed (below : t.maxLatency.toInt < arraySize) {k : Fin arraySize}
    (low : (k.val : Int) ≤ t.maxLatency.toInt) : .line k.val (t.latency k) ∈ t.dump.trace := by
  rw [dump_trace]
  exact List.mem_cons_of_mem _ ((lines_trace (by omega)).2 k (Nat.zero_le _) (by omega))

/-! ## The samples -/

/-- Division truncates towards zero. -/
theorem toInt_micros_eq (sample : Int64) :
    (micros sample).toInt =
      if 0 ≤ sample.toInt then sample.toInt / 1000 else -(-sample.toInt / 1000) := by
  rw [toInt_micros]
  split
  · rename_i nonneg
    exact Int.tdiv_eq_ediv_of_nonneg nonneg
  · rename_i negative
    have positive : 0 ≤ -sample.toInt := by omega
    rw [← Int.tdiv_eq_ediv_of_nonneg positive, Int.neg_tdiv, Int.neg_neg]

theorem micros_neg_iff : (micros sample).toInt < 0 ↔ sample.toInt ≤ -1000 := by
  rw [toInt_micros_eq]
  split <;> omega

theorem micros_lt_iff : (micros sample).toInt < arraySize ↔ sample.toInt < 10000000 := by
  have size : (arraySize : Int) = 10000 := rfl
  rw [toInt_micros_eq, size]
  split <;> omega

theorem forall_of_countP_eq {α : Type} {p q : α → Bool} {xs : List α}
    (stricter : ∀ x ∈ xs, p x → q x) (same : xs.countP p = xs.countP q) :
    ∀ x ∈ xs, q x → p x := by
  have split := List.countP_eq_countP_filter_add xs q p
  have both : (xs.filter p).countP q = xs.countP p := by
    rw [List.countP_filter]
    refine List.countP_congr fun x member => ?_
    simpa using stricter x member
  have rest : (xs.filter fun x => !p x).countP q = 0 := by omega
  intro x member holds
  by_contra fails
  refine List.countP_eq_zero.mp rest x ?_ holds
  simpa [member] using fails

/-- `negative_num` counts the samples below zero exactly if none of them is less than a
    microsecond below. -/
theorem negative_iff :
    (samples.countP fun sample => (micros sample).toInt < 0) =
        (samples.countP fun sample => sample < 0) ↔
      ∀ sample ∈ samples, sample.toInt ≤ -1000 ∨ 0 ≤ sample.toInt := by
  have sign : ∀ sample : Int64, sample < 0 ↔ sample.toInt < 0 := fun _ => Int64.lt_iff_toInt_lt
  constructor
  · intro same sample member
    have stricter : ∀ sample ∈ samples, decide ((micros sample).toInt < 0) = true →
        decide (sample < 0) = true := by
      intro sample _ negative
      rw [decide_eq_true_eq, micros_neg_iff] at negative
      rw [decide_eq_true_eq, sign]
      omega
    have exact_ := forall_of_countP_eq stricter same sample member
    rw [decide_eq_true_eq, decide_eq_true_eq, sign, micros_neg_iff] at exact_
    omega
  · intro apart
    refine List.countP_congr fun sample member => ?_
    have one := apart sample member
    rw [decide_eq_true_eq, decide_eq_true_eq, sign, micros_neg_iff]
    omega

/-- The tool accounts for its samples exactly if each of them is at least a microsecond below
    zero, or not below zero and less than `array_size` microseconds. -/
theorem accounts_for_iff (samples : List Int64) :
    AccountsFor samples ↔ ∀ sample ∈ samples, sample.toInt ≤ -1000 ∨
      0 ≤ sample.toInt ∧ sample.toInt < 10000000 := by
  constructor
  · rintro ⟨tr, t, reach, accounts⟩ sample member
    have records := reaches_records reach
    have below := (dump_inside_iff records.nonneg).mp accounts.inside
    have short : sample.toInt < 10000000 := by
      have under := records.above sample member
      exact micros_lt_iff.mp (by omega)
    have signs := negative_iff.mp (records.negative.symm.trans accounts.negative) sample member
    omega
  · intro fit
    have short : ∀ sample ∈ samples, (micros sample).toInt < arraySize := by
      intro sample member
      have range := fit sample member
      exact micros_lt_iff.mpr (by omega)
    have apart : ∀ sample ∈ samples, sample.toInt ≤ -1000 ∨ 0 ≤ sample.toInt := by
      intro sample member
      have range := fit sample member
      omega
    obtain ⟨tr, t, reach⟩ := (exists_reaches_iff start samples).mpr fun sample member =>
      ne_of_lt (short sample member)
    have records := reaches_records reach
    have below : t.maxLatency.toInt < arraySize := by
      rcases records.attained with zero | ⟨sample, member, attained⟩
      · rw [zero]
        decide
      · rw [attained]
        exact short sample member
    exact ⟨tr, t, reach, {
      each := fun _ _ _ _ _ _ _ _ _ run => record_countsOne run
      total := records.total
      negative := records.negative.trans (negative_iff.mpr apart)
      inside := (dump_inside_iff records.nonneg).mpr below
      printed := fun k nonzero => dump_printed below (records.bins k nonzero) }⟩

/-- A nanosecond early is counted as zero, 10 ms late is one bin behind the array, and 10.001 ms
    late makes the dump read there. -/
theorem three_samples_go_wrong :
    ((∃ tr t, recording.Reaches start [-1] tr t ∧ t.negativeNum = 0) ∧ ¬ AccountsFor [-1]) ∧
    (recording.run start [10000000] = some (.fault [.subscript 10000] 10000) ∧
      ¬ AccountsFor [10000000]) ∧
    (∃ tr t, recording.Reaches start [10001000] tr t ∧ .subscript 10000 ∈ t.dump.trace) ∧
      ¬ AccountsFor [10001000] := by
  have reads : ∀ tr t, recording.Reaches start [10001000] tr t →
      .subscript 10000 ∈ t.dump.trace := by
    intro tr t reach
    cases reach
    rw [dump_trace]
    exact List.mem_cons_of_mem _ (lines_beyond (by decide) (by decide))
  refine ⟨⟨⟨_, _, rfl, rfl⟩, ?_⟩, ⟨rfl, ?_⟩, ⟨_, _, rfl, reads _ _ rfl⟩, ?_⟩
  · rintro ⟨tr, t, reach, accounts⟩
    cases reach
    exact absurd accounts.negative (by decide)
  · rintro ⟨tr, t, reach, -⟩
    cases reach
  · rintro ⟨tr, t, reach, accounts⟩
    exact absurd (accounts.inside _ (reads tr t reach)).2 (by decide)

end LatencyTool

end KsoftPWM
