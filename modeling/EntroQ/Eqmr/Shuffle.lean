import EntroQ.Eqmr.GroupedIntermediate
import EntroQ.Eqmr.MergedIntermediate
import EntroQ.Eqmr.System

/-! # The shuffle

What a map attempt writes reaches the reducers of its partitions: the runs of a partition, merged,
are its records in order, and the reducer is called for each key with the values of that key. The
writer never holds more than its bound between two writes. -/

namespace EntroQ.Eqmr
open Foundation

/-! ## The writer's memory -/

def bufferedBytes (n : ℕ) (s : IntermediateWriter) : ℕ :=
  ∑ p ∈ Finset.range n, ((s.buffers p).map intermediateRecordBytes).sum

structure Accounted (n : ℕ) (s : IntermediateWriter) : Prop where
  sizes : ∀ p, s.sizes p = ((s.buffers p).map intermediateRecordBytes).sum
  total : s.total = ∑ p ∈ Finset.range n, s.sizes p

section Bound
variable {n maxBytes : ℕ} {s : IntermediateWriter}

theorem Accounted.total_eq (h : Accounted n s) : s.total = bufferedBytes n s := by
  rw [h.total, bufferedBytes]
  exact Finset.sum_congr rfl fun p _ => h.sizes p

theorem Accounted.size_le (h : Accounted n s) {p : ℕ} (hp : p < n) : s.sizes p ≤ s.total := by
  rw [h.total]
  exact Finset.single_le_sum (fun _ _ => Nat.zero_le _) (Finset.mem_range.mpr hp)

/-- Putting another number in one of the places of a sum. -/
theorem sum_update {p : ℕ} (hp : p < n) (f : ℕ → ℕ) (b : ℕ) :
    ∑ q ∈ Finset.range n, Function.update f p b q + f p = b + ∑ q ∈ Finset.range n, f q := by
  have hmem := Finset.mem_range.mpr hp
  have hsplit := @Finset.sum_sdiff _ _ _ _ _ f _ (Finset.singleton_subset_iff.mpr hmem)
  rw [Finset.sum_singleton] at hsplit
  rw [Finset.sum_update_of_mem hmem]
  omega

theorem flush_eq (p : ℕ) (h : s.buffers p ≠ []) :
    s.flush maxBytes p = IntermediateWriter.clearBuffer { s with
      puts := s.puts ++ (cutIntermediateRecords (sortRecords (s.buffers p)) maxBytes).map fun r =>
        (p, r) } p := by
  have hne : sortRecords (s.buffers p) ≠ [] := by
    intro hnil
    have hperm := sortRecords_perm (s.buffers p)
    rw [hnil] at hperm
    exact h hperm.symm.eq_nil
  unfold IntermediateWriter.flush
  exact if_neg hne

variable (maxBytes) in
theorem Accounted.flush (h : Accounted n s) {p : ℕ} (hp : p < n) (hne : s.buffers p ≠ []) :
    Accounted n (s.flush maxBytes p) ∧ (s.flush maxBytes p).total = s.total - s.sizes p := by
  rw [flush_eq p hne]
  refine ⟨⟨?_, ?_⟩, rfl⟩
  · intro q
    by_cases hq : q = p
    · subst hq
      simp [IntermediateWriter.clearBuffer]
    · simp [IntermediateWriter.clearBuffer, hq, h.sizes q]
  · have hsum := sum_update hp s.sizes 0
    have htotal := h.total
    simp only [IntermediateWriter.clearBuffer]
    omega

/-- The largest buffer is not below any other. -/
theorem largest_spec (s : IntermediateWriter) (n : ℕ) :
    match s.largest n with
    | none => ∀ p < n, s.sizes p = 0
    | some q => s.sizes q > 0 ∧ ∀ p < n, s.sizes p ≤ s.sizes q := by
  unfold IntermediateWriter.largest
  induction n with
  | zero => simp
  | succ n ih =>
    rw [List.range_succ, List.foldl_append, List.foldl_cons, List.foldl_nil]
    generalize (List.range n).foldl _ none = best at ih ⊢
    cases best with
    | none =>
      dsimp only at ih ⊢
      split_ifs with hpos
      · refine ⟨hpos, fun p hp => ?_⟩
        rcases Nat.lt_succ_iff_lt_or_eq.mp hp with hp | rfl
        · rw [ih p hp]
          exact Nat.zero_le _
        · exact le_rfl
      · intro p hp
        rcases Nat.lt_succ_iff_lt_or_eq.mp hp with hp | rfl
        · exact ih p hp
        · omega
    | some b =>
      obtain ⟨hb, hle⟩ := ih
      have hmax (q : ℕ) (hq : s.sizes b ≤ s.sizes q) (hn : s.sizes n ≤ s.sizes q) :
          ∀ p < n + 1, s.sizes p ≤ s.sizes q := by
        intro p hp
        rcases Nat.lt_succ_iff_lt_or_eq.mp hp with hp | rfl
        · exact (hle p hp).trans hq
        · exact hn
      dsimp only
      split_ifs with hpos hgt
      · exact ⟨hpos, hmax n hgt.le le_rfl⟩
      · exact ⟨hb, hmax b le_rfl (not_lt.mp hgt)⟩
      · exact ⟨hb, hmax b le_rfl (by omega)⟩

variable (maxBytes) in
/-- Flushing the largest buffer takes off at least the bytes of any one of them. -/
theorem Accounted.flushLargest (h : Accounted n s) :
    Accounted n (s.flushLargest n maxBytes) ∧
      ∀ p < n, (s.flushLargest n maxBytes).total + s.sizes p ≤ s.total := by
  have hspec := largest_spec s n
  unfold IntermediateWriter.flushLargest
  cases hl : s.largest n with
  | none =>
    rw [hl] at hspec
    refine ⟨h, fun p hp => ?_⟩
    dsimp only at hspec ⊢
    rw [hspec p hp, Nat.add_zero]
  | some q =>
    rw [hl] at hspec
    obtain ⟨hpos, hmax⟩ := hspec
    have hq : q < n := largest_lt hl
    have hne : s.buffers q ≠ [] := by
      intro hnil
      rw [h.sizes q, hnil] at hpos
      cases hpos
    obtain ⟨hacc, htotal⟩ := h.flush maxBytes hq hne
    refine ⟨hacc, fun p hp => ?_⟩
    have hle := h.size_le hq
    have hp := hmax p hp
    dsimp only
    omega

/-- Between two writes the writer holds less than its bound. -/
theorem Accounted.write (hn : 0 < n) (h : Accounted n s) (hbound : s.total < maxBytes)
    (r : IntermediateRecord) :
    Accounted n (s.write n maxBytes r) ∧ (s.write n maxBytes r).total < maxBytes := by
  have hp : shardForKey r.primary n < n := Nat.mod_lt _ hn
  generalize hshard : shardForKey r.primary n = p at hp
  have hadded : Accounted n
      { s with
        buffers := Function.update s.buffers p (s.buffers p ++ [r])
        sizes := Function.update s.sizes p (s.sizes p + intermediateRecordBytes r)
        total := s.total + intermediateRecordBytes r } := by
    refine ⟨fun q => ?_, ?_⟩
    · by_cases hq : q = p
      · subst hq
        simp [h.sizes q]
      · simp [hq, h.sizes q]
    · have hsum := sum_update hp s.sizes (s.sizes p + intermediateRecordBytes r)
      have htotal := h.total
      dsimp only
      omega
  unfold IntermediateWriter.write
  rw [hshard]
  dsimp only
  split_ifs with hfull
  · obtain ⟨hacc, hless⟩ := hadded.flushLargest maxBytes
    have hoff := hless p hp
    dsimp only at hoff
    rw [Function.update_self] at hoff
    exact ⟨hacc, by omega⟩
  · exact ⟨hadded, not_le.mp hfull⟩

/-- However much has been written. -/
theorem bufferedBytes_lt (hn : 0 < n) (hmax : 0 < maxBytes) (records : List IntermediateRecord) :
    bufferedBytes n (records.foldl (IntermediateWriter.write n maxBytes) {}) < maxBytes := by
  have hall : Accounted n (records.foldl (IntermediateWriter.write n maxBytes) {}) ∧
      (records.foldl (IntermediateWriter.write n maxBytes) {}).total < maxBytes := by
    induction records using List.reverseRecOn with
    | nil => exact ⟨⟨fun _ => rfl, by simp⟩, hmax⟩
    | append_singleton records r ih =>
      rw [List.foldl_append]
      exact ih.1.write hn ih.2 r
  rw [← hall.1.total_eq]
  exact hall.2

end Bound

/-! ## The keys of a partition -/

theorem groups_sortRecords (records : List IntermediateRecord) :
    Groups (keysOf records) (fun key => (sortRecords records).filter fun r => r.primary = key) ∧
      (keysOf records).flatMap (fun key => (sortRecords records).filter fun r => r.primary = key) =
        sortRecords records := by
  have hmem (key : String) : key ∈ keysOf records ↔ ∃ r ∈ sortRecords records, r.primary = key := by
    simp only [mem_keysOf, (sortRecords_perm records).mem_iff]
  refine ⟨⟨?_, ?_, ?_⟩, ?_⟩
  · exact (keysOf_sorted records).imp ne_of_lt
  · intro key hkey
    obtain ⟨r, hr, hrkey⟩ := (hmem key).mp hkey
    exact List.ne_nil_of_mem (List.mem_filter.mpr ⟨hr, decide_eq_true hrkey⟩)
  · intro key _ r hr
    exact of_decide_eq_true (List.mem_filter.mp hr).2
  · rw [List.flatMap_def,
      ← splitBy_key ((sortRecords_sorted records).imp primary_le_of_le) (keysOf_sorted records) hmem]
    exact List.flatten_splitBy _ _

/-- A stream of sorted records is reduced key by key. -/
theorem reduceGrouped_sortRecords {ε μ φ δ σ : Type} {mergedNext : EStateM ε μ IntermediateRecord}
    {isEOF : ε → Bool} {m : μ} {records : List IntermediateRecord} {fail : Option ε}
    (h : Gives mergedNext isEOF m (sortRecords records) fail) (reduceFn : String → Reducing ε φ)
    (write : String → String → σ → Except δ σ) (sink : σ) {n : ℕ} (hn : records.length + 1 < n) :
    reduceGrouped mergedNext isEOF reduceFn write n { merged := m } sink =
      some (reduceKeys reduceFn write (valuesOf records) fail (keysOf records) sink) := by
  obtain ⟨hgroups, hflat⟩ := groups_sortRecords records
  have hstream : GroupedIntermediate.Streams mergedNext isEOF { merged := m }
      ((keysOf records).flatMap fun key =>
        (sortRecords records).filter fun r => r.primary = key) fail := by
    rw [hflat]
    exact .behind h
  have hvalues : (fun key => ((sortRecords records).filter fun r => r.primary = key).map (·.value)) =
      valuesOf records := by
    funext key
    exact map_value_filter (sortRecords_perm records) (sortRecords_sorted records) key
  rw [reduceGrouped_eq reduceFn write hgroups hstream sink, hvalues]
  rw [hflat, (sortRecords_perm records).length_eq]
  exact hn

/-! ## The runs of a partition -/

def runsFor (puts : List (ℕ × List IntermediateRecord)) (p : ℕ) : List (List IntermediateRecord) :=
  (puts.filter fun x => x.1 = p).map (·.2)

theorem runsFor_flatten (puts : List (ℕ × List IntermediateRecord)) (p : ℕ) :
    (runsFor puts p).flatten = putFor puts p :=
  List.flatMap_def.symm

section Runs
variable {ε ρ R : Type} (readNext : EStateM ε ρ IntermediateRecord) (isEOF : ε → Bool)
  (openRun : R → Except ε ρ)

/-- The store gives back the records that were put. -/
def Returns (ref : R) (run : List IntermediateRecord) : Prop :=
  ∃ r e r', openRun ref = .ok r ∧ Plays readNext r run e r' ∧ isEOF e = true

variable {readNext isEOF openRun} {refs : List R} {runs : List (List IntermediateRecord)}

theorem Returns.tracks (h : List.Forall₂ (Returns readNext isEOF openRun) refs runs) :
    ∃ ts, List.Forall₂ (Opens readNext openRun) refs ts ∧ ts.map Track.rest = runs ∧
      ∀ t ∈ ts, isEOF t.last = true := by
  induction h with
  | nil => exact ⟨[], .nil, rfl, by simp⟩
  | cons hrun hruns ih =>
    obtain ⟨r, e, r', hopen, hplays, heof⟩ := hrun
    obtain ⟨ts, hall, hrest, hends⟩ := ih
    exact ⟨⟨_, e, r'⟩ :: ts, .cons ⟨r, hopen, hplays⟩ hall, by rw [List.map_cons, hrest],
      List.forall_mem_cons.mpr ⟨heof, hends⟩⟩

theorem merged_sorted {eof : ε} (heof : isEOF eof = true)
    (h : List.Forall₂ (Returns readNext isEOF openRun) refs runs)
    (hsorted : ∀ run ∈ runs, run.Pairwise (· ≤ ·)) {records : List IntermediateRecord}
    (hperm : runs.flatten.Perm records) :
    ∃ m m', openMergedIntermediate readNext isEOF openRun refs = .ok m ∧
      Plays (MergedIntermediate.next recordLess readNext isEOF eof) m (sortRecords records) eof m' ∧
      Gives (MergedIntermediate.next recordLess readNext isEOF eof) isEOF m (sortRecords records)
        none := by
  obtain ⟨ts, hopen, hrest, hends⟩ := Returns.tracks h
  obtain ⟨m, out, m', hm, hfollows, hplays, hout, -⟩ := openMergedIntermediate_ended hopen hends
  have hsort : ∀ t ∈ ts, t.rest.Pairwise (· ≤ ·) := by
    intro t ht
    apply hsorted
    rw [← hrest]
    exact List.mem_map_of_mem ht
  obtain ⟨houtSorted, -⟩ :=
    hfollows.plays_sorted (fun a b => (IntermediateRecord.lt_iff a b).symm) hsort hplays
  rw [remaining, hrest] at hout
  have heq : out = sortRecords records :=
    List.Perm.eq_of_pairwise (fun _ _ _ _ => le_antisymm) houtSorted (sortRecords_sorted records)
      ((hout.trans hperm).trans (sortRecords_perm records).symm)
  subst heq
  exact ⟨m, m', hm, hplays, eof, m', hplays, by rw [heof]; rfl, fun _ => next_again hplays heof⟩

/-- What is staged of a partition, if its reduction ends well, is what the records of its runs
reduce to. -/
theorem reduceGrouped_mergeAll {eof : ε} (heof : isEOF eof = true)
    (h : List.Forall₂ (Returns readNext isEOF openRun) refs runs)
    (hsorted : ∀ run ∈ runs, run.Pairwise (· ≤ ·)) {φ : Type} (reduceFn : String → Reducing ε φ)
    {n : ℕ} (hn : runs.flatten.length + 1 < n) :
    ∃ m reduction, openMergedIntermediate readNext isEOF openRun refs = .ok m ∧
      reduceGrouped (MergedIntermediate.next recordLess readNext isEOF eof) isEOF reduceFn stage n
        { merged := m } [] = some reduction ∧
      (reduction.1.toOption.map fun _ => reduction.2.1) =
        reduceIntermediate (resultOf reduceFn) (mergeAll runs) := by
  obtain ⟨m, -, hm, -, hgives⟩ := merged_sorted heof h hsorted (.refl _)
  refine ⟨m, _, hm, reduceGrouped_sortRecords hgives reduceFn stage [] hn, ?_⟩
  rw [reduceKeys_stage, reduce_mergeAll _ hsorted (.refl _)]
  simp [reductionOf]

end Runs

/-- What is to be seen of a reduction of the records: it is that of their keys, one after the other,
and a result is written once all values of its key have been read. -/
structure ReducesAll {ε φ δ σ : Type} (records : List IntermediateRecord)
    (reduceFn : String → Reducing ε φ) (write : String → String → σ → Except δ σ) (sink : σ)
    (reduction : Except (ReduceFailure ε φ δ) Unit × σ × List ReduceEvent) : Prop where
  eq : reduction =
    reduceKeys reduceFn write (valuesOf records) none (keysOf records) sink
  keys : (keysOf records).Pairwise (· < ·) ∧
    ∀ key, key ∈ keysOf records ↔ ∃ r ∈ records, r.primary = key
  called : calls reduction.2.2 <+: keysOf records ∧
    (reduction.1 = .ok () → calls reduction.2.2 = keysOf records)
  wrote : ∀ key result, .wrote key result ∈ reduction.2.2 → ∃ before after, reduction.2.2 =
    before ++ (.called key :: (valuesOf records key).map (.read key) ++ .wrote key result :: after)

theorem reducesAll {ε φ δ σ : Type} (records : List IntermediateRecord)
    (reduceFn : String → Reducing ε φ) (write : String → String → σ → Except δ σ) (sink : σ) :
    ReducesAll records reduceFn write sink
      (reduceKeys reduceFn write (valuesOf records) none (keysOf records) sink) where
  eq := rfl
  keys := ⟨keysOf_sorted records, fun _ => mem_keysOf⟩
  called := reduceKeys_calls reduceFn write _ none _ sink
  wrote _ _ h := (reduceKeys_wrote reduceFn write _ none _ sink h).1

/-- What is written in one attempt reaches the reducer of each partition: its runs merged are its
records in order, and the reducer is called for each of its keys, in order, with the values of the
key. -/
theorem shuffle {n : ℕ} (hn : 0 < n) (maxBytes : ℤ) (records : List IntermediateRecord) :
    bufferedBytes n (records.foldl (IntermediateWriter.write n (runBytes maxBytes.toNat)) {}) <
        runBytes maxBytes.toNat ∧
      ∀ p < n, ∀ (ε ρ R : Type) (readNext : EStateM ε ρ IntermediateRecord) (isEOF : ε → Bool)
        (eof : ε) (openRun : R → Except ε ρ) (refs : List R), isEOF eof = true →
        List.Forall₂ (Returns readNext isEOF openRun) refs
          (runsFor (putsOf n (runBytes maxBytes.toNat) records) p) →
        ∃ m m', openMergedIntermediate readNext isEOF openRun refs = .ok m ∧
          Plays (MergedIntermediate.next recordLess readNext isEOF eof) m
            (sortRecords (recordsFor n records p)) eof m' ∧
          ∀ (φ δ σ : Type) (reduceFn : String → Reducing ε φ)
            (write : String → String → σ → Except δ σ) (sink : σ) (steps : ℕ),
            (recordsFor n records p).length + 1 < steps →
            ∃ reduction,
              reduceGrouped (MergedIntermediate.next recordLess readNext isEOF eof) isEOF reduceFn
                write steps { merged := m } sink = some reduction ∧
              ReducesAll (recordsFor n records p) reduceFn write sink reduction := by
  have hmax : 0 < runBytes maxBytes.toNat := by
    unfold runBytes
    split_ifs with hzero
    · decide
    · exact Nat.pos_of_ne_zero hzero
  refine ⟨bufferedBytes_lt hn hmax records, ?_⟩
  intro p hp ε ρ R readNext isEOF eof openRun refs heof hstore
  have hperm := putFor_putsOf n (runBytes maxBytes.toNat) records hp
  rw [← runsFor_flatten] at hperm
  have hsorted : ∀ run ∈ runsFor (putsOf n (runBytes maxBytes.toNat) records) p,
      run.Pairwise (· ≤ ·) := by
    intro run hrun
    obtain ⟨x, hx, rfl⟩ := List.mem_map.mp hrun
    exact (putsOf_runs (List.mem_of_mem_filter hx)).2.2
  obtain ⟨m, m', hm, hplays, hgives⟩ := merged_sorted heof hstore hsorted hperm
  refine ⟨m, m', hm, hplays, ?_⟩
  intro φ δ σ reduceFn write sink steps hsteps
  exact ⟨_, reduceGrouped_sortRecords hgives reduceFn write sink hsteps, reducesAll _ _ _ _⟩

def wordPair : List IntermediateRecord := [⟨"b", "", "1"⟩, ⟨"a", "", "1"⟩]

/-- A reducer that reads nothing. -/
def keyOnly (key : String) : Reducing Unit Unit := .returns (.ok key)

def countWrites (_ _ : String) (n : ℕ) : Except Unit ℕ := .ok (n + 1)

/-- Two words in one partition, from a store that keeps its runs as lists. -/
theorem shuffle_twoWords :
    bufferedBytes 1 (wordPair.foldl (IntermediateWriter.write 1 (runBytes 0)) {}) < runBytes 0 ∧
      ∃ m m', openMergedIntermediate (listNext ()) (fun _ => true) Except.ok
          (runsFor (putsOf 1 (runBytes 0) wordPair) 0) = .ok m ∧
        Plays (MergedIntermediate.next recordLess (listNext ()) (fun _ => true) ()) m
          (sortRecords (recordsFor 1 wordPair 0)) () m' ∧
        ∃ reduction,
          reduceGrouped (MergedIntermediate.next recordLess (listNext ()) (fun _ => true) ())
            (fun _ => true) keyOnly countWrites 4 { merged := m } 0 = some reduction ∧
          ReducesAll (recordsFor 1 wordPair 0) keyOnly countWrites 0 reduction := by
  obtain ⟨hbound, hall⟩ := shuffle Nat.one_pos 0 wordPair
  have hstore (runs : List (List IntermediateRecord)) :
      List.Forall₂ (Returns (listNext ()) (fun _ => true) Except.ok) runs runs :=
    List.forall₂_same.mpr fun run _ => ⟨run, (), [], rfl, plays_list () run, rfl⟩
  obtain ⟨m, m', hm, hplays, hreduce⟩ :=
    hall 0 Nat.one_pos Unit _ _ (listNext ()) (fun _ => true) () Except.ok _ rfl (hstore _)
  have hlen : (recordsFor 1 wordPair 0).length + 1 < 4 :=
    Nat.lt_succ_of_le (Nat.succ_le_succ (List.length_filter_le _ wordPair))
  exact ⟨hbound, m, m', hm, hplays, hreduce Unit Unit ℕ keyOnly countWrites 0 4 hlen⟩

end EntroQ.Eqmr
