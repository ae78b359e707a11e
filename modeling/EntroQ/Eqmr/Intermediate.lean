import EntroQ.Foundation.Merge

/-! # Intermediate records

What a map attempt emits is partitioned by key, buffered, sorted and cut into runs; a reducer
merges the runs of its partition and reduces one key at a time. However an attempt is cut into
runs, they hold the records it emitted, each once, and give the same reduction. -/

namespace EntroQ.Eqmr
open Foundation

structure KV where
  key : String
  value : String
  deriving DecidableEq

structure IntermediateRecord where
  primary : String
  secondary : String := ""
  value : String
  deriving DecidableEq

def recordLess (a b : IntermediateRecord) : Bool :=
  if a.primary ≠ b.primary then decide (a.primary < b.primary)
  else if a.secondary ≠ b.secondary then decide (a.secondary < b.secondary)
  else decide (a.value < b.value)

namespace IntermediateRecord

def lex (r : IntermediateRecord) : String ×ₗ String ×ₗ String :=
  toLex (r.primary, toLex (r.secondary, r.value))

theorem lex_injective : Function.Injective lex := by
  intro a b h
  cases a
  cases b
  simpa [lex] using h

instance : LinearOrder IntermediateRecord := LinearOrder.lift' lex lex_injective

theorem lt_iff (a b : IntermediateRecord) : a < b ↔ recordLess a b = true := by
  change lex a < lex b ↔ _
  simp only [lex, Prod.Lex.toLex_lt_toLex, recordLess]
  by_cases hp : a.primary = b.primary <;> by_cases hs : a.secondary = b.secondary <;>
    simp [hp, hs]

end IntermediateRecord

/-- Records in the order of `recordLess`. -/
def sortRecords (records : List IntermediateRecord) : List IntermediateRecord :=
  records.mergeSort fun a b => !recordLess b a

theorem sortRecords_perm (records : List IntermediateRecord) :
    (sortRecords records).Perm records :=
  List.mergeSort_perm _ _

theorem sortRecords_sorted (records : List IntermediateRecord) :
    (sortRecords records).Pairwise (· ≤ ·) := by
  have hle (a b : IntermediateRecord) : (!recordLess b a) = true ↔ a ≤ b := by
    rw [Bool.not_eq_true', Bool.eq_false_iff, Ne, ← IntermediateRecord.lt_iff, not_lt]
  have h := @List.pairwise_mergeSort _ (fun a b => !recordLess b a)
    (fun a b c hab hbc => (hle a c).mpr (((hle a b).mp hab).trans ((hle b c).mp hbc)))
    (fun a b => by
      rw [Bool.or_eq_true, hle, hle]
      exact le_total a b) records
  exact h.imp fun hab => (hle _ _).mp hab

/-! ## Partitions -/

/-- FNV-1 over the bytes of the key. -/
def fingerprint64 (key : String) : UInt64 :=
  key.toUTF8.toList.foldl (fun h b => (h * 1099511628211) ^^^ b.toUInt64) 14695981039346656037

def shardForKey (key : String) (n : ℕ) : ℕ := (fingerprint64 key).toNat % n

/-! ## Writing runs -/

def intermediateRecordBytes (r : IntermediateRecord) : ℕ :=
  r.primary.utf8ByteSize + r.secondary.utf8ByteSize + r.value.utf8ByteSize + 64

/-- The pieces cut off so far, the piece being made and its size. -/
structure Cutting where
  runs : List (List IntermediateRecord) := []
  piece : List IntermediateRecord := []
  size : ℕ := 0

def Cutting.add (maxBytes : ℕ) (c : Cutting) (r : IntermediateRecord) : Cutting :=
  let n := intermediateRecordBytes r
  if c.piece ≠ [] ∧ c.size + n > maxBytes then
    { runs := c.runs ++ [c.piece], piece := [r], size := n }
  else { c with piece := c.piece ++ [r], size := c.size + n }

def cutIntermediateRecords (records : List IntermediateRecord) (maxBytes : ℕ) :
    List (List IntermediateRecord) :=
  let c := records.foldl (Cutting.add maxBytes) {}
  if c.piece ≠ [] then c.runs ++ [c.piece] else c.runs

/-- The buffers of one map attempt, and the runs put into the store so far with their
partitions. -/
structure IntermediateWriter where
  buffers : ℕ → List IntermediateRecord := fun _ => []
  sizes : ℕ → ℕ := fun _ => 0
  total : ℕ := 0
  puts : List (ℕ × List IntermediateRecord) := []

namespace IntermediateWriter
variable (partitions maxBytes : ℕ) (s : IntermediateWriter)

def clearBuffer (partition : ℕ) : IntermediateWriter :=
  { s with
    total := s.total - s.sizes partition
    buffers := Function.update s.buffers partition []
    sizes := Function.update s.sizes partition 0 }

def flush (partition : ℕ) : IntermediateWriter :=
  let records := sortRecords (s.buffers partition)
  if records = [] then s
  else
    clearBuffer { s with
      puts := s.puts ++ (cutIntermediateRecords records maxBytes).map fun r => (partition, r) }
      partition

/-- The partition with the most bytes in its buffer, the first among equals. -/
def largest : Option ℕ :=
  (List.range partitions).foldl (fun best p =>
    if s.sizes p > 0 then
      match best with
      | none => some p
      | some b => if s.sizes p > s.sizes b then some p else best
    else best) none

def flushLargest : IntermediateWriter :=
  match s.largest partitions with
  | none => s
  | some p => s.flush maxBytes p

def write (record : IntermediateRecord) : IntermediateWriter :=
  let p := shardForKey record.primary partitions
  let n := intermediateRecordBytes record
  let s : IntermediateWriter :=
    { s with
      buffers := Function.update s.buffers p (s.buffers p ++ [record])
      sizes := Function.update s.sizes p (s.sizes p + n)
      total := s.total + n }
  if s.total ≥ maxBytes then s.flushLargest partitions maxBytes else s

def finish : IntermediateWriter := (List.range partitions).foldl (flush maxBytes) s

end IntermediateWriter

/-- The runs that one attempt puts for the records it emits, in order. -/
def putsOf (partitions maxBytes : ℕ) (records : List IntermediateRecord) :
    List (ℕ × List IntermediateRecord) :=
  ((records.foldl (IntermediateWriter.write partitions maxBytes) {}).finish partitions maxBytes).puts

/-! ## What was written -/

theorem foldl_cutting (maxBytes : ℕ) (records : List IntermediateRecord) :
    let c := records.foldl (Cutting.add maxBytes) {}
    c.runs.flatten ++ c.piece = records ∧ ∀ r ∈ c.runs, r ≠ [] := by
  induction records using List.reverseRecOn with
  | nil => exact ⟨rfl, by simp⟩
  | append_singleton records r ih =>
    obtain ⟨hall, hne⟩ := ih
    simp only [List.foldl_append, List.foldl_cons, List.foldl_nil]
    generalize records.foldl (Cutting.add maxBytes) {} = c at hall hne
    unfold Cutting.add
    dsimp only
    split_ifs with hcut
    · refine ⟨by simp [← hall], ?_⟩
      intro run hrun
      rcases List.mem_append.mp hrun with hrun | hrun
      · exact hne run hrun
      · rw [List.mem_singleton.mp hrun]
        exact hcut.1
    · exact ⟨by simp [← hall], hne⟩

theorem cut_flatten (records : List IntermediateRecord) (maxBytes : ℕ) :
    (cutIntermediateRecords records maxBytes).flatten = records := by
  obtain ⟨hall, -⟩ := foldl_cutting maxBytes records
  simp only [cutIntermediateRecords]
  split_ifs with hpiece
  · rw [List.flatten_append, List.flatten_singleton]
    exact hall
  · rw [not_not.mp hpiece, List.append_nil] at hall
    exact hall

theorem cut_ne_nil {records run : List IntermediateRecord} {maxBytes : ℕ}
    (h : run ∈ cutIntermediateRecords records maxBytes) : run ≠ [] := by
  obtain ⟨-, hne⟩ := foldl_cutting maxBytes records
  simp only [cutIntermediateRecords] at h
  split_ifs at h with hpiece
  · rcases List.mem_append.mp h with h | h
    · exact hne run h
    · rw [List.mem_singleton.mp h]
      exact hpiece
  · exact hne run h

theorem cut_sorted {records run : List IntermediateRecord} {maxBytes : ℕ}
    (hsorted : records.Pairwise (· ≤ ·)) (h : run ∈ cutIntermediateRecords records maxBytes) :
    run.Pairwise (· ≤ ·) := by
  have hsub : run.Sublist records := by
    rw [← cut_flatten records maxBytes]
    exact List.sublist_flatten_of_mem h
  exact List.Pairwise.sublist hsub hsorted

def putFor (puts : List (ℕ × List IntermediateRecord)) (p : ℕ) : List IntermediateRecord :=
  (puts.filter fun x => x.1 = p).flatMap (·.2)

/-- The records emitted for a partition. -/
def recordsFor (n : ℕ) (records : List IntermediateRecord) (p : ℕ) : List IntermediateRecord :=
  records.filter fun r => shardForKey r.primary n = p

/-- What was put into the store and what is still buffered are the records written so far. -/
structure Written (n : ℕ) (records : List IntermediateRecord) (s : IntermediateWriter) : Prop where
  perm : ∀ p, (putFor s.puts p ++ s.buffers p).Perm (recordsFor n records p)
  runs : ∀ x ∈ s.puts, x.1 < n ∧ x.2 ≠ [] ∧ x.2.Pairwise (· ≤ ·)

section Written
variable {n maxBytes : ℕ} {records : List IntermediateRecord} {s : IntermediateWriter}

theorem putFor_append (puts puts' : List (ℕ × List IntermediateRecord)) (p : ℕ) :
    putFor (puts ++ puts') p = putFor puts p ++ putFor puts' p := by
  simp [putFor]

theorem putFor_cut (runs : List (List IntermediateRecord)) (partition p : ℕ) :
    putFor (runs.map fun r => (partition, r)) p = if partition = p then runs.flatten else [] := by
  split_ifs with h
  · simp [putFor, h, List.filter_map, Function.comp_def, List.flatMap_map]
  · simp [putFor, h, List.filter_map, Function.comp_def]

theorem flush_buffers (p q : ℕ) :
    (s.flush maxBytes p).buffers q = if q = p then [] else s.buffers q := by
  unfold IntermediateWriter.flush
  dsimp only
  split_ifs with hnil hq hq
  · have hperm := sortRecords_perm (s.buffers p)
    rw [hnil] at hperm
    rw [hq]
    exact hperm.symm.eq_nil
  · rfl
  · simp [IntermediateWriter.clearBuffer, hq]
  · simp [IntermediateWriter.clearBuffer, hq]

theorem flush_puts (p : ℕ) :
    (s.flush maxBytes p).puts =
      s.puts ++ (cutIntermediateRecords (sortRecords (s.buffers p)) maxBytes).map fun r =>
        (p, r) := by
  unfold IntermediateWriter.flush
  dsimp only
  split_ifs with hnil
  · rw [hnil]
    simp [cutIntermediateRecords]
  · rfl

theorem Written.flush (h : Written n records s) {p : ℕ} (hp : p < n) :
    Written n records (s.flush maxBytes p) where
  perm q := by
    rw [flush_puts, flush_buffers, putFor_append, putFor_cut, cut_flatten]
    by_cases hq : q = p
    · subst hq
      rw [if_pos rfl, if_pos rfl, List.append_nil]
      exact ((sortRecords_perm _).append_left _).trans (h.perm q)
    · rw [if_neg (Ne.symm hq), if_neg hq, List.append_nil]
      exact h.perm q
  runs x hx := by
    rw [flush_puts] at hx
    rcases List.mem_append.mp hx with hx | hx
    · exact h.runs x hx
    · obtain ⟨r, hr, rfl⟩ := List.mem_map.mp hx
      exact ⟨hp, cut_ne_nil hr, cut_sorted (sortRecords_sorted _) hr⟩

theorem largest_lt {p : ℕ} (h : s.largest n = some p) : p < n := by
  have hfold (l : List ℕ) (hl : ∀ q ∈ l, q < n) (best : Option ℕ) (hbest : ∀ q ∈ best, q < n) :
      ∀ q ∈ l.foldl (fun best p =>
        if s.sizes p > 0 then
          match best with
          | none => some p
          | some b => if s.sizes p > s.sizes b then some p else best
        else best) best, q < n := by
    induction l generalizing best with
    | nil => exact hbest
    | cons a l ih =>
      rw [List.forall_mem_cons] at hl
      apply ih hl.2
      have ha : ∀ q ∈ some a, q < n := by
        rintro q hq
        rw [← Option.mem_some_iff.mp hq]
        exact hl.1
      dsimp only
      split_ifs
      · split
        · exact ha
        · split_ifs
          · exact ha
          · exact hbest
      · exact hbest
  exact hfold (List.range n) (fun q hq => List.mem_range.mp hq) none (by simp) p h

theorem Written.flushLargest (h : Written n records s) :
    Written n records (s.flushLargest n maxBytes) := by
  unfold IntermediateWriter.flushLargest
  split
  · exact h
  · next p hp => exact h.flush (largest_lt hp)

theorem Written.write (h : Written n records s) (r : IntermediateRecord) :
    Written n (records ++ [r]) (s.write n maxBytes r) := by
  unfold IntermediateWriter.write
  dsimp only
  have hw : Written n (records ++ [r])
      { s with
        buffers := Function.update s.buffers (shardForKey r.primary n)
          (s.buffers (shardForKey r.primary n) ++ [r])
        sizes := Function.update s.sizes (shardForKey r.primary n)
          (s.sizes (shardForKey r.primary n) + intermediateRecordBytes r)
        total := s.total + intermediateRecordBytes r } := by
    refine ⟨fun p => ?_, h.runs⟩
    rw [recordsFor, List.filter_append]
    by_cases hp : shardForKey r.primary n = p
    · subst hp
      simp only [Function.update_self, List.filter_cons, List.filter_nil, decide_true, if_true]
      rw [← List.append_assoc]
      exact (h.perm _).append_right _
    · simp only [Function.update_of_ne (Ne.symm hp), List.filter_cons, List.filter_nil, hp,
        decide_false, Bool.false_eq_true, if_false, List.append_nil]
      exact h.perm p
  split_ifs
  · exact hw.flushLargest
  · exact hw

theorem written_foldl (n maxBytes : ℕ) (records : List IntermediateRecord) :
    Written n records (records.foldl (IntermediateWriter.write n maxBytes) {}) := by
  induction records using List.reverseRecOn with
  | nil => exact ⟨fun p => by simp [putFor, recordsFor], by simp⟩
  | append_singleton records r ih =>
    rw [List.foldl_append]
    exact ih.write r

theorem Written.finish (h : Written n records s) (maxBytes : ℕ) :
    Written n records (s.finish n maxBytes) ∧ ∀ p < n, (s.finish n maxBytes).buffers p = [] := by
  have hfold (m : ℕ) (hm : m ≤ n) :
      Written n records ((List.range m).foldl (IntermediateWriter.flush maxBytes) s) ∧
        ∀ p < m, ((List.range m).foldl (IntermediateWriter.flush maxBytes) s).buffers p = [] := by
    induction m with
    | zero => exact ⟨h, by simp⟩
    | succ m ih =>
      obtain ⟨hw, hempty⟩ := ih (by omega)
      rw [List.range_succ, List.foldl_append]
      refine ⟨hw.flush (by omega), fun p hp => ?_⟩
      rw [List.foldl_cons, List.foldl_nil, flush_buffers]
      split_ifs with heq
      · rfl
      · exact hempty p (by omega)
  exact hfold n le_rfl

end Written

/-- The runs of an attempt hold, for each partition, the records emitted for it. -/
theorem putFor_putsOf (n maxBytes : ℕ) (records : List IntermediateRecord) {p : ℕ} (hp : p < n) :
    (putFor (putsOf n maxBytes records) p).Perm (recordsFor n records p) := by
  obtain ⟨hw, hempty⟩ := (written_foldl n maxBytes records).finish maxBytes
  have h := hw.perm p
  rw [hempty p hp, List.append_nil] at h
  exact h

theorem putsOf_runs {n maxBytes : ℕ} {records : List IntermediateRecord}
    {x : ℕ × List IntermediateRecord} (hx : x ∈ putsOf n maxBytes records) :
    x.1 < n ∧ x.2 ≠ [] ∧ x.2.Pairwise (· ≤ ·) :=
  ((written_foldl n maxBytes records).finish maxBytes).1.runs x hx

/-! ## Reducing -/

abbrev Reducer := String → List String → Option String

def reduceGroup (reduceFn : Reducer) : List IntermediateRecord → Option KV
  | [] => none
  | r :: rest =>
    (reduceFn r.primary ((r :: rest).map (·.value))).map fun result => ⟨r.primary, result⟩

/-- The results in key order, or nothing if the reducer fails on a key. -/
def reduceIntermediate (reduceFn : Reducer) (merged : List IntermediateRecord) :
    Option (List KV) :=
  (merged.splitBy fun a b => a.primary == b.primary).mapM (reduceGroup reduceFn)

def keysOf (records : List IntermediateRecord) : List String :=
  (records.map (·.primary)).dedup.mergeSort fun a b => decide (a ≤ b)

def valuesOf (records : List IntermediateRecord) (key : String) : List String :=
  (sortRecords (records.filter fun r => r.primary = key)).map (·.value)

def reductionOf (reduceFn : Reducer) (records : List IntermediateRecord) : Option (List KV) :=
  (keysOf records).mapM fun key =>
    (reduceFn key (valuesOf records key)).map fun result => ⟨key, result⟩

theorem mem_keysOf {records : List IntermediateRecord} {key : String} :
    key ∈ keysOf records ↔ ∃ r ∈ records, r.primary = key := by
  rw [keysOf, List.mem_mergeSort, List.mem_dedup, List.mem_map]

theorem keysOf_sorted (records : List IntermediateRecord) :
    (keysOf records).Pairwise (· < ·) := by
  have hle : (keysOf records).Pairwise (· ≤ ·) := by
    have h := @List.pairwise_mergeSort _ (fun a b : String => decide (a ≤ b))
      (fun a b c hab hbc => by
        rw [decide_eq_true_eq] at *
        exact hab.trans hbc)
      (fun a b => by
        rw [Bool.or_eq_true, decide_eq_true_eq, decide_eq_true_eq]
        exact le_total a b) (records.map (·.primary)).dedup
    exact h.imp of_decide_eq_true
  have hne : (keysOf records).Nodup :=
    (List.mergeSort_perm _ _).nodup_iff.mpr (List.nodup_dedup _)
  exact (hle.and hne).imp fun h => lt_of_le_of_ne h.1 h.2

theorem primary_le_of_le {a b : IntermediateRecord} (h : a ≤ b) : a.primary ≤ b.primary := by
  have h : a.lex ≤ b.lex := h
  rcases Prod.Lex.toLex_le_toLex.mp h with h | h
  · exact h.le
  · exact h.1.le

theorem map_value_filter {records merged : List IntermediateRecord} (hperm : merged.Perm records)
    (hsorted : merged.Pairwise (· ≤ ·)) (key : String) :
    (merged.filter fun r => r.primary = key).map (·.value) = valuesOf records key := by
  rw [valuesOf]
  congr 1
  apply List.Perm.eq_of_pairwise (fun _ _ _ _ => le_antisymm) (hsorted.filter _)
    (sortRecords_sorted _)
  exact (hperm.filter _).trans (sortRecords_perm _).symm

theorem reduceGroup_of_key (reduceFn : Reducer) {group : List IntermediateRecord} {key : String}
    (hne : group ≠ []) (hkey : ∀ r ∈ group, r.primary = key) :
    reduceGroup reduceFn group =
      (reduceFn key (group.map (·.value))).map fun result => ⟨key, result⟩ := by
  cases group with
  | nil => exact absurd rfl hne
  | cons r rest => rw [reduceGroup, hkey r List.mem_cons_self]

theorem mapM_congr_left {α β : Type} {f g : α → Option β} {l : List α} (h : ∀ a ∈ l, f a = g a) :
    l.mapM f = l.mapM g := by
  induction l with
  | nil => rfl
  | cons a l ih =>
    rw [List.mapM_cons, List.mapM_cons, h a List.mem_cons_self,
      ih fun b hb => h b (List.mem_cons_of_mem a hb)]

theorem reduceIntermediate_eq (reduceFn : Reducer) {records merged : List IntermediateRecord}
    (hperm : merged.Perm records) (hsorted : merged.Pairwise (· ≤ ·)) :
    reduceIntermediate reduceFn merged = reductionOf reduceFn records := by
  have hmem (key : String) : key ∈ keysOf records ↔ ∃ r ∈ merged, r.primary = key := by
    simp only [mem_keysOf, hperm.mem_iff]
  rw [reduceIntermediate, splitBy_key (hsorted.imp primary_le_of_le) (keysOf_sorted records) hmem,
    List.mapM_map, reductionOf]
  apply mapM_congr_left
  intro key hkey
  obtain ⟨r, hr, hrkey⟩ := (hmem key).mp hkey
  have hne : (merged.filter fun r => r.primary = key) ≠ [] :=
    List.ne_nil_of_mem (List.mem_filter.mpr ⟨hr, decide_eq_true hrkey⟩)
  have hgroup : ∀ r ∈ merged.filter (fun r => r.primary = key), r.primary = key := fun r hr =>
    of_decide_eq_true (List.mem_filter.mp hr).2
  rw [Function.comp_apply, reduceGroup_of_key reduceFn hne hgroup, map_value_filter hperm hsorted]

/-- However the records are spread over sorted runs, merging and reducing the runs gives the
reduction of the records. -/
theorem reduce_mergeAll (reduceFn : Reducer) {runs : List (List IntermediateRecord)}
    {records : List IntermediateRecord} (hsorted : ∀ run ∈ runs, run.Pairwise (· ≤ ·))
    (hperm : runs.flatten.Perm records) :
    reduceIntermediate reduceFn (mergeAll runs) = reductionOf reduceFn records :=
  reduceIntermediate_eq reduceFn ((mergeAll_perm runs).trans hperm) (mergeAll_sorted hsorted)

end EntroQ.Eqmr
