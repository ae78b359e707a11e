import EntroQ.Eqmem.Claim

/-! # What a listing of docs finds

A scan of the key tree finds the docs whose key is asked for, in the order of the tree. -/

namespace EntroQ.Eqmem
open Foundation Docset

def inRange (rq : DocQuery) (key : String) : Bool :=
  if rq.keyExact ≠ "" then key == rq.keyExact
  else decide (rq.keyStart ≤ key) && (rq.keyEnd == "" || decide (key < rq.keyEnd))

/-- A limit that is not positive is none. -/
def limited {α : Type} (limit : ℤ) (l : List α) : List α :=
  if 0 < limit then l.take limit.toNat else l

theorem docKeyLess_pivot_iff (e : DocKeyEntry) (key : String) :
    docKeyLess e { key } = true ↔ e.key < key := by
  have hempty (x : String) : ¬x < "" := not_lt.mpr (DocNamespace.empty_le x)
  rw [docKeyLess_iff, DocKeyEntry.order, DocKeyEntry.order, Prod.Lex.toLex_lt_toLex,
    Prod.Lex.toLex_lt_toLex]
  simp [hempty]

theorem ascendGreaterOrEqual_key (t : OrderedTree docKeyLess) (key : String) :
    t.ascendGreaterOrEqual { key } = t.toList.filter fun e => decide (key ≤ e.key) := by
  apply List.filter_congr
  intro e _
  rw [Bool.eq_iff_iff, Bool.not_eq_true', ← Bool.not_eq_true, docKeyLess_pivot_iff, not_lt,
    decide_eq_true_iff]

theorem ascendRange_key (t : OrderedTree docKeyLess) (lo hi : String) :
    t.ascendRange { key := lo } { key := hi } =
      t.toList.filter fun e => decide (lo ≤ e.key) && decide (e.key < hi) := by
  apply List.filter_congr
  intro e _
  rw [Bool.eq_iff_iff, Bool.and_eq_true, Bool.and_eq_true, Bool.not_eq_true', ← Bool.not_eq_true,
    docKeyLess_pivot_iff, docKeyLess_pivot_iff, not_lt, decide_eq_true_iff, decide_eq_true_iff]

theorem takeWhile_key (t : OrderedTree docKeyLess) (key : String) :
    (t.ascendGreaterOrEqual { key }).takeWhile (fun e => e.key == key) =
      t.toList.filter fun e => e.key == key := by
  have hp : (t.ascendGreaterOrEqual { key }).Pairwise
      (fun a b => (b.key == key) = true → (a.key == key) = true) := by
    have hs := t.sorted.sublist
      (List.filter_sublist : (t.ascendGreaterOrEqual { key }).Sublist _)
    refine hs.imp_of_mem fun {a b} ha _ hab hk => ?_
    rw [ascendGreaterOrEqual_key, List.mem_filter, decide_eq_true_eq] at ha
    rw [beq_iff_eq] at hk ⊢
    exact le_antisymm (hk ▸ DocNamespace.key_le_of_less hab) ha.2
  rw [OrderedTree.takeWhile_eq_filter _ _ hp, ascendGreaterOrEqual_key, List.filter_filter]
  apply List.filter_congr
  intro e _
  by_cases he : e.key = key
  · simp [he]
  · simp [he]

/-- The entries a scan visits. -/
theorem visited_eq (n : DocNamespace) (rq : DocQuery) :
    (if rq.keyExact ≠ "" then
      (n.byKey.ascendGreaterOrEqual { key := rq.keyExact }).takeWhile (fun e => e.key == rq.keyExact)
    else if rq.keyEnd ≠ "" then n.byKey.ascendRange { key := rq.keyStart } { key := rq.keyEnd }
    else if rq.keyStart ≠ "" then n.byKey.ascendGreaterOrEqual { key := rq.keyStart }
    else n.byKey.toList) =
      n.byKey.toList.filter fun e => inRange rq e.key := by
  unfold inRange
  split_ifs with hexact hend hstart
  · exact takeWhile_key _ _
  · rw [ascendRange_key, beq_eq_false_iff_ne.mpr hend]
    rfl
  · rw [ascendGreaterOrEqual_key, not_not.mp hend]
    apply List.filter_congr
    intro e _
    exact (Bool.and_true _).symm
  · rw [not_not.mp hend, not_not.mp hstart]
    symm
    rw [List.filter_eq_self]
    intro e _
    rw [decide_eq_true (DocNamespace.empty_le e.key)]
    rfl

theorem docs_by_key (s : EQMem) {rq : DocQuery} {n : DocNamespace} (hns : rq.ns ≠ "")
    (hn : s.namespaces.lookup rq.ns = some n) (hids : rq.ids = []) :
    docs s rq = .ok ((limited rq.limit (n.byKey.toList.filter fun e => inRange rq e.key)).map
      fun e => docsResult rq e.doc (n.lock e.doc.key)) := by
  unfold docs
  rw [Validate.docQuery, if_neg hns, hn, if_neg (not_not.mpr hids)]
  dsimp only [Option.getD_some]
  rw [visited_eq]
  rfl

end EntroQ.Eqmem
