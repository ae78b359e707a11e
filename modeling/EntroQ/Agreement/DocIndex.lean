import EntroQ.Eqmem.DocListing
import EntroQ.Eqmem.Run
import EntroQ.Eqredis.Modify
import EntroQ.Foundation.SeparatedOrder

/-! # The doc index on Redis and the key tree in memory

Index entries join primary key, secondary key and ID with a separator that keys do not contain, so
they are ordered like the entries of the key tree, and the docs of a key lie between two texts. A
bound that contains the separator itself can miss: it may fall between a key and the entries that
begin with it. -/

namespace EntroQ.Agreement
open Foundation Docset Eqmem

def indexMember (e : DocKeyEntry) : String := Eqredis.docIndexMember e.key e.secondary e.id

def NulFree (e : DocKeyEntry) : Prop :=
  '\x00' ∉ e.key.toList ∧ '\x00' ∉ e.secondary.toList ∧ '\x00' ∉ e.id.toList

section Strings

theorem nul_le (c : Char) : '\x00' ≤ c := Nat.zero_le _

theorem lt_one_iff (c : Char) : c < '\x01' ↔ c = '\x00' := by
  constructor
  · intro h
    have hv : c.val.toNat < 1 := h
    apply Char.ext
    apply UInt32.toNat_inj.mp
    simpa using hv
  · rintro rfl
    decide

theorem indexMember_toList (e : DocKeyEntry) :
    (indexMember e).toList =
      e.key.toList ++ '\x00' :: (e.secondary.toList ++ '\x00' :: e.id.toList) := by
  simp [indexMember, Eqredis.docIndexMember, Eqredis.docIndexSep, String.toList_append]

/-- Index entries are ordered like the entries of the key tree. -/
theorem indexMember_lt_iff {a b : DocKeyEntry} (ha : NulFree a) (hb : NulFree b) :
    indexMember a < indexMember b ↔ docKeyLess a b = true := by
  rw [docKeyLess_iff, DocKeyEntry.order, DocKeyEntry.order, Prod.Lex.toLex_lt_toLex,
    Prod.Lex.toLex_lt_toLex, String.lt_iff_toList_lt, indexMember_toList, indexMember_toList,
    append_separator_lt_iff nul_le ha.1 hb.1, append_separator_lt_iff nul_le ha.2.1 hb.2.1]
  simp only [← String.lt_iff_toList_lt, String.toList_inj]

/-- What follows the second separator is the ID, whatever it contains. -/
theorem parse_docIndexMember {keyPrimary keySecondary : String}
    (hp : '\x00' ∉ keyPrimary.toList) (hs : '\x00' ∉ keySecondary.toList) (id : String) :
    Eqredis.parseDocIndexMember (Eqredis.docIndexMember keyPrimary keySecondary id) =
      (keyPrimary, keySecondary, id) := by
  have hsplit : (Eqredis.docIndexMember keyPrimary keySecondary id).toList.splitOn '\x00' =
      keyPrimary.toList :: keySecondary.toList :: id.toList.splitOn '\x00' := by
    have h := List.splitOn_append_cons_self_of_not_mem hp
      (keySecondary.toList ++ '\x00' :: id.toList)
    rw [List.splitOn_append_cons_self_of_not_mem hs] at h
    simpa [Eqredis.docIndexMember, Eqredis.docIndexSep] using h
  have hid : ['\x00'].intercalate (id.toList.splitOn '\x00') = id.toList :=
    List.intercalate_splitOn _
  unfold Eqredis.parseDocIndexMember
  rw [hsplit]
  cases hrest : id.toList.splitOn '\x00' with
  | nil => exact absurd hrest (List.splitOn_ne_nil _ _)
  | cons a rest =>
    rw [hrest] at hid
    simp [hid]

/-- The bound follows the key of the doc and the separator with something at or before what
follows them in the doc's own entry. -/
def Splits (b : String) (e : DocKeyEntry) : Prop :=
  ∃ z, b = e.key ++ Eqredis.docIndexSep ++ z ∧ z ≤ e.secondary ++ Eqredis.docIndexSep ++ e.id

theorem indexMember_lt_bound_iff (e : DocKeyEntry) (b : String) :
    indexMember e < b ↔ e.key < b ∧ ¬Splits b e := by
  rw [String.lt_iff_toList_lt, indexMember_toList, append_separator_lt_bound_iff nul_le,
    String.lt_iff_toList_lt]
  refine and_congr_right fun _ => ⟨?_, ?_⟩
  · rintro h ⟨z, rfl, hz⟩
    have := h z.toList (by simp [Eqredis.docIndexSep])
    rw [← not_lt, String.lt_iff_toList_lt] at hz
    exact hz (by simpa [Eqredis.docIndexSep] using this)
  · intro h z hz
    by_contra hle
    refine h ⟨String.ofList z, ?_, ?_⟩
    · rw [← String.toList_inj]
      simpa [Eqredis.docIndexSep] using hz
    · rw [← not_lt, String.lt_iff_toList_lt]
      simpa [Eqredis.docIndexSep] using hle

theorem lt_of_splits {b : String} {e : DocKeyEntry} (h : Splits b e) : e.key < b := by
  obtain ⟨z, rfl, -⟩ := h
  rw [String.lt_iff_toList_lt]
  have h : e.key.toList ++ [] < e.key.toList ++ '\x00' :: z.toList :=
    List.append_left_lt (List.nil_lt_cons _ _)
  simpa [Eqredis.docIndexSep] using h

/-- The entries between the texts of a key are those of the key, and those whose two keys joined
are the key. -/
theorem between_set_iff {e : DocKeyEntry} (he : NulFree e) (key : String) :
    key ++ Eqredis.docIndexSep ≤ indexMember e ∧ indexMember e < key ++ "\x01" ↔
      key = e.key ∨ key = e.key ++ Eqredis.docIndexSep ++ e.secondary := by
  rw [← not_lt, String.lt_iff_toList_lt, String.lt_iff_toList_lt, String.toList_append,
    String.toList_append]
  change ¬_ < key.toList ++ ['\x00'] ∧ _ < key.toList ++ ['\x01'] ↔ _
  rw [between_iff_begins nul_le lt_one_iff, indexMember_toList,
    separated_begins_iff he.1 he.2.1 he.2.2, ← String.toList_inj, ← String.toList_inj]
  simp [Eqredis.docIndexSep]

theorem key_ne_joined (key secondary : String) :
    key ≠ key ++ Eqredis.docIndexSep ++ secondary := by
  intro h
  have := congrArg (fun s => s.toList.length) h
  simp [Eqredis.docIndexSep] at this

/-- The range of a set and its key agree on a doc exactly if the key is not the doc's two keys
joined. -/
theorem between_set_iff_key_iff {e : DocKeyEntry} (he : NulFree e) (key : String) :
    (key ++ Eqredis.docIndexSep ≤ indexMember e ∧ indexMember e < key ++ "\x01" ↔ e.key = key) ↔
      key ≠ e.key ++ Eqredis.docIndexSep ++ e.secondary := by
  rw [between_set_iff he]
  constructor
  · rintro h rfl
    exact key_ne_joined _ _ (h.mp (.inr rfl))
  · intro h
    exact ⟨fun hor => (hor.resolve_right h).symm, fun h' => .inl h'.symm⟩

theorem between_occupant_iff {e : DocKeyEntry} (he : NulFree e) (key secondary : String) :
    (Eqredis.occupantRange key secondary).1 ≤ indexMember e ∧
        indexMember e < (Eqredis.occupantRange key secondary).2 ↔
      e.key = key ∧ e.secondary = secondary := by
  change key ++ Eqredis.docIndexSep ++ secondary ++ Eqredis.docIndexSep ≤ _ ∧
    _ < key ++ Eqredis.docIndexSep ++ secondary ++ "\x01" ↔ _
  rw [between_set_iff he]
  constructor
  · rintro (h | h)
    · -- a key with a separator is no key of a doc
      exact absurd (by rw [← h]; simp [Eqredis.docIndexSep]) he.1
    · rw [← String.toList_inj] at h
      simp only [Eqredis.docIndexSep, String.toList_append, List.append_assoc] at h
      change key.toList ++ '\x00' :: secondary.toList =
        e.key.toList ++ '\x00' :: e.secondary.toList at h
      have hkey : '\x00' ∉ key.toList := by
        intro hk
        obtain ⟨k₁, k₂, hk, hk₁⟩ := List.eq_append_cons_of_mem hk
        rw [hk, List.append_assoc, List.cons_append] at h
        exact he.2.1 (by rw [← (append_separator_inj hk₁ he.1 h).2]; simp)
      obtain ⟨h₁, h₂⟩ := append_separator_inj hkey he.1 h
      exact ⟨(String.toList_inj.mp h₁).symm, (String.toList_inj.mp h₂).symm⟩
  · rintro ⟨rfl, rfl⟩
    exact .inr rfl

end Strings

/-! ## Ranges of the index -/

theorem pairwise_indexMember {l : List DocKeyEntry}
    (hl : l.Pairwise fun a b => docKeyLess a b = true) (hnul : ∀ e ∈ l, NulFree e) :
    (l.map indexMember).Pairwise (· < ·) := by
  rw [List.pairwise_map]
  exact hl.imp_of_mem fun ha hb hab => (indexMember_lt_iff (hnul _ ha) (hnul _ hb)).mpr hab

/-- A range of the index is the entries of the docs in it, in the order of the key tree. -/
theorem sort_filter_index {l : List DocKeyEntry} (hl : l.Pairwise fun a b => docKeyLess a b = true)
    (hnul : ∀ e ∈ l, NulFree e) (p : String → Prop) [DecidablePred p] :
    ((l.map indexMember).toFinset.filter p).sort (· ≤ ·) =
      (l.filter fun e => decide (p (indexMember e))).map indexMember := by
  have hsub : ((l.filter fun e => decide (p (indexMember e))).map indexMember).Pairwise (· < ·) :=
    (pairwise_indexMember hl hnul).sublist (List.filter_sublist.map _)
  have hset : (l.map indexMember).toFinset.filter p =
      ((l.filter fun e => decide (p (indexMember e))).map indexMember).toFinset := by
    ext m
    simp only [Finset.mem_filter, List.mem_toFinset, List.mem_map, List.mem_filter,
      decide_eq_true_eq]
    constructor
    · rintro ⟨⟨e, he, rfl⟩, hp⟩
      exact ⟨e, ⟨he, hp⟩, rfl⟩
    · rintro ⟨e, ⟨he, hp⟩, rfl⟩
      exact ⟨⟨e, he, rfl⟩, hp⟩
  rw [hset, List.toFinset_sort _ (hsub.imp ne_of_lt)]
  exact hsub.imp le_of_lt

/-- Two selections of docs have the same entries exactly if they agree on every doc. -/
theorem map_filter_eq_iff {l : List DocKeyEntry}
    (hl : l.Pairwise fun a b => docKeyLess a b = true) (hnul : ∀ e ∈ l, NulFree e)
    (p q : DocKeyEntry → Bool) :
    (l.filter p).map indexMember = (l.filter q).map indexMember ↔ ∀ e ∈ l, p e = q e := by
  have hinj := List.inj_on_of_nodup_map ((pairwise_indexMember hl hnul).imp ne_of_lt)
  have hmem (r : DocKeyEntry → Bool) {e : DocKeyEntry} (he : e ∈ l) :
      indexMember e ∈ (l.filter r).map indexMember ↔ r e = true := by
    rw [List.mem_map]
    constructor
    · rintro ⟨a, ha, hae⟩
      obtain ⟨hal, hra⟩ := List.mem_filter.mp ha
      rwa [hinj hal he hae] at hra
    · exact fun hr => ⟨e, List.mem_filter.mpr ⟨he, hr⟩, rfl⟩
  constructor
  · intro h e he
    rw [Bool.eq_iff_iff, ← hmem p he, ← hmem q he, h]
  · intro h
    rw [List.filter_congr h]

/-! ## What a listing asks for -/

/-- No bound of the query falls between the key of the doc and its entry, where the other bound
lets the doc pass. -/
def BoundsClear (rq : DocQuery) (e : DocKeyEntry) : Prop :=
  if rq.keyExact ≠ "" then rq.keyExact ≠ e.key ++ Eqredis.docIndexSep ++ e.secondary
  else ¬(Splits rq.keyStart e ∧ (rq.keyEnd = "" ∨ indexMember e < rq.keyEnd)) ∧
    ¬(Splits rq.keyEnd e ∧ rq.keyStart ≤ e.key)

theorem inBounds_exact_iff {rq : DocQuery} {e : DocKeyEntry} (hexact : rq.keyExact ≠ "") :
    Eqredis.inBounds (Eqredis.docsBounds rq) (indexMember e) = true ↔
      rq.keyExact ++ Eqredis.docIndexSep ≤ indexMember e ∧
        indexMember e < rq.keyExact ++ "\x01" := by
  simp [Eqredis.docsBounds, Eqredis.inBounds, hexact]

theorem inBounds_range_iff {rq : DocQuery} (e : DocKeyEntry) (hexact : rq.keyExact = "") :
    Eqredis.inBounds (Eqredis.docsBounds rq) (indexMember e) = true ↔
      rq.keyStart ≤ indexMember e ∧ (rq.keyEnd = "" ∨ indexMember e < rq.keyEnd) := by
  have hempty := DocNamespace.empty_le (indexMember e)
  by_cases hs : rq.keyStart = "" <;> by_cases hend : rq.keyEnd = "" <;>
    simp [Eqredis.docsBounds, Eqredis.inBounds, hexact, hs, hend, hempty]

theorem not_splits_empty (e : DocKeyEntry) : ¬Splits "" e := by
  rintro ⟨z, hz, -⟩
  have := congrArg String.toList hz
  simp [Eqredis.docIndexSep] at this

/-- The index and the key tree agree on whether a doc is asked for exactly if the bounds are
clear of it. -/
theorem inBounds_iff_inRange_iff {rq : DocQuery} {e : DocKeyEntry} (he : NulFree e) :
    Eqredis.inBounds (Eqredis.docsBounds rq) (indexMember e) = inRange rq e.key ↔
      BoundsClear rq e := by
  rw [Bool.eq_iff_iff]
  by_cases hexact : rq.keyExact = ""
  · rw [inBounds_range_iff e hexact, ← not_lt, indexMember_lt_bound_iff, indexMember_lt_bound_iff]
    simp only [inRange, BoundsClear, hexact, ne_eq, not_true_eq_false, if_false,
      Bool.and_eq_true, Bool.or_eq_true, decide_eq_true_eq, beq_iff_eq, indexMember_lt_bound_iff]
    have hs : Splits rq.keyStart e → ¬rq.keyStart ≤ e.key := fun h => not_le.mpr (lt_of_splits h)
    have ht : Splits rq.keyEnd e → e.key < rq.keyEnd := lt_of_splits
    have h0 : rq.keyEnd = "" → ¬Splits rq.keyEnd e := fun h => h ▸ not_splits_empty e
    rw [not_and_or, not_lt, not_not]
    tauto
  · rw [inBounds_exact_iff hexact, BoundsClear, if_pos hexact, ← between_set_iff_key_iff he]
    simp only [inRange, hexact, ne_eq, not_false_eq_true, if_true, beq_iff_eq]

theorem boundsClear_of_nulFree {rq : DocQuery} (hexact : '\x00' ∉ rq.keyExact.toList)
    (hstart : '\x00' ∉ rq.keyStart.toList) (hend : '\x00' ∉ rq.keyEnd.toList)
    (e : DocKeyEntry) : BoundsClear rq e := by
  have hsplit (b : String) (hb : '\x00' ∉ b.toList) : ¬Splits b e := by
    rintro ⟨z, rfl, -⟩
    exact hb (by simp [Eqredis.docIndexSep])
  unfold BoundsClear
  split_ifs
  · intro h
    exact hexact (by rw [h]; simp [Eqredis.docIndexSep])
  · exact ⟨fun h => hsplit _ hstart h.1, fun h => hsplit _ hend h.1⟩

/-! ## Both backends -/

/-- The namespace is stored in memory, and Redis holds the same docs and locks. -/
structure SameDocs (db : Eqredis.Redis) (m : EQMem) (n : DocNamespace) : Prop where
  stored : m.namespaces.lookup n.name = some n
  valid : n.Valid
  index : (db.zsets (Eqredis.docNSIndexKey n.name)).keys =
    (n.byKey.toList.map indexMember).toFinset
  docs : ∀ e ∈ n.byKey.toList, ∃ f, Eqredis.docHash db (Eqredis.docKey n.name e.id) = some f ∧
    ∀ l, overlay f.toDoc l = overlay e.doc l
  locks : ∀ e ∈ n.byKey.toList, ∀ d,
    overlay d (Eqredis.parseLock (Eqredis.lockHash db ⟨n.name, e.key⟩)) = overlay d (n.lock e.key)

variable {db : Eqredis.Redis} {m : EQMem} {n : DocNamespace}

theorem SameDocs.readDocWithLock (h : SameDocs db m n) {rq : DocQuery} (hns : rq.ns = n.name)
    {e : DocKeyEntry} (he : e ∈ n.byKey.toList) :
    Eqredis.readDocWithLock db rq e.id = some (docsResult rq e.doc (n.lock e.doc.key)) := by
  obtain ⟨f, hf, hsame⟩ := h.docs e he
  obtain ⟨d, hd, rfl⟩ := (h.valid.byKey_iff e).mp he
  have hdoc := hsame absent
  have hfns : f.ns = n.name := (congrArg Doc.ns hdoc).trans (h.valid.named _ _ hd).2
  have hfkey : f.keyPrimary = d.key := congrArg Doc.key hdoc
  have hlock := h.locks _ he
  change ∀ d', overlay d' (Eqredis.parseLock (Eqredis.lockHash db ⟨n.name, d.key⟩)) =
    overlay d' (n.lock d.key) at hlock
  change Eqredis.docHash db (Eqredis.docKey n.name d.id) = some f at hf
  change (∀ l, overlay f.toDoc l = overlay d l) at hsame
  simp only [Eqredis.readDocWithLock, hns, entryFor, hf, Option.map_some, hfns, hfkey, hlock, hsame,
    docsResult]

theorem SameDocs.zrangeArgs (h : SameDocs db m n) (hnul : ∀ e ∈ n.byKey.toList, NulFree e)
    (bounds : Option String × Option String) :
    Eqredis.zrangeArgs db (Eqredis.docNSIndexKey n.name) bounds =
      (n.byKey.toList.filter fun e => Eqredis.inBounds bounds (indexMember e)).map indexMember := by
  rw [Eqredis.zrangeArgs, h.index, sort_filter_index n.byKey.sorted hnul]
  simp only [Bool.decide_eq_true]

theorem SameDocs.zrangeByLex (h : SameDocs db m n) (hnul : ∀ e ∈ n.byKey.toList, NulFree e)
    (range : String × String) :
    Eqredis.zrangeByLex db (Eqredis.docNSIndexKey n.name) range =
      (n.byKey.toList.filter fun e =>
        decide (range.1 ≤ indexMember e ∧ indexMember e < range.2)).map indexMember := by
  rw [Eqredis.zrangeByLex, h.index]
  exact sort_filter_index n.byKey.sorted hnul _

/-- Where the bounds are clear of the stored docs, both backends list the same docs in the same
order. -/
theorem SameDocs.docs_eq (h : SameDocs db m n) (hnul : ∀ e ∈ n.byKey.toList, NulFree e)
    {rq : DocQuery} (hns : rq.ns = n.name) (hids : rq.ids = [])
    (hclear : ∀ e ∈ n.byKey.toList, BoundsClear rq e) :
    (Eqredis.docs db rq).toOption = (Eqmem.docs m rq).toOption := by
  by_cases hempty : rq.ns = ""
  · simp [Eqredis.docs, Eqmem.docs, Validate.docQuery, hempty, Except.toOption]
  have hfilter : (n.byKey.toList.filter fun e =>
      Eqredis.inBounds (Eqredis.docsBounds rq) (indexMember e)) =
      n.byKey.toList.filter fun e => inRange rq e.key :=
    List.filter_congr fun e he => (inBounds_iff_inRange_iff (hnul e he)).mpr (hclear e he)
  have hkept (l : List DocKeyEntry) (hl : ∀ e ∈ l, e ∈ n.byKey.toList) :
      ((l.map indexMember).map fun m => (Eqredis.parseDocIndexMember m).2.2).filterMap
          (Eqredis.readDocWithLock db rq) =
        l.map fun e => docsResult rq e.doc (n.lock e.doc.key) := by
    rw [List.map_map, List.filterMap_map]
    induction l with
    | nil => rfl
    | cons e l ih =>
      have hid : (Eqredis.parseDocIndexMember (indexMember e)).2.2 = e.id := by
        obtain ⟨hp, hs, -⟩ := hnul e (hl e (by simp))
        rw [indexMember, parse_docIndexMember hp hs]
      rw [List.filterMap_cons, List.map_cons, ← ih fun a ha => hl a (List.mem_cons_of_mem _ ha)]
      simp only [Function.comp_apply, hid, h.readDocWithLock hns (hl e (by simp))]
  rw [docs_by_key m hempty (hns ▸ h.stored) hids, Eqredis.docs, Validate.docQuery,
    if_neg hempty, if_neg (not_not.mpr hids)]
  dsimp only
  rw [hns, h.zrangeArgs hnul, hfilter, limited]
  split_ifs
  · rw [← List.map_take, hkept _ fun e he => List.mem_of_mem_filter (List.mem_of_mem_take he)]
    rfl
  · rw [hkept _ fun e he => List.mem_of_mem_filter he]
    rfl

/-- The entries of an index name their docs, and the ranges for a set, for a place in a set and
for a listing hold the entries of the docs asked for, in the order of the key tree, exactly if no
stored doc has a bound between its key and its entry. Bounds without the separator never do. -/
theorem doc_index_exact (h : SameDocs db m n) (hnul : ∀ e ∈ n.byKey.toList, NulFree e) :
    (∀ e ∈ n.byKey.toList,
      Eqredis.parseDocIndexMember (indexMember e) = (e.key, e.secondary, e.id)) ∧
    (∀ key, Eqredis.zrangeByLex db (Eqredis.docNSIndexKey n.name) (Eqredis.setMembersRange key) =
        (n.byKey.toList.filter fun e => e.key == key).map indexMember ↔
      ∀ e ∈ n.byKey.toList, key ≠ e.key ++ Eqredis.docIndexSep ++ e.secondary) ∧
    (∀ key secondary, Eqredis.zrangeByLex db (Eqredis.docNSIndexKey n.name)
        (Eqredis.occupantRange key secondary) =
      (n.byKey.toList.filter fun e => e.key == key && e.secondary == secondary).map indexMember) ∧
    ∀ rq : DocQuery, rq.ns = n.name → rq.ids = [] →
      (Eqredis.zrangeArgs db (Eqredis.docNSIndexKey n.name) (Eqredis.docsBounds rq) =
          (n.byKey.toList.filter fun e => inRange rq e.key).map indexMember ↔
        ∀ e ∈ n.byKey.toList, BoundsClear rq e) ∧
      ((∀ e ∈ n.byKey.toList, BoundsClear rq e) →
        (Eqredis.docs db rq).toOption = (Eqmem.docs m rq).toOption) ∧
      ('\x00' ∉ rq.keyExact.toList → '\x00' ∉ rq.keyStart.toList → '\x00' ∉ rq.keyEnd.toList →
        ∀ e ∈ n.byKey.toList, BoundsClear rq e) := by
  have hsorted := n.byKey.sorted
  refine ⟨?_, ?_, ?_, ?_⟩
  · intro e he
    exact parse_docIndexMember (hnul e he).1 (hnul e he).2.1 e.id
  · intro key
    rw [h.zrangeByLex hnul, map_filter_eq_iff hsorted hnul]
    refine forall₂_congr fun e he => ?_
    rw [Bool.eq_iff_iff, decide_eq_true_iff, beq_iff_eq]
    exact between_set_iff_key_iff (hnul e he) key
  · intro key secondary
    rw [h.zrangeByLex hnul, map_filter_eq_iff hsorted hnul]
    intro e he
    rw [Bool.eq_iff_iff, decide_eq_true_iff, Bool.and_eq_true, beq_iff_eq, beq_iff_eq]
    exact between_occupant_iff (hnul e he) key secondary
  · intro rq hns hids
    refine ⟨?_, h.docs_eq hnul hns hids, ?_⟩
    · rw [h.zrangeArgs hnul, map_filter_eq_iff hsorted hnul]
      exact forall₂_congr fun e he => inBounds_iff_inRange_iff (hnul e he)
    · intro hexact hstart hend e _
      exact boundsClear_of_nulFree hexact hstart hend e

def insertTotal : Modification :=
  { claimant := "w",
    docInserts := [{ ns := "counters", id := "d1", key := "totals", secondaryKey := "errors" }] }

def totalRedis : Eqredis.Redis := (Eqredis.modify {} insertTotal 5000 fun _ => "").1

def totalMem : EQMem := Eqmem.run {} [.modify insertTotal (Eqredis.ofUnixMilli 5000)]

def totalNamespace : DocNamespace :=
  (totalMem.namespaces.lookup "counters").getD (newDocNamespace "counters")

def total : Doc :=
  { ns := "counters", id := "d1", key := "totals", secondaryKey := "errors",
    atTime := Eqredis.ofUnixMilli 5000, created := Eqredis.ofUnixMilli 5000, modified := Eqredis.ofUnixMilli 5000 }

theorem totalNamespace_toList : totalNamespace.byKey.toList = [entryFor total] := by
  decide +kernel

theorem sameDocs_total : SameDocs totalRedis totalMem totalNamespace := by
  have hn : totalMem.namespaces.lookup "counters" = some totalNamespace := by
    have hsome : (totalMem.namespaces.lookup "counters").isSome = true := by decide +kernel
    obtain ⟨n, hn⟩ := Option.isSome_iff_exists.mp hsome
    rw [totalNamespace, hn, Option.getD_some]
  obtain ⟨-, hname, hv⟩ := (run_invariant invariant_empty _).docs.valid "counters" _ hn
  refine ⟨by rw [hname]; exact hn, hv, ?_, ?_, ?_⟩
  · rw [totalNamespace_toList]
    decide +kernel
  · rw [totalNamespace_toList]
    intro e he
    rw [List.mem_singleton.mp he, hname]
    exact ⟨⟨"counters", "d1", "totals", "errors", "", 5000, 5000⟩, by decide +kernel, fun _ => rfl⟩
  · rw [totalNamespace_toList]
    intro e he d
    rw [List.mem_singleton.mp he, hname]
    have hlock : totalNamespace.lock (entryFor total).key =
        { stored := true, atTime := total.atTime, numDocs := 1 } := by decide +kernel
    have hredis : Eqredis.parseLock (Eqredis.lockHash totalRedis ⟨"counters", total.key⟩) =
        { stored := true, atTime := total.atTime } := by decide +kernel
    change overlay d (Eqredis.parseLock (Eqredis.lockHash totalRedis ⟨"counters", total.key⟩)) = _
    rw [hlock, hredis]
    rfl

theorem doc_index_exact_total :
    SameDocs totalRedis totalMem totalNamespace ∧
      (∀ e ∈ totalNamespace.byKey.toList, NulFree e) ∧
      (Eqredis.docs totalRedis { ns := "counters", keyStart := "t", keyEnd := "u" }).toOption =
        (Eqmem.docs totalMem { ns := "counters", keyStart := "t", keyEnd := "u" }).toOption := by
  have hnul : ∀ e ∈ totalNamespace.byKey.toList, NulFree e := by
    rw [totalNamespace_toList]
    intro e he
    rw [List.mem_singleton.mp he]
    exact ⟨by decide, by decide, by decide⟩
  have h := (doc_index_exact sameDocs_total hnul).2.2.2
    { ns := "counters", keyStart := "t", keyEnd := "u" } (by decide +kernel) rfl
  exact ⟨sameDocs_total, hnul, h.2.1 (h.2.2 (by decide) (by decide) (by decide))⟩

/-- From the key up to the key and a NUL is the range of the one key in memory, and empty on
Redis. -/
theorem docs_upto_nul_lost :
    let rq : DocQuery := { ns := "counters", keyStart := "totals", keyEnd := "totals\x00" }
    (Eqredis.docs totalRedis rq).toOption.map (·.map Doc.id) = some [] ∧
      (Eqmem.docs totalMem rq).toOption.map (·.map Doc.id) = some ["d1"] := by
  decide +kernel

end EntroQ.Agreement
