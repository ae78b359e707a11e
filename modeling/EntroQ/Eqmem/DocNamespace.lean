import EntroQ.Docset.Lock
import EntroQ.Foundation.OrderedTree

/-! # The docs and locks of a namespace

A namespace keeps its docs by ID and in an ordered tree by key, and the locks of its doc sets in
another tree. `Valid` says the two doc indexes agree; `Counted` says each set's lock counts its
members, so a set with members has a stored lock. -/

namespace EntroQ.Eqmem
open Foundation Docset

/-- An item of the key tree. The doc of a pivot is never read. -/
structure DocKeyEntry where
  key : String
  secondary : String := ""
  id : String := ""
  doc : Doc := { ns := "", id := "" }
  deriving DecidableEq

def docKeyLess (a b : DocKeyEntry) : Bool :=
  if a.key ≠ b.key then decide (a.key < b.key)
  else if a.secondary ≠ b.secondary then decide (a.secondary < b.secondary)
  else decide (a.id < b.id)

def entryFor (d : Doc) : DocKeyEntry :=
  { key := d.key, secondary := d.secondaryKey, id := d.id, doc := d }

structure LockEntry where
  key : String
  lock : Lock := absent
  deriving DecidableEq

def lockKeyLess (a b : LockEntry) : Bool := decide (a.key < b.key)

def DocKeyEntry.order (e : DocKeyEntry) : String ×ₗ String ×ₗ String :=
  toLex (e.key, toLex (e.secondary, e.id))

theorem docKeyLess_iff (a b : DocKeyEntry) : docKeyLess a b = true ↔ a.order < b.order := by
  unfold docKeyLess DocKeyEntry.order
  rw [Prod.Lex.toLex_lt_toLex, Prod.Lex.toLex_lt_toLex]
  split_ifs with h1 h2
  · simp [h1]
  · simp only [ne_eq, not_not] at h1
    simp [h1, h2]
  · simp only [ne_eq, not_not] at h1 h2
    simp [h1, h2]

instance : StrictWeak docKeyLess := StrictWeak.ofKey DocKeyEntry.order docKeyLess_iff

theorem lockKeyLess_iff (a b : LockEntry) : lockKeyLess a b = true ↔ a.key < b.key := by
  simp [lockKeyLess]

instance : StrictWeak lockKeyLess := StrictWeak.ofKey LockEntry.key lockKeyLess_iff

theorem docKey_same_iff (a b : DocKeyEntry) :
    OrderedTree.same docKeyLess a b = true ↔
      a.key = b.key ∧ a.secondary = b.secondary ∧ a.id = b.id := by
  rw [OrderedTree.same_iff_of_key DocKeyEntry.order docKeyLess_iff]
  simp [DocKeyEntry.order]

theorem lockKey_same_iff (a b : LockEntry) :
    OrderedTree.same lockKeyLess a b = true ↔ a.key = b.key :=
  OrderedTree.same_iff_of_key LockEntry.key lockKeyLess_iff a b

structure DocNamespace where
  name : String
  byID : FMap String Doc := ∅
  byKey : OrderedTree docKeyLess := .empty
  locks : OrderedTree lockKeyLess := .empty

def newDocNamespace (name : String) : DocNamespace := { name }

namespace DocNamespace
variable (s : DocNamespace)

def set (id : String) (doc : Doc) : DocNamespace :=
  let byKey := match s.byID.lookup id with
    | some old => s.byKey.delete (entryFor old)
    | none => s.byKey
  { s with byKey := byKey.replaceOrInsert (entryFor doc), byID := s.byID.insert id doc }

def delete (id : String) : DocNamespace :=
  match s.byID.lookup id with
  | some old => { s with byKey := s.byKey.delete (entryFor old), byID := s.byID.erase id }
  | none => s

/-- A namespace that holds only a claimed empty set is kept. -/
def len : ℕ := s.byID.keys.card + s.locks.len

def lockIn (locks : OrderedTree lockKeyLess) (key : String) : Lock :=
  match locks.get { key } with
  | some e => e.lock
  | none => absent

def lock (key : String) : Lock := lockIn s.locks key

def setLock (key : String) (l : Lock) : DocNamespace :=
  { s with locks := s.locks.replaceOrInsert { key, lock := l } }

def deleteLock (key : String) : DocNamespace := { s with locks := s.locks.delete { key } }

def ascendFrom (pivot : DocKeyEntry) : List Doc :=
  (s.byKey.ascendGreaterOrEqual pivot).map DocKeyEntry.doc

def members (key : String) : List Doc :=
  (s.ascendFrom { key }).takeWhile (fun d => d.key == key)

def occupant (key secondary : String) : Option Doc :=
  (s.members key).find? (fun d => d.secondaryKey == secondary)

/-! ## Both doc indexes hold the same docs -/

structure Valid (s : DocNamespace) : Prop where
  named : ∀ id d, s.byID.lookup id = some d → d.id = id ∧ d.ns = s.name
  byKey_iff : ∀ e, e ∈ s.byKey.toList ↔ ∃ d, s.byID.lookup d.id = some d ∧ e = entryFor d

theorem valid_new (name : String) : (newDocNamespace name).Valid where
  named id d h := by simp [newDocNamespace] at h
  byKey_iff e := by simp [newDocNamespace, OrderedTree.empty]

variable {s}

theorem Valid.mem_delete_iff (hv : s.Valid) {id : String} {old : Doc}
    (ho : s.byID.lookup id = some old) (e : DocKeyEntry) :
    e ∈ (s.byKey.delete (entryFor old)).toList ↔
      ∃ d, s.byID.lookup d.id = some d ∧ d.id ≠ id ∧ e = entryFor d := by
  obtain ⟨hid, -⟩ := hv.named id old ho
  rw [OrderedTree.mem_delete, hv.byKey_iff]
  constructor
  · rintro ⟨⟨d, hd, rfl⟩, hs⟩
    refine ⟨d, hd, ?_, rfl⟩
    rintro rfl
    rw [ho] at hd
    cases hd
    rw [OrderedTree.same_refl] at hs
    cases hs
  · rintro ⟨d, hd, hne, rfl⟩
    refine ⟨⟨d, hd, rfl⟩, ?_⟩
    rw [← Bool.not_eq_true, docKey_same_iff]
    rintro ⟨-, -, he⟩
    exact hne (he.trans hid)

theorem Valid.delete (hv : s.Valid) (id : String) : (s.delete id).Valid := by
  unfold DocNamespace.delete
  cases ho : s.byID.lookup id with
  | none => exact hv
  | some old =>
    constructor
    · intro id' d hd
      simp only [FMap.lookup_erase] at hd
      split_ifs at hd
      exact hv.named id' d hd
    · intro e
      simp only [hv.mem_delete_iff ho, FMap.lookup_erase]
      refine exists_congr fun d => ?_
      split_ifs with he <;> simp [he]

/-- The key tree that `set` inserts into holds the docs of the other IDs. -/
theorem Valid.mem_others_iff (hv : s.Valid) (id : String) (e : DocKeyEntry) :
    e ∈ (match s.byID.lookup id with
      | some old => s.byKey.delete (entryFor old)
      | none => s.byKey).toList ↔
      ∃ d, s.byID.lookup d.id = some d ∧ d.id ≠ id ∧ e = entryFor d := by
  cases ho : s.byID.lookup id with
  | some old => exact hv.mem_delete_iff ho e
  | none =>
    simp only [hv.byKey_iff]
    refine exists_congr fun d => ⟨?_, ?_⟩
    · rintro ⟨hd, rfl⟩
      refine ⟨hd, ?_, rfl⟩
      rintro rfl
      rw [ho] at hd
      cases hd
    · rintro ⟨hd, -, rfl⟩
      exact ⟨hd, rfl⟩

theorem Valid.set (hv : s.Valid) {id : String} {doc : Doc} (hid : doc.id = id)
    (hns : doc.ns = s.name) : (s.set id doc).Valid := by
  constructor
  · intro id' d hd
    simp only [DocNamespace.set, FMap.lookup_insert] at hd
    split_ifs at hd with he
    · cases hd
      exact ⟨hid.trans he.symm, hns⟩
    · exact hv.named id' d hd
  · intro e
    simp only [DocNamespace.set, OrderedTree.mem_replaceOrInsert, hv.mem_others_iff,
      FMap.lookup_insert]
    constructor
    · rintro (rfl | ⟨⟨d, hd, hne, rfl⟩, -⟩)
      · exact ⟨doc, by rw [if_pos hid], rfl⟩
      · exact ⟨d, by rw [if_neg hne]; exact hd, rfl⟩
    · rintro ⟨d, hd, rfl⟩
      split_ifs at hd with he
      · cases hd
        exact .inl rfl
      · refine .inr ⟨⟨d, hd, he, rfl⟩, ?_⟩
        rw [← Bool.not_eq_true, docKey_same_iff]
        rintro ⟨-, -, h⟩
        exact he (h.trans hid)

theorem Valid.setLock (hv : s.Valid) (key : String) (l : Lock) : (s.setLock key l).Valid :=
  ⟨hv.named, hv.byKey_iff⟩

theorem Valid.deleteLock (hv : s.Valid) (key : String) : (s.deleteLock key).Valid :=
  ⟨hv.named, hv.byKey_iff⟩

/-! ## The members of a set -/

theorem empty_le (x : String) : "" ≤ x := by
  rw [← not_lt, String.lt_iff_toList_lt]
  exact List.not_lt_nil _

theorem key_le_of_less {a b : DocKeyEntry} (h : docKeyLess a b = true) : a.key ≤ b.key := by
  rw [docKeyLess_iff, DocKeyEntry.order, DocKeyEntry.order, Prod.Lex.toLex_lt_toLex] at h
  rcases h with h | ⟨h, -⟩
  · exact le_of_lt h
  · exact le_of_eq h

theorem key_le_of_not_less {a b : DocKeyEntry} (h : docKeyLess a b = false) : b.key ≤ a.key := by
  rw [← Bool.not_eq_true, docKeyLess_iff, not_lt, DocKeyEntry.order, DocKeyEntry.order,
    Prod.Lex.toLex_le_toLex] at h
  rcases h with h | ⟨h, -⟩
  · exact le_of_lt h
  · exact le_of_eq h

theorem Valid.doc_key (hv : s.Valid) {e : DocKeyEntry} (he : e ∈ s.byKey.toList) :
    e.doc.key = e.key := by
  obtain ⟨d, -, rfl⟩ := (hv.byKey_iff e).mp he
  rfl

/-- The walk from the set's first place visits the entries of the set. -/
theorem Valid.members_eq (hv : s.Valid) (key : String) :
    s.members key = (s.byKey.toList.filter (fun e => e.key == key)).map DocKeyEntry.doc := by
  have hp : (s.byKey.ascendGreaterOrEqual { key }).Pairwise
      (fun a b => (b.doc.key == key) = true → (a.doc.key == key) = true) := by
    have hs := s.byKey.sorted.sublist
      (List.filter_sublist : (s.byKey.ascendGreaterOrEqual { key }).Sublist _)
    refine hs.imp_of_mem fun {a b} ha hb hab hk => ?_
    obtain ⟨ha, hge⟩ := List.mem_filter.mp ha
    obtain ⟨hb, -⟩ := List.mem_filter.mp hb
    rw [hv.doc_key hb, beq_iff_eq] at hk
    rw [hv.doc_key ha, beq_iff_eq]
    have h1 : a.key ≤ key := hk ▸ key_le_of_less hab
    have h2 : key ≤ a.key := key_le_of_not_less (b := { key }) (by simpa using hge)
    exact le_antisymm h1 h2
  unfold members ascendFrom
  rw [List.takeWhile_map, Function.comp_def, OrderedTree.takeWhile_eq_filter _ _ hp,
    OrderedTree.ascendGreaterOrEqual, List.filter_filter]
  congr 1
  apply List.filter_congr
  intro e he
  rw [hv.doc_key he]
  by_cases hk : e.key = key
  · have hge : docKeyLess e { key } = false := by
      rw [← Bool.not_eq_true, docKeyLess_iff, not_lt, DocKeyEntry.order, DocKeyEntry.order,
        Prod.Lex.toLex_le_toLex]
      refine .inr ⟨hk.symm, ?_⟩
      rw [Prod.Lex.toLex_le_toLex]
      rcases lt_or_eq_of_le (empty_le e.secondary) with h | h
      · exact .inl h
      · exact .inr ⟨h, empty_le e.id⟩
    simp [hk, hge]
  · simp [hk]

theorem Valid.members_nodup (hv : s.Valid) (key : String) : (s.members key).Nodup := by
  rw [hv.members_eq]
  refine List.Nodup.map_on ?_ (s.byKey.nodup.filter _)
  intro e he e' he' hd
  obtain ⟨d, -, rfl⟩ := (hv.byKey_iff e).mp (List.mem_of_mem_filter he)
  obtain ⟨d', -, rfl⟩ := (hv.byKey_iff e').mp (List.mem_of_mem_filter he')
  change d = d' at hd
  rw [hd]

theorem Valid.mem_members (hv : s.Valid) (key : String) (d : Doc) :
    d ∈ s.members key ↔ s.byID.lookup d.id = some d ∧ d.key = key := by
  rw [hv.members_eq, List.mem_map]
  constructor
  · rintro ⟨e, he, rfl⟩
    obtain ⟨he, hk⟩ := List.mem_filter.mp he
    obtain ⟨d, hd, rfl⟩ := (hv.byKey_iff e).mp he
    exact ⟨hd, by simpa [entryFor] using hk⟩
  · rintro ⟨hd, hk⟩
    refine ⟨entryFor d, List.mem_filter.mpr ⟨(hv.byKey_iff _).mpr ⟨d, hd, rfl⟩, ?_⟩, rfl⟩
    simpa [entryFor] using hk

/-- Two namespaces that have the same docs in a set list them in the same order. -/
theorem Valid.members_congr {s' : DocNamespace} (hv : s.Valid) (hv' : s'.Valid) {key : String}
    (h : ∀ d, d.key = key → (s'.byID.lookup d.id = some d ↔ s.byID.lookup d.id = some d)) :
    s'.members key = s.members key := by
  let part (n : DocNamespace) : OrderedTree docKeyLess :=
    ⟨n.byKey.toList.filter (fun e => e.key == key), n.byKey.filter_sorted _⟩
  have hpart : part s' = part s := by
    apply OrderedTree.ext_mem
    intro e
    simp only [part, List.mem_filter, hv.byKey_iff, hv'.byKey_iff, beq_iff_eq]
    constructor
    · rintro ⟨⟨d, hd, rfl⟩, hk⟩
      exact ⟨⟨d, (h d hk).mp hd, rfl⟩, hk⟩
    · rintro ⟨⟨d, hd, rfl⟩, hk⟩
      exact ⟨⟨d, (h d hk).mpr hd, rfl⟩, hk⟩
  rw [hv.members_eq, hv'.members_eq]
  exact congrArg (fun t : OrderedTree _ => t.toList.map DocKeyEntry.doc) hpart

theorem Valid.occupant_isSome_iff (hv : s.Valid) (key secondary : String) :
    (s.occupant key secondary).isSome = true ↔
      ∃ d, s.byID.lookup d.id = some d ∧ d.key = key ∧ d.secondaryKey = secondary := by
  unfold occupant
  rw [List.find?_isSome]
  constructor
  · rintro ⟨d, hd, hs⟩
    obtain ⟨h1, h2⟩ := (hv.mem_members key d).mp hd
    exact ⟨d, h1, h2, by simpa using hs⟩
  · rintro ⟨d, h1, h2, h3⟩
    exact ⟨d, (hv.mem_members key d).mpr ⟨h1, h2⟩, by simpa using h3⟩

def inSet (s : DocNamespace) (id key : String) : ℤ :=
  if (s.byID.lookup id).any (fun d => d.key == key) then 1 else 0

def count (s : DocNamespace) (key : String) : ℤ := (s.members key).length

theorem Valid.count_eq (hv : s.Valid) (key : String) :
    s.count key = s.byKey.toList.countP (fun e => e.key == key) := by
  rw [count, hv.members_eq, List.length_map, List.countP_eq_length_filter]

theorem Valid.perm_others (hv : s.Valid) {id : String} {old : Doc}
    (ho : s.byID.lookup id = some old) :
    s.byKey.toList.Perm (entryFor old :: (s.byKey.delete (entryFor old)).toList) := by
  apply OrderedTree.perm_of_mem_iff (s.byKey.delete (entryFor old)).nodup
  · rw [OrderedTree.mem_delete]
    simp [OrderedTree.same_refl]
  · intro z
    rw [hv.byKey_iff, hv.mem_delete_iff ho]
    constructor
    · rintro ⟨d, hd, rfl⟩
      by_cases he : d.id = id
      · rw [he, ho] at hd
        cases hd
        exact .inl rfl
      · exact .inr ⟨d, hd, he, rfl⟩
    · rintro (rfl | ⟨d, hd, -, rfl⟩)
      · exact ⟨old, by rw [(hv.named id old ho).1]; exact ho, rfl⟩
      · exact ⟨d, hd, rfl⟩

theorem Valid.count_delete (hv : s.Valid) (id key : String) :
    (s.delete id).count key = s.count key - s.inSet id key := by
  have hv' := hv.delete id
  rw [hv'.count_eq, hv.count_eq]
  unfold inSet
  cases ho : s.byID.lookup id with
  | none => simp [DocNamespace.delete, ho]
  | some old =>
    rw [(hv.perm_others ho).countP_eq]
    have : (s.delete id).byKey = s.byKey.delete (entryFor old) := by
      simp [DocNamespace.delete, ho]
    rw [this, List.countP_cons]
    by_cases hk : old.key = key <;> simp [entryFor, hk]

theorem Valid.count_set (hv : s.Valid) {id : String} {doc : Doc} (hid : doc.id = id)
    (hns : doc.ns = s.name) (key : String) :
    (s.set id doc).count key =
      s.count key - s.inSet id key + if doc.key = key then 1 else 0 := by
  have hv' := hv.set hid hns
  have hothers : ∀ t : OrderedTree docKeyLess,
      (∀ e, e ∈ t.toList ↔ ∃ d, s.byID.lookup d.id = some d ∧ d.id ≠ id ∧ e = entryFor d) →
      (t.replaceOrInsert (entryFor doc)).toList.Perm (entryFor doc :: t.toList) := by
    intro t ht
    have hfresh : ∀ e ∈ t.toList, e.id ≠ id := by
      intro e he
      obtain ⟨d, -, hne, rfl⟩ := (ht e).mp he
      exact hne
    apply OrderedTree.perm_of_mem_iff t.nodup
    · intro hm
      exact hfresh _ hm hid
    · intro z
      rw [OrderedTree.mem_replaceOrInsert]
      refine or_congr Iff.rfl ⟨fun h => h.1, fun h => ⟨h, ?_⟩⟩
      rw [← Bool.not_eq_true, docKey_same_iff]
      rintro ⟨-, -, he⟩
      exact hfresh z h (he.trans hid)
  have hp := hothers _ (hv.mem_others_iff id)
  rw [hv'.count_eq, hv.count_eq]
  change ((((match s.byID.lookup id with
    | some old => s.byKey.delete (entryFor old)
    | none => s.byKey).replaceOrInsert (entryFor doc)).toList.countP _ : ℕ) : ℤ) = _
  rw [hp.countP_eq, List.countP_cons]
  unfold inSet
  cases ho : s.byID.lookup id with
  | none => by_cases hk : doc.key = key <;> simp [entryFor, hk]
  | some old =>
    rw [(hv.perm_others ho).countP_eq, List.countP_cons]
    by_cases hk : doc.key = key <;> by_cases hk' : old.key = key <;> simp [entryFor, hk, hk']

/-! ## The locks of the sets -/

def lock? (s : DocNamespace) (key : String) : Option Lock :=
  (s.locks.get { key }).map LockEntry.lock

theorem lock_eq (key : String) : s.lock key = (s.lock? key).getD absent := by
  unfold lock lockIn lock?
  cases s.locks.get { key } <;> rfl

@[simp] theorem lock?_setLock (key k : String) (l : Lock) :
    (s.setLock key l).lock? k = if k = key then some l else s.lock? k := by
  unfold lock? setLock
  rw [OrderedTree.get_replaceOrInsert]
  by_cases h : k = key
  · rw [if_pos ((lockKey_same_iff _ _).mpr h.symm), if_pos h]
    rfl
  · rw [if_neg (fun hs => h ((lockKey_same_iff _ _).mp hs).symm), if_neg h]

@[simp] theorem lock?_deleteLock (key k : String) :
    (s.deleteLock key).lock? k = if k = key then none else s.lock? k := by
  unfold lock? deleteLock
  rw [OrderedTree.get_delete]
  by_cases h : k = key
  · rw [if_pos ((lockKey_same_iff _ _).mpr h.symm), if_pos h]
    rfl
  · rw [if_neg (fun hs => h ((lockKey_same_iff _ _).mp hs).symm), if_neg h]

theorem mem_locks_iff (e : LockEntry) :
    e ∈ s.locks.toList ↔ s.lock? e.key = some e.lock := by
  unfold lock?
  rw [Option.map_eq_some_iff]
  constructor
  · intro he
    exact ⟨e, (s.locks.get_eq_some_iff _ _).mpr ⟨he, (lockKey_same_iff _ _).mpr rfl⟩, rfl⟩
  · rintro ⟨e', he, hl⟩
    obtain ⟨hm, hk⟩ := (s.locks.get_eq_some_iff _ _).mp he
    have hk' : e'.key = e.key := (lockKey_same_iff _ _).mp hk
    have : e' = e := by
      cases e; cases e'
      simp_all
    exact this ▸ hm

@[simp] theorem byID_set (id : String) (doc : Doc) : (s.set id doc).byID = s.byID.insert id doc := rfl

theorem byID_delete (id : String) : (s.delete id).byID = s.byID.erase id := by
  unfold delete
  cases ho : s.byID.lookup id with
  | some old => rfl
  | none => exact (FMap.erase_of_notMem s.byID id ho).symm

@[simp] theorem locks_set (id : String) (doc : Doc) : (s.set id doc).locks = s.locks := rfl

@[simp] theorem locks_delete (id : String) : (s.delete id).locks = s.locks := by
  unfold delete
  cases s.byID.lookup id <;> rfl

@[simp] theorem name_delete (id : String) : (s.delete id).name = s.name := by
  unfold delete
  cases s.byID.lookup id <;> rfl

end DocNamespace
end EntroQ.Eqmem
