import EntroQ.Client.Types
import EntroQ.Foundation.FiniteMap
import EntroQ.Foundation.HeapInterface

/-! # The claim heap of a queue

The heap and its ID map share mutable items, so items live in `cells` and both hold addresses.
`Holds` says what a heap is for: one item for each task of a queue, with the task's arrival, at
the position it records, in heap order. -/

namespace EntroQ.Eqmem
open Foundation

structure ClaimItem where
  id : String
  q : String
  atTime : Time
  idx : ℤ := -1
  deriving DecidableEq, Inhabited

def newItem (q id : String) (at_ : Time) : ClaimItem := { id, q, atTime := at_ }

structure ClaimHeap where
  cells : List ClaimItem := []
  items : List ℕ := []
  byID : FMap String ℕ := ∅

namespace ClaimHeap
variable (h : ClaimHeap)

def cell (p : ℕ) : ClaimItem := h.cells.getD p default

/-- The address at position `i`. -/
def item (i : ℕ) : ℕ := h.items.getD i 0

def len : ℕ := h.items.length

def less (i j : ℕ) : Bool := decide ((h.cell (h.item i)).atTime < (h.cell (h.item j)).atTime)

def setIdx (p : ℕ) (i : ℤ) : ClaimHeap :=
  { h with cells := h.cells.modify p (fun c => { c with idx := i }) }

def swap (i j : ℕ) : ClaimHeap :=
  let a := h.item i
  let b := h.item j
  ({ h with items := (h.items.set i b).set j a }.setIdx b i).setIdx a j

def heapInterface : Heap.Interface ClaimHeap := ⟨len, less, swap⟩

/-- `Push` of `heap.Interface`. -/
def push (p : ℕ) : ClaimHeap :=
  { h.setIdx p h.len with items := h.items ++ [p] }

/-- `Pop` of `heap.Interface`, which drops the last item. -/
def pop : ClaimHeap :=
  { h.setIdx (h.item (h.len - 1)) (-1) with items := h.items.take (h.len - 1) }

/-- `PushItem` of the item at an address. -/
def pushAt (p : ℕ) : ClaimHeap :=
  { Heap.up heapInterface (h.push p) ((h.push p).len - 1) with
    byID := h.byID.insert (h.cell p).id p }

/-- A new item, not yet in the heap. -/
def grown (c : ClaimItem) : ClaimHeap := { h with cells := h.cells ++ [c] }

/-- `PushItem` of a new item. -/
def pushItem (c : ClaimItem) : ClaimHeap := (h.grown c).pushAt h.cells.length

def removeItem (p : ℕ) : ClaimHeap :=
  let h' := (Heap.sinkToEnd heapInterface h (h.cell p).idx.toNat).pop
  { h' with byID := h'.byID.erase (h.cell p).id }

def removeID (id : String) : ClaimHeap :=
  match h.byID.lookup id with
  | some p => h.removeItem p
  | none => h

def retimed (p : ℕ) (at_ : Time) : ClaimHeap :=
  { h with cells := h.cells.modify p (fun c => { c with atTime := at_ }) }

/-- An item out of the heap is fixed as if it were at the root, where the loops leave an ordered
heap as it is. -/
def fixItem (p : ℕ) : ClaimHeap := Heap.fix heapInterface h (h.cell p).idx.toNat

def updateItem (p : ℕ) (at_ : Time) : ClaimHeap := (h.retimed p at_).fixItem p

/-- The heap after the update, or `none` if it has no item with the ID. -/
def updateID (id : String) (at_ : Time) : Option ClaimHeap :=
  (h.byID.lookup id).map (fun p => h.updateItem p at_)

/-- A draw of `rand.Float64`, as a multiple of `2 ^ (-53)`, is below the double nearest 0.33. -/
def belowThird (draw : ℕ) : Bool := decide (2 * draw < 5944751508129055)

/-- The walk of `randAvail` from position `index`: the item it returns, and how many draws it
has used. -/
def randAvail (now : Time) (draws : ℕ → ℕ) : ℕ → ℕ → ℕ → Option ℕ × ℕ
  | 0, _, used => (none, used)
  | fuel + 1, index, used =>
    if h.len ≤ index then (none, used)
    else
      let here := if now < (h.cell (h.item index)).atTime then none else some (h.item index)
      let below (n : ℕ) : Bool := here.isNone || belowThird (draws n)
      let left :=
        if below used then randAvail now draws fuel (index * 2 + 1) (used + 1)
        else (none, used + 1)
      let right :=
        if below left.2 then randAvail now draws fuel (index * 2 + 2) (left.2 + 1)
        else (none, left.2 + 1)
      (right.1.or (left.1.or here), right.2)

def randomAvailable (now : Time) (draws : ℕ → ℕ) : Option ℕ :=
  (h.randAvail now draws (h.len + 1) 0 0).1

/-! ## The items through the heap loops -/

/-- What the heap loops leave of an item. -/
def core (c : ClaimItem) : String × String × Time := (c.id, c.q, c.atTime)

/-- Each item records its position. -/
def Positioned : Prop := ∀ i, i < h.len → h.item i < h.cells.length ∧ (h.cell (h.item i)).idx = i

/-- The same items in some order, each recording its position, and no other item touched. -/
structure Settles (h h' : ClaimHeap) : Prop where
  positioned : h'.Positioned
  perm : h'.items.Perm h.items
  byID : h'.byID = h.byID
  cells : h'.cells.map core = h.cells.map core
  outside : ∀ p, p ∉ h.items → h'.cell p = h.cell p

variable {h}

theorem getD_modify (l : List ClaimItem) (f : ClaimItem → ClaimItem) (p r : ℕ)
    (hp : p < l.length) :
    (l.modify p f).getD r default = if r = p then f (l.getD p default) else l.getD r default := by
  rw [List.getD_eq_getElem?_getD, List.getElem?_modify]
  split_ifs with h1 h2 h2
  · subst h1
    simp [hp, List.getD_eq_getElem?_getD]
  · exact absurd h1.symm h2
  · exact absurd h2.symm h1
  · simp [List.getD_eq_getElem?_getD]

theorem cell_setIdx (p r : ℕ) (i : ℤ) (hp : p < h.cells.length) :
    (h.setIdx p i).cell r = if r = p then { h.cell p with idx := i } else h.cell r :=
  getD_modify h.cells _ p r hp

theorem map_core_modify_idx (l : List ClaimItem) (p : ℕ) (i : ℤ) :
    (l.modify p (fun c => { c with idx := i })).map core = l.map core := by
  apply List.ext_getElem?
  intro k
  rw [List.getElem?_map, List.getElem?_map, List.getElem?_modify]
  split_ifs <;> cases l[k]? <;> simp [core]

theorem core_cell_eq {h' : ClaimHeap} (hc : h'.cells.map core = h.cells.map core) (p : ℕ) :
    core (h'.cell p) = core (h.cell p) := by
  have := congrArg (fun l => (l[p]?).getD (core default)) hc
  simp only [List.getElem?_map] at this
  unfold cell
  rw [List.getD_eq_getElem?_getD, List.getD_eq_getElem?_getD]
  cases h1 : h'.cells[p]? <;> cases h2 : h.cells[p]? <;> simp_all

theorem id_cell_eq {h' : ClaimHeap} (hc : h'.cells.map core = h.cells.map core) (p : ℕ) :
    (h'.cell p).id = (h.cell p).id :=
  congrArg Prod.fst (core_cell_eq hc p)

theorem atTime_cell_eq {h' : ClaimHeap} (hc : h'.cells.map core = h.cells.map core) (p : ℕ) :
    (h'.cell p).atTime = (h.cell p).atTime :=
  congrArg (fun c => c.2.2) (core_cell_eq hc p)

theorem item_of_lt {i : ℕ} (hi : i < h.len) : h.item i ∈ h.items := by
  unfold item
  rw [List.getD_eq_getElem _ _ hi]
  exact List.getElem_mem hi

theorem Positioned.inj (hp : h.Positioned) {i j : ℕ} (hi : i < h.len) (hj : j < h.len)
    (he : h.item i = h.item j) : i = j := by
  have h1 := (hp i hi).2
  have h2 := (hp j hj).2
  rw [he, h2] at h1
  exact_mod_cast h1.symm

theorem swap_items (i j : ℕ) :
    (h.swap i j).items = (h.items.set i (h.item j)).set j (h.item i) := rfl

theorem item_swap {i j : ℕ} (hi : i < h.len) (hj : j < h.len) (k : ℕ) :
    (h.swap i j).item k = h.item (Equiv.swap i j k) := by
  unfold item
  rw [swap_items, List.getD_eq_getElem?_getD, List.getElem?_set, List.getElem?_set]
  have hlen : j < (h.items.set i (h.item j)).length := by rw [List.length_set]; exact hj
  by_cases hkj : k = j
  · subst hkj
    rw [Equiv.swap_apply_right, if_pos rfl, if_pos hlen]
    rfl
  · rw [if_neg (Ne.symm hkj)]
    by_cases hki : k = i
    · subst hki
      rw [Equiv.swap_apply_left, if_pos rfl, if_pos (show k < h.items.length from hi)]
      rfl
    · rw [if_neg (Ne.symm hki), Equiv.swap_apply_of_ne_of_ne hki hkj,
        List.getD_eq_getElem?_getD]

theorem len_swap (i j : ℕ) : (h.swap i j).len = h.len := by
  unfold len
  rw [swap_items, List.length_set, List.length_set]

theorem map_core_swap (i j : ℕ) : (h.swap i j).cells.map core = h.cells.map core := by
  unfold swap setIdx
  rw [map_core_modify_idx, map_core_modify_idx]

def arrival (h : ClaimHeap) (i : ℕ) : Time := (h.cell (h.item i)).atTime

theorem heapInterface_lawful : Heap.Lawful heapInterface arrival where
  less_iff s i j _ _ := by simp [heapInterface, less, arrival]
  len_swap s i j _ _ := len_swap i j
  key_swap s i j hi hj k := by
    change ((s.swap i j).cell ((s.swap i j).item k)).atTime = _
    rw [item_swap hi hj]
    exact atTime_cell_eq (map_core_swap i j) _

theorem swap_positioned {i j : ℕ} (hp : h.Positioned) (hi : i < h.len) (hj : j < h.len) :
    (h.swap i j).Positioned := by
  intro k hk
  rw [len_swap] at hk
  have hcells : (h.swap i j).cells.length = h.cells.length := by simp [swap, setIdx]
  have ha := (hp i hi).1
  have hb := (hp j hj).1
  rw [item_swap hi hj, hcells]
  have hcell : ∀ p, (h.swap i j).cell p =
      if p = h.item i then { h.cell (h.item i) with idx := j }
      else if p = h.item j then { h.cell (h.item j) with idx := i } else h.cell p := by
    intro p
    change ((h.cells.modify (h.item j) _).modify (h.item i) _).getD p default = _
    rw [getD_modify _ _ _ _ (by simpa using ha), getD_modify _ _ _ _ hb, getD_modify _ _ _ _ hb]
    split_ifs with h1 h2 h3
    · rw [← h2]; rfl
    · rfl
    · rfl
    · rfl
  by_cases hkj : k = j
  · subst hkj
    rw [Equiv.swap_apply_right, hcell, if_pos rfl]
    exact ⟨ha, rfl⟩
  · by_cases hki : k = i
    · subst hki
      rw [Equiv.swap_apply_left, hcell]
      refine ⟨hb, ?_⟩
      rw [if_neg (fun he => hkj (hp.inj hj hk he).symm), if_pos rfl]
    · rw [Equiv.swap_apply_of_ne_of_ne hki hkj, hcell, if_neg, if_neg]
      · exact hp k hk
      · exact fun he => hkj (hp.inj hk hj he)
      · exact fun he => hki (hp.inj hk hi he)

theorem cell_swap_outside {i j p : ℕ} (hp : h.Positioned) (hi : i < h.len) (hj : j < h.len)
    (hout : p ∉ h.items) : (h.swap i j).cell p = h.cell p := by
  have hpi : p ≠ h.item i := fun he => hout (he ▸ item_of_lt hi)
  have hpj : p ≠ h.item j := fun he => hout (he ▸ item_of_lt hj)
  change ((h.cells.modify (h.item j) _).modify (h.item i) _).getD p default = _
  rw [getD_modify _ _ _ _ (by simpa using (hp i hi).1), if_neg hpi,
    getD_modify _ _ _ _ (hp j hj).1, if_neg hpj]
  rfl

theorem Settles.refl (hp : h.Positioned) : Settles h h :=
  ⟨hp, List.Perm.refl _, rfl, rfl, fun _ _ => rfl⟩

theorem Settles.len {h' : ClaimHeap} (hs : Settles h h') : h'.len = h.len := hs.perm.length_eq

theorem Settles.swap {h' : ClaimHeap} (hs : Settles h h') {i j : ℕ} (hi : i < h.len)
    (hj : j < h.len) : Settles h (h'.swap i j) := by
  rw [← hs.len] at hi hj
  refine ⟨swap_positioned hs.positioned hi hj, ?_, hs.byID, (map_core_swap i j).trans hs.cells, ?_⟩
  · refine List.Perm.trans ?_ hs.perm
    rw [swap_items]
    unfold item
    rw [List.getD_eq_getElem _ _ hi, List.getD_eq_getElem _ _ hj]
    exact List.set_set_perm hi hj
  · intro p hp
    rw [cell_swap_outside hs.positioned hi hj (by rwa [hs.perm.mem_iff]), hs.outside p hp]

theorem fix_settles (hp : h.Positioned) {i : ℕ} (hi : i < h.len) :
    Settles h (Heap.fix heapInterface h i) :=
  Heap.fix_preserves (Settles h) h.len (fun _ _ _ ha hb hs => hs.swap ha hb) h i rfl hi
    (Settles.refl hp)

theorem up_settles (hp : h.Positioned) {i : ℕ} (hi : i < h.len) :
    Settles h (Heap.up heapInterface h i) :=
  Heap.up_preserves (Settles h) h.len (fun _ _ _ ha hb hs => hs.swap ha hb) h i hi
    (Settles.refl hp)

/-- The item at position `i` ends up last. -/
theorem sinkToEnd_settles (hp : h.Positioned) {i : ℕ} (hi : i < h.len) :
    Settles h (Heap.sinkToEnd heapInterface h i) ∧
      (Heap.sinkToEnd heapInterface h i).item (h.len - 1) = h.item i := by
  apply Heap.sinkToEnd_preserves
    (fun s => Settles h s ∧ s.item (h.len - 1) = h.item i) (h.len - 1) ?_ h i rfl (by omega)
  · intro he
    exact ⟨Settles.refl hp, by rw [← he]⟩
  · intro hne
    refine ⟨(Settles.refl hp).swap hi (by omega), ?_⟩
    change (h.swap i (h.len - 1)).item _ = _
    rw [item_swap hi (by omega), Equiv.swap_apply_right]
  · rintro s a b ha hb ⟨hs, hlast⟩
    have hslen := hs.len
    refine ⟨hs.swap (by omega) (by omega), ?_⟩
    change (s.swap a b).item _ = _
    rw [item_swap (by omega) (by omega), Equiv.swap_apply_of_ne_of_ne (by omega) (by omega)]
    exact hlast

/-! ## What the heap holds -/

/-- The heap and its ID map agree on one positioned item for each ID that has an arrival. -/
structure Linked (h : ClaimHeap) (arrivals : String → Option Time) : Prop where
  positioned : h.Positioned
  byID_iff : ∀ id p, h.byID.lookup id = some p ↔ p ∈ h.items ∧ (h.cell p).id = id
  arrivals_eq : ∀ id, arrivals id = (h.byID.lookup id).map (fun p => (h.cell p).atTime)

/-- The heap holds one item for each ID that has an arrival, in heap order. -/
structure Holds (h : ClaimHeap) (arrivals : String → Option Time) : Prop
    extends Linked h arrivals where
  ordered : Heap.Ordered h.arrival h.len

theorem holds_empty : Holds {} (fun _ => none) where
  positioned i hi := by simp [len] at hi
  byID_iff id p := by simp
  arrivals_eq id := by simp
  ordered k _ hk := by simp [len] at hk

variable {arrivals : String → Option Time}

theorem Settles.linked {h' : ClaimHeap} (hs : Settles h h') (hl : Linked h arrivals) :
    Linked h' arrivals where
  positioned := hs.positioned
  byID_iff id p := by rw [hs.byID, hl.byID_iff, hs.perm.mem_iff, id_cell_eq hs.cells]
  arrivals_eq id := by simp only [hs.byID, atTime_cell_eq hs.cells, hl.arrivals_eq]

theorem Linked.exists_item (hl : Linked h arrivals) {id : String} {p : ℕ}
    (hp : h.byID.lookup id = some p) :
    ∃ i, i < h.len ∧ h.item i = p ∧ (h.cell p).idx = i ∧ p < h.cells.length := by
  obtain ⟨i, hi, he⟩ := List.getElem_of_mem ((hl.byID_iff id p).mp hp).1
  have hitem : h.item i = p := by
    unfold item
    rw [List.getD_eq_getElem _ _ hi, he]
  have hpos := hl.positioned i hi
  rw [hitem] at hpos
  exact ⟨i, hi, hitem, hpos.2, hpos.1⟩

section Retimed
variable {p : ℕ} (hlt : p < h.cells.length) (at_ : Time)
include hlt

theorem cell_retimed (r : ℕ) :
    (h.retimed p at_).cell r = if r = p then { h.cell p with atTime := at_ } else h.cell r :=
  getD_modify h.cells _ p r hlt

theorem idx_retimed (r : ℕ) : ((h.retimed p at_).cell r).idx = (h.cell r).idx := by
  rw [cell_retimed hlt]
  split_ifs with he
  · rw [he]
  · rfl

theorem id_retimed (r : ℕ) : ((h.retimed p at_).cell r).id = (h.cell r).id := by
  rw [cell_retimed hlt]
  split_ifs with he
  · rw [he]
  · rfl

theorem Positioned.retimed (hp : h.Positioned) : (h.retimed p at_).Positioned := by
  intro k hk
  obtain ⟨h1, h2⟩ := hp k hk
  exact ⟨by simpa [ClaimHeap.retimed, item] using h1, (idx_retimed hlt at_ _).trans h2⟩

/-- A changed arrival disturbs only the pairs that its item is in. -/
theorem retimed_offOrder (hp : h.Positioned) (ho : Heap.Ordered h.arrival h.len) :
    Heap.OffOrder (h.retimed p at_).arrival h.len (h.cell p).idx.toNat := by
  apply ho.offOrder
  intro k hk hne
  change ((h.retimed p at_).cell (h.item k)).atTime = (h.cell (h.item k)).atTime
  rw [cell_retimed hlt, if_neg]
  rintro rfl
  apply hne
  rw [(hp k hk).2, Int.toNat_natCast]

end Retimed

theorem Linked.retimed {id : String} {p : ℕ} (hl : Linked h arrivals)
    (hp : h.byID.lookup id = some p) (hlt : p < h.cells.length) (at_ : Time) :
    Linked (h.retimed p at_) (Function.update arrivals id (some at_)) := by
  constructor
  · exact hl.positioned.retimed hlt at_
  · intro id' r
    rw [id_retimed hlt]
    exact hl.byID_iff id' r
  · intro id'
    change _ = (h.byID.lookup id').map _
    by_cases he : id' = id
    · subst he
      simp [hp, cell_retimed hlt]
    · rw [Function.update_of_ne he, hl.arrivals_eq]
      cases hr : h.byID.lookup id' with
      | none => rfl
      | some r =>
        have hne : r ≠ p := by
          rintro rfl
          exact he (((hl.byID_iff id' r).mp hr).2.symm.trans ((hl.byID_iff id r).mp hp).2)
        simp [cell_retimed hlt, hne]

/-- Moving one item restores the order at its new arrival. -/
theorem Holds.updateItem {id : String} {p : ℕ} (hh : Holds h arrivals)
    (hp : h.byID.lookup id = some p) (at_ : Time) :
    Holds (h.updateItem p at_) (Function.update arrivals id (some at_)) := by
  obtain ⟨i, hi, -, hidx, hlt⟩ := hh.exists_item hp
  have hl := hh.toLinked.retimed hp hlt at_
  have hoff := retimed_offOrder hlt at_ hh.positioned hh.ordered
  rw [hidx, Int.toNat_natCast] at hoff
  have hs := fix_settles hl.positioned hi
  rw [ClaimHeap.updateItem, fixItem, idx_retimed hlt, hidx, Int.toNat_natCast]
  refine ⟨hs.linked hl, ?_⟩
  rw [hs.len]
  exact Heap.fix_ordered heapInterface_lawful _ i hi hoff

theorem Holds.updateID {id : String} {at0 : Time} (hh : Holds h arrivals)
    (ha : arrivals id = some at0) (at_ : Time) :
    ∃ h', h.updateID id at_ = some h' ∧ Holds h' (Function.update arrivals id (some at_)) := by
  rw [hh.arrivals_eq, Option.map_eq_some_iff] at ha
  obtain ⟨p, hp, -⟩ := ha
  exact ⟨h.updateItem p at_, by simp [ClaimHeap.updateID, hp], hh.updateItem hp at_⟩

theorem Positioned.mem_lt (hp : h.Positioned) {p : ℕ} (hm : p ∈ h.items) : p < h.cells.length := by
  obtain ⟨i, hi, he⟩ := List.getElem_of_mem hm
  have := (hp i hi).1
  unfold item at this
  rwa [List.getD_eq_getElem _ _ hi, he] at this

theorem cell_grown (c : ClaimItem) {r : ℕ} (hr : r < h.cells.length) :
    (h.grown c).cell r = h.cell r :=
  List.getD_append _ _ _ _ hr

theorem cell_grown_last (c : ClaimItem) : (h.grown c).cell h.cells.length = c := by
  simp [grown, cell]

theorem grown_length (c : ClaimItem) : (h.grown c).cells.length = h.cells.length + 1 :=
  List.length_append

theorem Positioned.grown (hp : h.Positioned) (c : ClaimItem) : (h.grown c).Positioned := by
  intro i hi
  obtain ⟨hlt, hidx⟩ := hp i hi
  refine ⟨?_, (congrArg ClaimItem.idx (cell_grown c hlt)).trans hidx⟩
  rw [grown_length]
  exact Nat.lt_succ_of_lt hlt

theorem grown_ordered (hp : h.Positioned) (ho : Heap.Ordered h.arrival h.len) (c : ClaimItem) :
    Heap.Ordered (h.grown c).arrival (h.grown c).len := by
  have harr (k : ℕ) (hk : k < h.len) : (h.grown c).arrival k = h.arrival k :=
    congrArg ClaimItem.atTime (cell_grown c (hp k hk).1)
  intro k h0 hk
  rw [harr k hk, harr _ (lt_of_le_of_lt (by omega) hk)]
  exact ho k h0 hk

theorem Linked.grown (hl : Linked h arrivals) (c : ClaimItem) : Linked (h.grown c) arrivals where
  positioned := hl.positioned.grown c
  byID_iff id p := by
    refine (hl.byID_iff id p).trans (and_congr_right fun hp => ?_)
    rw [cell_grown c (hl.positioned.mem_lt hp)]
  arrivals_eq id := by
    change _ = (h.byID.lookup id).map _
    rw [hl.arrivals_eq]
    cases hp : h.byID.lookup id with
    | none => rfl
    | some p =>
      have hlt := hl.positioned.mem_lt ((hl.byID_iff id p).mp hp).1
      rw [Option.map_some, Option.map_some, cell_grown c hlt]

section Push
variable {p : ℕ}

theorem push_len : (h.push p).len = h.len + 1 := by simp [push, len]

theorem push_cell (hp : p < h.cells.length) (r : ℕ) :
    (h.push p).cell r = if r = p then { h.cell p with idx := (h.len : ℤ) } else h.cell r :=
  cell_setIdx p r h.len hp

theorem push_item {i : ℕ} (hi : i < h.len) : (h.push p).item i = h.item i :=
  List.getD_append h.items [p] 0 i hi

theorem push_item_last : (h.push p).item h.len = p := by
  change (h.items ++ [p]).getD h.items.length 0 = _
  rw [List.getD_append_right _ _ _ _ le_rfl]
  simp

variable (hp : p < h.cells.length) (hout : p ∉ h.items)
include hp hout

theorem Positioned.push (hpos : h.Positioned) : (h.push p).Positioned := by
  intro i hi
  have hlen : (h.push p).cells.length = h.cells.length := by simp [ClaimHeap.push, setIdx]
  rw [push_len] at hi
  rw [hlen]
  rcases Nat.lt_succ_iff_lt_or_eq.mp hi with hi | rfl
  · have hne : h.item i ≠ p := fun he => hout (he ▸ item_of_lt hi)
    rw [push_item hi, push_cell hp, if_neg hne]
    exact hpos i hi
  · rw [push_item_last, push_cell hp, if_pos rfl]
    exact ⟨hp, rfl⟩

/-- The item is at the end and in the map, before it is moved to its place. -/
theorem pushAt_settles (hpos : h.Positioned) :
    Settles { h.push p with byID := h.byID.insert (h.cell p).id p } (h.pushAt p) := by
  have hs := up_settles (hpos.push hp hout) (i := (h.push p).len - 1) (by rw [push_len]; omega)
  exact ⟨hs.positioned, hs.perm, rfl, hs.cells, hs.outside⟩

theorem pushAt_ordered (hpos : h.Positioned) (ho : Heap.Ordered h.arrival h.len) :
    Heap.Ordered (h.pushAt p).arrival (h.pushAt p).len := by
  have hlen := push_len (h := h) (p := p)
  rw [show (h.pushAt p).len = (h.push p).len from (pushAt_settles hp hout hpos).len]
  apply Heap.up_last_ordered heapInterface_lawful _ (by change 0 < (h.push p).len; omega)
  intro k h0 hk
  change k < (h.push p).len - 1 at hk
  have hval (j : ℕ) (hj : j < h.len) : (h.push p).arrival j = h.arrival j := by
    have hne : h.item j ≠ p := fun he => hout (he ▸ item_of_lt hj)
    unfold arrival
    rw [push_item hj, push_cell hp, if_neg hne]
  rw [hval k (by omega), hval _ (by omega)]
  exact ho k h0 (by omega)

/-- Once the map has it, the new item is linked like the others. -/
theorem Linked.push (hl : Linked h arrivals) (ha : arrivals (h.cell p).id = none) :
    Linked { h.push p with byID := h.byID.insert (h.cell p).id p }
      (Function.update arrivals (h.cell p).id (some (h.cell p).atTime)) := by
  have hcells : (h.push p).cells.map core = h.cells.map core := map_core_modify_idx _ _ _
  constructor
  · exact hl.positioned.push hp hout
  · intro id r
    change (h.byID.insert (h.cell p).id p).lookup id = some r ↔
      r ∈ h.items ++ [p] ∧ ((h.push p).cell r).id = id
    rw [FMap.lookup_insert, id_cell_eq hcells, List.mem_append, List.mem_singleton]
    split_ifs with he
    · rw [he, Option.some.injEq]
      constructor
      · rintro rfl
        exact ⟨.inr rfl, rfl⟩
      · rintro ⟨hr | rfl, hid⟩
        · rw [hl.arrivals_eq, (hl.byID_iff _ r).mpr ⟨hr, hid⟩] at ha
          cases ha
        · rfl
    · rw [hl.byID_iff]
      constructor
      · exact fun hr => ⟨.inl hr.1, hr.2⟩
      · rintro ⟨hr | rfl, hid⟩
        · exact ⟨hr, hid⟩
        · exact absurd hid.symm he
  · intro id
    change _ = ((h.byID.insert (h.cell p).id p).lookup id).map fun r => ((h.push p).cell r).atTime
    simp only [atTime_cell_eq hcells]
    rw [FMap.lookup_insert]
    by_cases he : id = (h.cell p).id
    · simp [he]
    · rw [if_neg he, Function.update_of_ne he, hl.arrivals_eq]

end Push

theorem Holds.pushItem (hh : Holds h arrivals) (c : ClaimItem) (ha : arrivals c.id = none) :
    Holds (h.pushItem c) (Function.update arrivals c.id (some c.atTime)) := by
  have hl := hh.toLinked.grown c
  have hlt : h.cells.length < (h.grown c).cells.length := by rw [grown_length]; omega
  have hout : h.cells.length ∉ (h.grown c).items :=
    fun hin => lt_irrefl _ (hh.positioned.mem_lt hin)
  have hpushed := hl.push hlt hout (by rwa [cell_grown_last])
  have hs := (pushAt_settles hlt hout hl.positioned).linked hpushed
  rw [cell_grown_last] at hs
  exact ⟨hs, pushAt_ordered hlt hout hl.positioned (grown_ordered hh.positioned hh.ordered c)⟩

theorem pop_len : h.pop.len = h.len - 1 := by simp [pop, len]

theorem pop_item {j : ℕ} (hj : j < h.len - 1) : h.pop.item j = h.item j := by
  change (h.items.take (h.len - 1)).getD j 0 = h.items.getD j 0
  rw [List.getD_eq_getElem?_getD, List.getD_eq_getElem?_getD, List.getElem?_take_of_lt hj]

theorem pop_cell (hp : h.Positioned) (hn : 0 < h.len) (r : ℕ) :
    h.pop.cell r =
      if r = h.item (h.len - 1) then { h.cell r with idx := -1 } else h.cell r := by
  change (h.setIdx (h.item (h.len - 1)) (-1)).cell r = _
  rw [cell_setIdx _ _ _ (hp _ (by omega)).1]
  split_ifs with he
  · rw [he]
  · rfl

theorem item_ne_last (hp : h.Positioned) {j : ℕ} (hj : j < h.len - 1) :
    h.item j ≠ h.item (h.len - 1) := by
  intro he
  have := hp.inj (by omega) (by omega) he
  omega

theorem mem_pop_items (hp : h.Positioned) (hn : 0 < h.len) (r : ℕ) :
    r ∈ h.pop.items ↔ r ∈ h.items ∧ r ≠ h.item (h.len - 1) := by
  constructor
  · intro hr
    obtain ⟨j, hj, he⟩ := List.getElem_of_mem hr
    have hj' : j < h.len - 1 := pop_len (h := h) ▸ hj
    have hr' : h.item j = r := by
      rw [← pop_item hj']
      exact (List.getD_eq_getElem _ _ hj).trans he
    exact ⟨List.mem_of_mem_take hr, hr' ▸ item_ne_last hp hj'⟩
  · rintro ⟨hr, hlast⟩
    obtain ⟨j, hj, he⟩ := List.getElem_of_mem hr
    have hr' : h.item j = r := (List.getD_eq_getElem _ _ hj).trans he
    have hj' : j < h.len - 1 := by
      have : j ≠ h.len - 1 := by
        rintro rfl
        exact hlast hr'.symm
      have : j < h.len := hj
      omega
    rw [← hr', ← pop_item hj']
    exact item_of_lt (h := h.pop) (pop_len (h := h) ▸ hj')

theorem Positioned.pop (hp : h.Positioned) : h.pop.Positioned := by
  intro j hj
  rw [pop_len] at hj
  obtain ⟨hb, hx⟩ := hp j (by omega)
  rw [pop_item hj, pop_cell hp (by omega), if_neg (item_ne_last hp hj), hx]
  exact ⟨by simpa [ClaimHeap.pop, setIdx] using hb, rfl⟩

theorem map_core_pop : h.pop.cells.map core = h.cells.map core := map_core_modify_idx _ _ _

/-- Dropping the last item and its entry in the map leaves the others linked. -/
theorem Linked.pop {id : String} {p : ℕ} (hl : Linked h arrivals)
    (hp : h.byID.lookup id = some p) (hlast : h.item (h.len - 1) = p) :
    Linked { h.pop with byID := h.byID.erase id } (Function.update arrivals id none) := by
  obtain ⟨i, hi, -⟩ := hl.exists_item hp
  have hmem := mem_pop_items hl.positioned (by omega)
  rw [hlast] at hmem
  constructor
  · exact hl.positioned.pop
  · intro id' r
    change (h.byID.erase id).lookup id' = some r ↔ r ∈ h.pop.items ∧ (h.pop.cell r).id = id'
    rw [FMap.lookup_erase, hmem, id_cell_eq map_core_pop]
    split_ifs with he
    · simp only [false_iff]
      rintro ⟨⟨hr, hne⟩, hid⟩
      have hr' := (hl.byID_iff id r).mpr ⟨hr, hid.trans he⟩
      exact hne (Option.some.inj (hr'.symm.trans hp))
    · rw [hl.byID_iff]
      constructor
      · rintro ⟨hr, hid⟩
        refine ⟨⟨hr, ?_⟩, hid⟩
        rintro rfl
        exact he (hid.symm.trans ((hl.byID_iff id r).mp hp).2)
      · exact fun hr => ⟨hr.1.1, hr.2⟩
  · intro id'
    change _ = ((h.byID.erase id).lookup id').map (fun p => (h.pop.cell p).atTime)
    simp only [atTime_cell_eq map_core_pop]
    rw [FMap.lookup_erase]
    by_cases he : id' = id
    · simp [he]
    · rw [if_neg he, Function.update_of_ne he, hl.arrivals_eq]

theorem pop_ordered (ho : Heap.Ordered h.arrival (h.len - 1)) :
    Heap.Ordered h.pop.arrival h.pop.len := by
  have harr (j : ℕ) (hj : j < h.len - 1) : h.pop.arrival j = h.arrival j := by
    unfold arrival
    rw [pop_item hj, atTime_cell_eq map_core_pop]
  rw [pop_len]
  intro k h0 hk
  rw [harr k hk, harr _ (by omega)]
  exact ho k h0 hk

theorem Holds.removeItem {id : String} {p : ℕ} (hh : Holds h arrivals)
    (hp : h.byID.lookup id = some p) :
    Holds (h.removeItem p) (Function.update arrivals id none) := by
  obtain ⟨i, hi, hitem, hidx, -⟩ := hh.exists_item hp
  have hid : (h.cell p).id = id := ((hh.byID_iff id p).mp hp).2
  obtain ⟨hs, hlast⟩ := sinkToEnd_settles hh.positioned hi
  have ho := Heap.sinkToEnd_ordered heapInterface_lawful h i hi hh.ordered
  unfold ClaimHeap.removeItem
  rw [hidx, Int.toNat_natCast, hid]
  set h1 := Heap.sinkToEnd heapInterface h i
  refine ⟨(hs.linked hh.toLinked).pop (by rw [hs.byID]; exact hp) ?_, pop_ordered ?_⟩
  · rw [hs.len, hlast, hitem]
  · rw [hs.len]
    exact ho

theorem Holds.removeID (hh : Holds h arrivals) (id : String) :
    Holds (h.removeID id) (Function.update arrivals id none) := by
  unfold ClaimHeap.removeID
  cases hp : h.byID.lookup id with
  | some p => exact hh.removeItem hp
  | none =>
    have ha : arrivals id = none := by rw [hh.arrivals_eq, hp]; rfl
    rw [← ha, Function.update_eq_self]
    exact hh

theorem fst_ite_none {c : Prop} [Decidable c] {x : Option ℕ × ℕ} {n p : ℕ}
    (hx : (if c then x else (none, n)).1 = some p) : x.1 = some p := by
  split_ifs at hx
  exact hx

/-- The random search only ever returns an item of the heap that is available. -/
theorem randAvail_some (now : Time) (draws : ℕ → ℕ) (fuel index used p : ℕ)
    (hr : (h.randAvail now draws fuel index used).1 = some p) :
    p ∈ h.items ∧ (h.cell p).atTime ≤ now := by
  induction fuel generalizing index used p with
  | zero => simp [randAvail] at hr
  | succ fuel ih =>
    by_cases hlen : h.len ≤ index
    · simp [randAvail, hlen] at hr
    · rw [randAvail, if_neg hlen] at hr
      simp only [Option.or_eq_some_iff] at hr
      rcases hr with hr | ⟨-, hr | ⟨-, hr⟩⟩
      · exact ih _ _ _ (fst_ite_none hr)
      · exact ih _ _ _ (fst_ite_none hr)
      · split at hr
        · cases hr
        · cases hr
          exact ⟨item_of_lt (by omega), not_lt.mp ‹_›⟩

theorem Holds.randomAvailable (hh : Holds h arrivals) {now : Time} {draws : ℕ → ℕ} {p : ℕ}
    (hr : h.randomAvailable now draws = some p) :
    ∃ at_, h.byID.lookup (h.cell p).id = some p ∧ arrivals (h.cell p).id = some at_ ∧
      at_ ≤ now := by
  obtain ⟨hm, hat⟩ := randAvail_some now draws _ _ _ p hr
  have hp := (hh.byID_iff _ p).mpr ⟨hm, rfl⟩
  exact ⟨_, hp, by rw [hh.arrivals_eq, hp]; rfl, hat⟩

end ClaimHeap
end EntroQ.Eqmem
