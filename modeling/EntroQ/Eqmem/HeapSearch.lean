import EntroQ.Eqmem.ClaimHeap
import EntroQ.Foundation.HeapTree

/-! # What a search of the claim heap finds

A heap is built by pushing, removing, updating and fixing items, which may share an ID and may be
updated while they are out of the heap. The random search finds an available item whenever there
is one, and the count, which skips what is below an item that is not available, misses none. -/

namespace EntroQ.Eqmem
open Foundation

namespace ClaimHeap

section Operations
variable (h : ClaimHeap)

def made (q id : String) (at_ : Time) : ClaimHeap := h.grown (newItem q id at_)

/-- The walk of `CountAvailable` from position `index`. -/
def countWalk (now : Time) (limit : ℤ) : ℕ → ℕ → ℕ → ℕ
  | 0, _, count => count
  | fuel + 1, index, count =>
    if limit ≤ count ∨ h.len ≤ index ∨ now < (h.cell (h.item index)).atTime then count
    else
      let left := countWalk now limit fuel (index * 2 + 1) (count + 1)
      countWalk now limit fuel (index * 2 + 2) left

def countAvailable (now : Time) (limit : ℤ) : ℕ := h.countWalk now limit (h.len + 1) 0 0

def available (now : Time) : List ℕ := h.items.filter fun p => decide ((h.cell p).atTime ≤ now)

end Operations

/-- The heaps that the operations build. An item is pushed while it is not in the heap, as it
records one position only; it may be updated or fixed at any time. -/
inductive Built : ClaimHeap → Prop
  | empty : Built {}
  | made {h} (q id : String) (at_ : Time) : Built h → Built (h.made q id at_)
  | pushItem {h} (p : ℕ) : Built h → p < h.cells.length → p ∉ h.items → Built (h.pushAt p)
  | removeID {h} (id : String) : Built h → Built (h.removeID id)
  | updateItem {h} (p : ℕ) (at_ : Time) : Built h → p < h.cells.length →
      Built (h.updateItem p at_)
  | fixItem {h} (p : ℕ) : Built h → p < h.cells.length → Built (h.fixItem p)

/-- The bookkeeping of a heap: items record their positions, and the map leads to items of the
heap by their own IDs. -/
structure Kept (h : ClaimHeap) : Prop where
  positioned : h.Positioned
  outside : ∀ p, p < h.cells.length → p ∉ h.items → (h.cell p).idx = -1
  byID : ∀ id p, h.byID.lookup id = some p → p ∈ h.items ∧ (h.cell p).id = id

structure Sound (h : ClaimHeap) : Prop extends Kept h where
  ordered : Heap.Ordered h.arrival h.len

variable {h : ClaimHeap}

theorem Settles.kept {h' : ClaimHeap} (hs : Settles h h') (hk : Kept h) : Kept h' where
  positioned := hs.positioned
  outside p hp hout := by
    have hout' : p ∉ h.items := by rwa [← hs.perm.mem_iff]
    have hlen : h'.cells.length = h.cells.length := by
      simpa using congrArg List.length hs.cells
    rw [hs.outside p hout']
    exact hk.outside p (hlen ▸ hp) hout'
  byID id p hp := by
    rw [hs.byID] at hp
    rw [hs.perm.mem_iff, id_cell_eq hs.cells]
    exact hk.byID id p hp

theorem Kept.position (hk : Kept h) {p : ℕ} (hin : p ∈ h.items) :
    (h.cell p).idx.toNat < h.len ∧ h.item (h.cell p).idx.toNat = p := by
  obtain ⟨i, hi, he⟩ := List.getElem_of_mem hin
  have hitem : h.item i = p := (List.getD_eq_getElem _ _ hi).trans he
  have hidx := (hk.positioned i hi).2
  rw [hitem] at hidx
  rw [hidx, Int.toNat_natCast]
  exact ⟨hi, hitem⟩

theorem sound_empty : Sound {} where
  positioned i hi := by simp [len] at hi
  outside p hp := by simp at hp
  byID id p hp := by simp at hp
  ordered k _ hk := by simp [len] at hk

/-! ## The operations keep the heap sound -/

theorem Sound.made (hs : Sound h) (q id : String) (at_ : Time) : Sound (h.made q id at_) := by
  refine ⟨⟨hs.positioned.grown _, ?_, ?_⟩, grown_ordered hs.positioned hs.ordered _⟩
  · intro p hp hout
    rcases Nat.lt_succ_iff_lt_or_eq.mp (grown_length (h := h) _ ▸ hp) with hp | rfl
    · rw [ClaimHeap.made, cell_grown _ hp]
      exact hs.outside p hp hout
    · rw [ClaimHeap.made, cell_grown_last]
      rfl
  · intro id' p hp
    obtain ⟨hin, hid⟩ := hs.byID id' p hp
    exact ⟨hin, by rw [ClaimHeap.made, cell_grown _ (hs.positioned.mem_lt hin), hid]⟩

theorem Kept.push {p : ℕ} (hk : Kept h) (hp : p < h.cells.length) (hout : p ∉ h.items) :
    Kept { h.push p with byID := h.byID.insert (h.cell p).id p } := by
  have hcells : (h.push p).cells.map core = h.cells.map core := map_core_modify_idx _ _ _
  refine ⟨hk.positioned.push hp hout, ?_, ?_⟩
  · intro r hr hrout
    change r ∉ h.items ++ [p] at hrout
    rw [List.mem_append, List.mem_singleton, not_or] at hrout
    change ((h.push p).cell r).idx = -1
    rw [push_cell hp, if_neg hrout.2]
    exact hk.outside r (by simpa [ClaimHeap.push, setIdx] using hr) hrout.1
  · intro id r hr
    change (h.byID.insert (h.cell p).id p).lookup id = some r at hr
    change r ∈ h.items ++ [p] ∧ ((h.push p).cell r).id = id
    rw [FMap.lookup_insert] at hr
    rw [id_cell_eq hcells, List.mem_append, List.mem_singleton]
    split_ifs at hr with he
    · obtain rfl := Option.some.inj hr
      exact ⟨.inr rfl, he.symm⟩
    · obtain ⟨hin, hid⟩ := hk.byID id r hr
      exact ⟨.inl hin, hid⟩

theorem Sound.pushAt {p : ℕ} (hs : Sound h) (hp : p < h.cells.length) (hout : p ∉ h.items) :
    Sound (h.pushAt p) :=
  ⟨(pushAt_settles hp hout hs.positioned).kept (hs.toKept.push hp hout),
    pushAt_ordered hp hout hs.positioned hs.ordered⟩

/-- In an ordered heap there is nothing to fix. At an item out of the heap, which is fixed at the
root, that is what `heap.Fix` does at position -1. -/
theorem Sound.fixItem_eq (hs : Sound h) {p : ℕ} (hp : p < h.cells.length) : h.fixItem p = h := by
  apply Heap.fix_of_ordered heapInterface_lawful h _ hs.ordered
  by_cases hin : p ∈ h.items
  · exact .inl (hs.position hin).1
  · rw [hs.outside p hp hin]
    exact .inr rfl

theorem Kept.retimed (hk : Kept h) {p : ℕ} (hp : p < h.cells.length) (at_ : Time) :
    Kept (h.retimed p at_) where
  positioned := hk.positioned.retimed hp at_
  outside r hr hout := by
    rw [idx_retimed hp]
    exact hk.outside r (by simpa [ClaimHeap.retimed] using hr) hout
  byID id r hr := by
    rw [id_retimed hp]
    exact hk.byID id r hr

theorem Sound.retimed_outside (hs : Sound h) {p : ℕ} (hp : p < h.cells.length) (hout : p ∉ h.items)
    (at_ : Time) : Sound (h.retimed p at_) := by
  have harr (k : ℕ) (hk : k < h.len) : (h.retimed p at_).arrival k = h.arrival k := by
    have hne : h.item k ≠ p := fun he => hout (he ▸ item_of_lt hk)
    exact congrArg ClaimItem.atTime ((cell_retimed hp at_ _).trans (if_neg hne))
  refine ⟨hs.toKept.retimed hp at_, fun k h0 hk => ?_⟩
  rw [harr k hk, harr _ (lt_of_le_of_lt (by omega) hk)]
  exact hs.ordered k h0 hk

/-- Updating an item out of the heap moves nothing. -/
theorem Sound.updateItem_outside (hs : Sound h) {p : ℕ} (hp : p < h.cells.length)
    (hout : p ∉ h.items) (at_ : Time) : h.updateItem p at_ = h.retimed p at_ :=
  (hs.retimed_outside hp hout at_).fixItem_eq (by simpa [retimed] using hp)

theorem Sound.updateItem (hs : Sound h) {p : ℕ} (hp : p < h.cells.length) (at_ : Time) :
    Sound (h.updateItem p at_) := by
  by_cases hin : p ∈ h.items
  · have hk := hs.toKept.retimed hp at_
    have hi := (hs.position hin).1
    rw [ClaimHeap.updateItem, fixItem, idx_retimed hp]
    have hset := fix_settles hk.positioned hi
    refine ⟨hset.kept hk, ?_⟩
    rw [hset.len]
    exact Heap.fix_ordered heapInterface_lawful _ _ hi
      (retimed_offOrder hp at_ hs.positioned hs.ordered)
  · rw [hs.updateItem_outside hp hin]
    exact hs.retimed_outside hp hin at_

theorem Sound.removeID (hs : Sound h) (id : String) : Sound (h.removeID id) := by
  unfold ClaimHeap.removeID
  cases hp : h.byID.lookup id with
  | none => exact hs
  | some p =>
    obtain ⟨hin, hid⟩ := hs.byID id p hp
    obtain ⟨hi, hitem⟩ := hs.position hin
    obtain ⟨hset, hlast⟩ := sinkToEnd_settles hs.positioned hi
    have hord := Heap.sinkToEnd_ordered heapInterface_lawful h _ hi hs.ordered
    unfold ClaimHeap.removeItem
    set h1 := Heap.sinkToEnd heapInterface h (h.cell p).idx.toNat
    have hlen := hset.len
    have hk1 := hset.kept hs.toKept
    rw [hitem, ← hlen] at hlast
    have hn : 0 < h1.len := by omega
    have hcell := pop_cell hk1.positioned hn
    have hmem := mem_pop_items hk1.positioned hn
    rw [hlast] at hcell hmem
    refine ⟨⟨hk1.positioned.pop, ?_, ?_⟩, pop_ordered (hlen ▸ hord)⟩
    · intro r hr hout
      change (h1.pop.cell r).idx = -1
      rw [hcell]
      split_ifs with he
      · rfl
      · have hout' : r ∉ h1.items := fun hin' => hout ((hmem r).mpr ⟨hin', he⟩)
        exact hk1.outside r (by simpa [ClaimHeap.pop, setIdx] using hr) hout'
    · intro id' r hr
      change (h1.byID.erase (h.cell p).id).lookup id' = some r at hr
      change r ∈ h1.pop.items ∧ (h1.pop.cell r).id = id'
      rw [FMap.lookup_erase] at hr
      split_ifs at hr with he
      obtain ⟨hin', hid'⟩ := hk1.byID id' r hr
      have hne : r ≠ p := by
        rintro rfl
        apply he
        rw [← hid', id_cell_eq hset.cells]
      rw [hmem, id_cell_eq map_core_pop]
      exact ⟨⟨hin', hne⟩, hid'⟩

theorem Built.sound (hb : Built h) : Sound h := by
  induction hb with
  | empty => exact sound_empty
  | made q id at_ _ ih => exact ih.made q id at_
  | pushItem p _ hp hout ih => exact ih.pushAt hp hout
  | removeID id _ ih => exact ih.removeID id
  | updateItem p at_ _ hp ih => exact ih.updateItem hp at_
  | fixItem p _ hp ih =>
    rw [ih.fixItem_eq hp]
    exact ih

theorem Built.pushNew (hb : Built h) (q id : String) (at_ : Time) :
    Built (h.pushItem (newItem q id at_)) := by
  refine .pushItem _ (hb.made q id at_) (by simp [grown]) ?_
  intro hin
  exact lt_irrefl _ (hb.sound.positioned.mem_lt hin)

/-! ## The searches -/

/-- The random search fails exactly if nothing at or below the position is available. It looks
below an item that is not available whatever the draws are. -/
theorem randAvail_eq_none_iff (now : Time) (draws : ℕ → ℕ) (fuel index used : ℕ) :
    (h.randAvail now draws fuel index used).1 = none ↔
      ∀ k ∈ Heap.below h.len fuel index, now < h.arrival k := by
  induction fuel generalizing index used with
  | zero => simp [randAvail, Heap.below]
  | succ fuel ih =>
    by_cases hlen : h.len ≤ index
    · simp [randAvail, hlen, Heap.below_of_le _ hlen]
    · rw [randAvail, if_neg hlen, Heap.below_succ fuel (by omega)]
      rw [Nat.mul_comm index 2]
      by_cases hnow : now < (h.cell (h.item index)).atTime
      · simp only [hnow, if_true, Option.isNone_none, Bool.true_or, Option.or_eq_none_iff, ih,
          List.forall_mem_cons, List.forall_mem_append]
        change _ ↔ now < (h.cell (h.item index)).atTime ∧ _
        tauto
      · simp only [hnow, if_false, Option.or_eq_none_iff, reduceCtorEq, and_false, false_iff]
        intro hall
        exact hnow (hall index (List.mem_cons_self ..))

/-- How many of the positions at and below one have an item that is available. -/
def availableBelow (h : ClaimHeap) (now : Time) (fuel index : ℕ) : ℕ :=
  (Heap.below h.len fuel index).countP fun k => decide (h.arrival k ≤ now)

theorem availableBelow_eq_zero (hord : Heap.Ordered h.arrival h.len) {now : Time} {index : ℕ}
    (hnow : now < h.arrival index) (fuel : ℕ) : h.availableBelow now fuel index = 0 := by
  rw [availableBelow, List.countP_eq_zero]
  intro k hk
  simpa using lt_of_lt_of_le hnow (hord.le_below hk)

theorem availableBelow_succ {now : Time} {index : ℕ} (hlt : index < h.len)
    (hnow : h.arrival index ≤ now) (fuel : ℕ) :
    h.availableBelow now (fuel + 1) index =
      1 + h.availableBelow now fuel (2 * index + 1) + h.availableBelow now fuel (2 * index + 2) := by
  rw [availableBelow, Heap.below_succ fuel hlt, List.countP_cons, List.countP_append]
  simp only [hnow, decide_true, if_true, availableBelow]
  omega

theorem countWalk_eq (hord : Heap.Ordered h.arrival h.len) (now : Time) (limit : ℤ)
    (fuel index count : ℕ) :
    (h.countWalk now limit fuel index count : ℤ) =
      max (count : ℤ) (min limit (count + h.availableBelow now fuel index : ℕ)) := by
  induction fuel generalizing index count with
  | zero =>
    simp only [countWalk, availableBelow, Heap.below, List.countP_nil]
    omega
  | succ fuel ih =>
    rw [countWalk]
    by_cases hlimit : limit ≤ count
    · rw [if_pos (.inl hlimit)]
      omega
    by_cases hlen : h.len ≤ index
    · rw [if_pos (.inr (.inl hlen)), availableBelow, Heap.below_of_le _ hlen, List.countP_nil]
      omega
    by_cases hnow : now < h.arrival index
    · rw [if_pos (.inr (.inr hnow)), availableBelow_eq_zero hord hnow]
      omega
    · rw [if_neg (by rintro (h' | h' | h') <;> contradiction),
        availableBelow_succ (by omega) (not_lt.mp hnow), Nat.mul_comm index 2]
      have hl := ih (2 * index + 1) (count + 1)
      have hr := ih (2 * index + 2) (h.countWalk now limit fuel (2 * index + 1) (count + 1))
      dsimp only
      omega

theorem items_eq_map (h : ClaimHeap) : h.items = (List.range h.len).map h.item := by
  apply List.ext_getElem
  · simp [len]
  · intro i hi _
    rw [List.getElem_map, List.getElem_range]
    exact (List.getD_eq_getElem _ _ hi).symm

theorem available_eq_nil_iff (h : ClaimHeap) (now : Time) :
    h.available now = [] ↔ ∀ k < h.len, now < h.arrival k := by
  rw [available, items_eq_map, List.filter_map, List.map_eq_nil_iff, List.filter_eq_nil_iff]
  simp [arrival]

theorem length_available (h : ClaimHeap) (now : Time) :
    (h.available now).length = h.availableBelow now (h.len + 1) 0 := by
  rw [availableBelow, (Heap.below_root_perm (by omega)).countP_eq, available, items_eq_map,
    List.filter_map, List.length_map, List.countP_eq_length_filter]
  rfl

/-- For every heap the operations build and every sequence of draws, the random search returns
nothing exactly if no item is available, and an available item otherwise. The count is that of the
available items, up to the limit, and never negative. -/
theorem searches_exact (hb : Built h) (now : Time) :
    (∀ draws, (h.randomAvailable now draws = none ↔ h.available now = []) ∧
      ∀ p, h.randomAvailable now draws = some p → p ∈ h.available now) ∧
    ∀ limit, (h.countAvailable now limit : ℤ) = max 0 (min limit (h.available now).length) := by
  refine ⟨fun draws => ⟨?_, ?_⟩, ?_⟩
  · rw [randomAvailable, randAvail_eq_none_iff, available_eq_nil_iff]
    have hperm : (Heap.below h.len (h.len + 1) 0).Perm (List.range h.len) :=
      Heap.below_root_perm (by omega)
    simp only [hperm.mem_iff, List.mem_range]
  · intro p hp
    obtain ⟨hin, hat⟩ := randAvail_some now draws _ _ _ p hp
    exact List.mem_filter.mpr ⟨hin, decide_eq_true hat⟩
  · intro limit
    rw [countAvailable, countWalk_eq hb.sound.ordered, length_available]
    omega

theorem searches_exact_two_items :
    let h := (({} : ClaimHeap).pushItem (newItem "q" "a" 7)).pushItem (newItem "q" "b" 3)
    h.available 5 = [1] ∧ (h.countAvailable 5 10 : ℤ) = max 0 (min 10 (h.available 5).length) :=
  ⟨by decide,
    (searches_exact ((Built.empty.pushNew "q" "a" 7).pushNew "q" "b" 3) 5).2 10⟩

theorem countAvailable_negative_limit :
    let h := ({} : ClaimHeap).pushItem (newItem "q" "a" 3)
    (h.countAvailable 5 (-1) : ℤ) = 0 ∧ min (-1) ((h.available 5).length : ℤ) = -1 := by
  decide

/-- An item that is pushed while it is in the heap records its last position only, so that its
update leaves the root out of order and the count misses what is below it. -/
theorem countAvailable_pushed_twice :
    let h := ((((({} : ClaimHeap).made "q" "x" 5).made "q" "y" 7).pushAt 0).pushAt 1).pushAt 0
    (h.updateItem 0 9).available 8 = [1] ∧ (h.updateItem 0 9).countAvailable 8 10 = 0 := by
  decide

end ClaimHeap
end EntroQ.Eqmem
