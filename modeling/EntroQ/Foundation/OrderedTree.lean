import Mathlib

/-! # Ordered trees by their contract

An ordered tree holds items in the order of a comparison, at most one item for each class of
items that the comparison does not separate. What a client can see of it is the ascending list
of its items, so that list is the tree here, and its order is a field. -/

namespace EntroQ.Foundation

/-- The comparison of an ordered tree: items it does not separate form classes in a line. -/
class StrictWeak {α : Type*} (less : α → α → Bool) : Prop where
  irrefl : ∀ a, less a a = false
  trans : ∀ a b c, less a b = true → less b c = true → less a c = true
  between : ∀ a b c, less a b = true → less a c = true ∨ less c b = true

theorem StrictWeak.ofKey {α κ : Type*} [LinearOrder κ] {less : α → α → Bool} (key : α → κ)
    (h : ∀ a b, less a b = true ↔ key a < key b) : StrictWeak less where
  irrefl a := by rw [← Bool.not_eq_true, h]; exact lt_irrefl _
  trans a b c hab hbc := (h a c).mpr (lt_trans ((h a b).mp hab) ((h b c).mp hbc))
  between a b c hab := by
    rw [h, h]
    rcases lt_or_ge (key a) (key c) with hac | hca
    · exact .inl hac
    · exact .inr (lt_of_le_of_lt hca ((h a b).mp hab))

/-- The items of a tree built with `less`, in ascending order. -/
structure OrderedTree {α : Type*} (less : α → α → Bool) where
  toList : List α
  sorted : toList.Pairwise (fun a b => less a b = true)

namespace OrderedTree
variable {α : Type*} {less : α → α → Bool}

/-- Neither item comes before the other. -/
def same (less : α → α → Bool) (a b : α) : Bool := !less a b && !less b a

theorem same_iff_of_key {κ : Type*} [LinearOrder κ] (key : α → κ)
    (h : ∀ a b, less a b = true ↔ key a < key b) (a b : α) :
    same less a b = true ↔ key a = key b := by
  have hf : ∀ a b : α, less a b = false ↔ key b ≤ key a := by
    intro a b
    rw [← not_lt, ← h a b, Bool.not_eq_true]
  simp only [same, Bool.and_eq_true, Bool.not_eq_true', hf]
  exact ⟨fun h => le_antisymm h.2 h.1, fun h => ⟨h.ge, h.le⟩⟩

theorem same_comm (a b : α) : same less a b = same less b a := by
  simp [same, Bool.and_comm]

/-- Put `x` in its place, instead of the item it is the same as if there is one. -/
def insertList (less : α → α → Bool) (x : α) : List α → List α
  | [] => [x]
  | y :: ys =>
    if less x y then x :: y :: ys
    else if less y x then y :: insertList less x ys
    else x :: ys

theorem filter_sorted (t : OrderedTree less) (p : α → Bool) :
    (t.toList.filter p).Pairwise (fun a b => less a b = true) :=
  t.sorted.sublist List.filter_sublist

def empty : OrderedTree less := ⟨[], List.Pairwise.nil⟩

/-- Remove the item that `x` is the same as. -/
def delete (t : OrderedTree less) (x : α) : OrderedTree less :=
  ⟨t.toList.filter (fun a => !same less a x), filter_sorted t _⟩

/-- The item that `x` is the same as. -/
def get (t : OrderedTree less) (x : α) : Option α := t.toList.find? (fun a => same less a x)

def len (t : OrderedTree less) : ℕ := t.toList.length

/-- The items at or after `pivot`, ascending. -/
def ascendGreaterOrEqual (t : OrderedTree less) (pivot : α) : List α :=
  t.toList.filter (fun a => !less a pivot)

/-- The items at or after `lo` and before `hi`, ascending. -/
def ascendRange (t : OrderedTree less) (lo hi : α) : List α :=
  t.toList.filter (fun a => !less a lo && less a hi)

/-- Where the items satisfying `p` come first, the walk that stops at the first other one
visits them all. -/
theorem takeWhile_eq_filter (p : α → Bool) (l : List α)
    (h : l.Pairwise (fun a b => p b = true → p a = true)) : l.takeWhile p = l.filter p := by
  induction l with
  | nil => rfl
  | cons a l ih =>
    obtain ⟨ha, hl⟩ := List.pairwise_cons.mp h
    by_cases hp : p a = true
    · rw [List.takeWhile_cons_of_pos hp, List.filter_cons_of_pos hp, ih hl]
    · rw [List.takeWhile_cons_of_neg hp, List.filter_cons_of_neg hp]
      symm
      rw [List.filter_eq_nil_iff]
      exact fun b hb hpb => hp (ha b hb hpb)

theorem same_false_of_less {a b : α} (h : less a b = true) : same less a b = false := by
  simp [same, h]

theorem mem_delete (t : OrderedTree less) (x z : α) :
    z ∈ (t.delete x).toList ↔ z ∈ t.toList ∧ same less z x = false := by
  simp [delete, List.mem_filter]

variable [StrictWeak less]

theorem same_refl (a : α) : same less a a = true := by
  have h : less a a = false := StrictWeak.irrefl a
  simp [same, h]

theorem less_of_less_of_same {a b c : α} (hab : less a b = true) (h : same less b c = true) :
    less a c = true := by
  simp only [same, Bool.and_eq_true, Bool.not_eq_true'] at h
  rcases StrictWeak.between a b c hab with hac | hcb
  · exact hac
  · simp [h.2] at hcb

theorem less_of_same_of_less {a b c : α} (h : same less a b = true) (hbc : less b c = true) :
    less a c = true := by
  simp only [same, Bool.and_eq_true, Bool.not_eq_true'] at h
  rcases StrictWeak.between b c a hbc with hba | hac
  · simp [h.2] at hba
  · exact hac

theorem same_trans {a b c : α} (hab : same less a b = true) (hbc : same less b c = true) :
    same less a c = true := by
  have h1 : less a c = false := by
    rw [← Bool.not_eq_true]
    intro h
    have := less_of_less_of_same h (by rwa [same_comm])
    simp [same, this] at hab
  have h2 : less c a = false := by
    rw [← Bool.not_eq_true]
    intro h
    have := less_of_less_of_same h hab
    simp [same, this] at hbc
  simp [same, h1, h2]

theorem mem_insertList (x z : α) (l : List α) (h : l.Pairwise (fun a b => less a b = true)) :
    z ∈ insertList less x l ↔ z = x ∨ (z ∈ l ∧ same less z x = false) := by
  induction l with
  | nil => simp [insertList]
  | cons y ys ih =>
    obtain ⟨hy, hys⟩ := List.pairwise_cons.mp h
    rw [insertList]
    split_ifs with hxy hyx
    · have hall : ∀ w ∈ y :: ys, same less w x = false := by
        intro w hw
        rw [same_comm]
        rcases List.mem_cons.mp hw with rfl | hw
        · exact same_false_of_less hxy
        · exact same_false_of_less (StrictWeak.trans _ _ _ hxy (hy w hw))
      rw [List.mem_cons]
      exact or_congr Iff.rfl ⟨fun hz => ⟨hz, hall z hz⟩, fun hz => hz.1⟩
    · rw [List.mem_cons, List.mem_cons, ih hys]
      constructor
      · rintro (rfl | rfl | ⟨hz, hk⟩)
        · exact .inr ⟨.inl rfl, same_false_of_less hyx⟩
        · exact .inl rfl
        · exact .inr ⟨.inr hz, hk⟩
      · rintro (rfl | ⟨rfl | hz, hk⟩)
        · exact .inr (.inl rfl)
        · exact .inl rfl
        · exact .inr (.inr ⟨hz, hk⟩)
    · have hke : same less x y = true := by simp [same, hxy, hyx]
      have hall : ∀ w ∈ ys, same less w x = false := by
        intro w hw
        rw [same_comm]
        exact same_false_of_less (less_of_same_of_less hke (hy w hw))
      rw [List.mem_cons, List.mem_cons]
      constructor
      · rintro (rfl | hz)
        · exact .inl rfl
        · exact .inr ⟨.inr hz, hall z hz⟩
      · rintro (rfl | ⟨rfl | hz, hk⟩)
        · exact .inl rfl
        · rw [same_comm, hke] at hk
          simp at hk
        · exact .inr hz

theorem insertList_sorted (x : α) (l : List α) (h : l.Pairwise (fun a b => less a b = true)) :
    (insertList less x l).Pairwise (fun a b => less a b = true) := by
  induction l with
  | nil => simp [insertList]
  | cons y ys ih =>
    obtain ⟨hy, hys⟩ := List.pairwise_cons.mp h
    rw [insertList]
    split_ifs with hxy hyx
    · refine List.pairwise_cons.mpr ⟨fun w hw => ?_, h⟩
      rcases List.mem_cons.mp hw with rfl | hw
      · exact hxy
      · exact StrictWeak.trans _ _ _ hxy (hy w hw)
    · refine List.pairwise_cons.mpr ⟨fun w hw => ?_, ih hys⟩
      rcases (mem_insertList x w ys hys).mp hw with rfl | ⟨hw, _⟩
      · exact hyx
      · exact hy w hw
    · refine List.pairwise_cons.mpr ⟨fun w hw => ?_, hys⟩
      exact less_of_same_of_less (by simp [same, hxy, hyx] : same less x y = true) (hy w hw)

def replaceOrInsert (t : OrderedTree less) (x : α) : OrderedTree less :=
  ⟨insertList less x t.toList, insertList_sorted x t.toList t.sorted⟩

theorem mem_replaceOrInsert (t : OrderedTree less) (x z : α) :
    z ∈ (t.replaceOrInsert x).toList ↔ z = x ∨ (z ∈ t.toList ∧ same less z x = false) :=
  mem_insertList x z t.toList t.sorted

omit [StrictWeak less] in
theorem eq_of_same (t : OrderedTree less) {a b : α} (ha : a ∈ t.toList) (hb : b ∈ t.toList)
    (h : same less a b = true) : a = b := by
  by_contra hne
  have hp : t.toList.Pairwise (fun a b => same less a b = false) :=
    t.sorted.imp (fun hxy => same_false_of_less hxy)
  have hsymm : Std.Symm (fun a b => same less a b = false) :=
    ⟨fun a b hab => by rw [same_comm]; exact hab⟩
  have := hp.forall ha hb hne
  simp [h] at this

theorem get_eq_some_iff (t : OrderedTree less) (x a : α) :
    t.get x = some a ↔ a ∈ t.toList ∧ same less a x = true := by
  unfold get
  constructor
  · intro h
    exact ⟨List.mem_of_find?_eq_some h, by simpa using List.find?_some h⟩
  · rintro ⟨ha, hk⟩
    cases hf : t.toList.find? (fun a => same less a x) with
    | none => exact absurd hk (List.find?_eq_none.mp hf a ha)
    | some b =>
      have hkb : same less b x = true := by simpa using List.find?_some hf
      rw [same_comm] at hk
      rw [eq_of_same t (List.mem_of_find?_eq_some hf) ha (same_trans hkb hk)]

theorem get_replaceOrInsert (t : OrderedTree less) (x y : α) :
    (t.replaceOrInsert x).get y = if same less x y = true then some x else t.get y := by
  ext a
  rw [get_eq_some_iff, mem_replaceOrInsert]
  split_ifs with h
  · constructor
    · rintro ⟨rfl | ⟨_, hne⟩, hk⟩
      · rfl
      · rw [same_trans hk (by rwa [same_comm])] at hne
        simp at hne
    · intro he
      cases he
      exact ⟨.inl rfl, h⟩
  · rw [get_eq_some_iff]
    constructor
    · rintro ⟨rfl | ⟨ha, _⟩, hk⟩
      · exact absurd hk h
      · exact ⟨ha, hk⟩
    · rintro ⟨ha, hk⟩
      refine ⟨.inr ⟨ha, ?_⟩, hk⟩
      rw [← Bool.not_eq_true]
      intro he
      rw [same_comm] at he
      exact h (same_trans he hk)

theorem get_delete (t : OrderedTree less) (x y : α) :
    (t.delete x).get y = if same less x y = true then none else t.get y := by
  ext a
  rw [get_eq_some_iff, mem_delete]
  split_ifs with h
  · constructor
    · rintro ⟨⟨_, hne⟩, hk⟩
      rw [same_trans hk (by rwa [same_comm])] at hne
      simp at hne
    · intro he
      cases he
  · rw [get_eq_some_iff]
    constructor
    · rintro ⟨⟨ha, _⟩, hk⟩
      exact ⟨ha, hk⟩
    · rintro ⟨ha, hk⟩
      refine ⟨⟨ha, ?_⟩, hk⟩
      rw [← Bool.not_eq_true]
      intro he
      rw [same_comm] at he
      exact h (same_trans he hk)

theorem nodup (t : OrderedTree less) : t.toList.Nodup :=
  t.sorted.imp (fun {x y} hxy he => by
    subst he
    have h : less x x = false := StrictWeak.irrefl x
    simp [h] at hxy)

theorem perm_of_mem_iff {t : OrderedTree less} {x : α} {l : List α} (hl : l.Nodup) (hx : x ∉ l)
    (h : ∀ z, z ∈ t.toList ↔ z = x ∨ z ∈ l) : t.toList.Perm (x :: l) := by
  rw [List.perm_ext_iff_of_nodup t.nodup (List.nodup_cons.mpr ⟨hx, hl⟩)]
  intro z
  rw [h, List.mem_cons]

/-- A tree is the set of its items. -/
theorem ext_mem {t u : OrderedTree less} (h : ∀ a, a ∈ t.toList ↔ a ∈ u.toList) : t = u := by
  have hp : t.toList.Perm u.toList := (List.perm_ext_iff_of_nodup t.nodup u.nodup).mpr h
  have he : t.toList = u.toList := by
    apply hp.eq_of_pairwise _ t.sorted u.sorted
    intro a b _ _ hab hba
    have h : less a a = false := StrictWeak.irrefl a
    have h' : less a a = true := StrictWeak.trans _ _ _ hab hba
    simp [h] at h'
  cases t
  cases u
  cases he
  rfl

end OrderedTree
end EntroQ.Foundation
