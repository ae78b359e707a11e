import Mathlib

/-! # Merging and grouping sorted lists

Several lists are merged by taking the least head again and again, of the first list among equals.
Sorted lists give the sorted list of all their elements, and cutting that where the key changes
gives one group for each key. -/

namespace EntroQ.Foundation
variable {α : Type*} [LinearOrder α]

def leastHead : List (List α) → Option (α × List (List α))
  | [] => none
  | [] :: ls => (leastHead ls).map fun (a, rest) => (a, [] :: rest)
  | (x :: xs) :: ls =>
    match leastHead ls with
    | none => some (x, xs :: ls)
    | some (y, rest) => if x ≤ y then some (x, xs :: ls) else some (y, (x :: xs) :: rest)

/-- At most so many elements of the merged lists. -/
def mergeUpTo : ℕ → List (List α) → List α
  | 0, _ => []
  | n + 1, ls =>
    match leastHead ls with
    | none => []
    | some (a, rest) => a :: mergeUpTo n rest

def mergeAll (ls : List (List α)) : List α := mergeUpTo ls.flatten.length ls

theorem leastHead_eq_none {ls : List (List α)} (h : leastHead ls = none) : ls.flatten = [] := by
  induction ls with
  | nil => rfl
  | cons l ls ih =>
    cases l with
    | nil =>
      rw [leastHead, Option.map_eq_none_iff] at h
      simpa using ih h
    | cons x xs =>
      rw [leastHead] at h
      split at h
      · cases h
      · split_ifs at h

theorem leastHead_perm {ls rest : List (List α)} {a : α} (h : leastHead ls = some (a, rest)) :
    ls.flatten.Perm (a :: rest.flatten) := by
  induction ls generalizing a rest with
  | nil => cases h
  | cons l ls ih =>
    cases l with
    | nil =>
      rw [leastHead, Option.map_eq_some_iff] at h
      obtain ⟨⟨b, r⟩, hb, heq⟩ := h
      cases heq
      simpa using ih hb
    | cons x xs =>
      rw [leastHead] at h
      split at h
      next => cases h; simp
      next y r hy =>
        split_ifs at h
        · cases h
          simp
        · cases h
          simp only [List.flatten_cons]
          exact ((ih hy).append_left _).trans List.perm_middle

theorem leastHead_sorted {ls rest : List (List α)} {a : α} (h : leastHead ls = some (a, rest))
    (hls : ∀ l ∈ ls, l.Pairwise (· ≤ ·)) :
    (∀ l ∈ rest, l.Pairwise (· ≤ ·)) ∧ ∀ b ∈ ls.flatten, a ≤ b := by
  induction ls generalizing a rest with
  | nil => cases h
  | cons l ls ih =>
    rw [List.forall_mem_cons] at hls
    cases l with
    | nil =>
      rw [leastHead, Option.map_eq_some_iff] at h
      obtain ⟨⟨b, r⟩, hb, heq⟩ := h
      cases heq
      obtain ⟨hrest, hleast⟩ := ih hb hls.2
      exact ⟨List.forall_mem_cons.mpr ⟨List.Pairwise.nil, hrest⟩, by simpa using hleast⟩
    | cons x xs =>
      obtain ⟨hx, hxs⟩ := List.pairwise_cons.mp hls.1
      have hhead : ∀ b ∈ x :: xs, x ≤ b := List.forall_mem_cons.mpr ⟨le_rfl, hx⟩
      rw [leastHead] at h
      split at h
      next hnone =>
        cases h
        refine ⟨List.forall_mem_cons.mpr ⟨hxs, hls.2⟩, ?_⟩
        simpa [leastHead_eq_none hnone] using hx
      next y r hy =>
        obtain ⟨hrest, hleast⟩ := ih hy hls.2
        rw [List.flatten_cons]
        split_ifs at h with hxy
        · cases h
          refine ⟨List.forall_mem_cons.mpr ⟨hxs, hls.2⟩, fun b hb => ?_⟩
          rcases List.mem_append.mp hb with hb | hb
          · exact hhead b hb
          · exact hxy.trans (hleast b hb)
        · cases h
          refine ⟨List.forall_mem_cons.mpr ⟨hls.1, hrest⟩, fun b hb => ?_⟩
          rcases List.mem_append.mp hb with hb | hb
          · exact (not_le.mp hxy).le.trans (hhead b hb)
          · exact hleast b hb

theorem mergeUpTo_perm {n : ℕ} {ls : List (List α)} (h : ls.flatten.length ≤ n) :
    (mergeUpTo n ls).Perm ls.flatten := by
  induction n generalizing ls with
  | zero => rw [List.length_eq_zero_iff.mp (Nat.le_zero.mp h)]; rfl
  | succ n ih =>
    rw [mergeUpTo]
    split
    next hnone => rw [leastHead_eq_none hnone]
    next a rest hsome =>
      have hperm := leastHead_perm hsome
      have hlen := hperm.length_eq
      rw [List.length_cons] at hlen
      exact ((ih (by omega)).cons a).trans hperm.symm

theorem mergeUpTo_sorted {n : ℕ} {ls : List (List α)} (h : ls.flatten.length ≤ n)
    (hls : ∀ l ∈ ls, l.Pairwise (· ≤ ·)) : (mergeUpTo n ls).Pairwise (· ≤ ·) := by
  induction n generalizing ls with
  | zero => exact List.Pairwise.nil
  | succ n ih =>
    rw [mergeUpTo]
    split
    next => exact List.Pairwise.nil
    next a rest hsome =>
      obtain ⟨hrest, hleast⟩ := leastHead_sorted hsome hls
      have hperm := leastHead_perm hsome
      have hlen := hperm.length_eq
      rw [List.length_cons] at hlen
      refine List.pairwise_cons.mpr ⟨fun b hb => ?_, ih (by omega) hrest⟩
      apply hleast b
      rw [hperm.mem_iff]
      exact List.mem_cons_of_mem a ((mergeUpTo_perm (by omega)).mem_iff.mp hb)

theorem mergeAll_perm (ls : List (List α)) : (mergeAll ls).Perm ls.flatten :=
  mergeUpTo_perm le_rfl

theorem mergeAll_sorted {ls : List (List α)} (hls : ∀ l ∈ ls, l.Pairwise (· ≤ ·)) :
    (mergeAll ls).Pairwise (· ≤ ·) :=
  mergeUpTo_sorted le_rfl hls

/-! ## Grouping by a key -/

section Grouping
variable {α β : Type*} [LinearOrder β]

/-- In a list sorted by key, the elements with the least key stand first. -/
theorem filter_least_append {f : α → β} {k : β} {l : List α}
    (hl : l.Pairwise fun a b => f a ≤ f b) (hk : ∀ a ∈ l, k ≤ f a) :
    (l.filter fun a => f a = k) ++ (l.filter fun a => f a ≠ k) = l := by
  induction l with
  | nil => rfl
  | cons a l ih =>
    obtain ⟨ha, hl⟩ := List.pairwise_cons.mp hl
    by_cases hak : f a = k
    · have hrest := ih hl fun b hb => hk b (List.mem_cons_of_mem a hb)
      simpa [hak] using hrest
    · have hlt : k < f a := lt_of_le_of_ne (hk a List.mem_cons_self) (Ne.symm hak)
      have hne (b : α) (hb : b ∈ a :: l) : f b ≠ k := by
        rcases List.mem_cons.mp hb with rfl | hb
        · exact hak
        · exact (hlt.trans_le (ha b hb)).ne'
      rw [List.filter_eq_nil_iff.mpr fun b hb => by simpa using hne b hb, List.nil_append,
        List.filter_eq_self]
      intro b hb
      simpa using hne b hb

/-- A list sorted by key, cut where the key changes: for each key, in order, the elements that
have it. -/
theorem splitBy_key {f : α → β} {l : List α} {ks : List β}
    (hl : l.Pairwise fun a b => f a ≤ f b) (hks : ks.Pairwise (· < ·))
    (hmem : ∀ k, k ∈ ks ↔ ∃ a ∈ l, f a = k) :
    l.splitBy (fun a b => f a == f b) = ks.map fun k => l.filter fun a => f a = k := by
  induction ks generalizing l with
  | nil =>
    have hnil : l = [] := by
      rw [List.eq_nil_iff_forall_not_mem]
      intro a ha
      exact List.not_mem_nil ((hmem (f a)).mpr ⟨a, ha, rfl⟩)
    rw [hnil]
    rfl
  | cons k ks ih =>
    obtain ⟨hlt, hks⟩ := List.pairwise_cons.mp hks
    have hleast (a : α) (ha : a ∈ l) : k ≤ f a := by
      rcases List.mem_cons.mp ((hmem (f a)).mpr ⟨a, ha, rfl⟩) with h | h
      · exact h.ge
      · exact (hlt _ h).le
    have hgroup : (l.filter fun a => f a = k) ≠ [] := by
      obtain ⟨a, ha, hak⟩ := (hmem k).mp List.mem_cons_self
      exact List.ne_nil_of_mem (List.mem_filter.mpr ⟨ha, by simpa using hak⟩)
    have hrest : (l.filter fun a => f a ≠ k).splitBy (fun a b => f a == f b) =
        ks.map fun k' => (l.filter fun a => f a ≠ k).filter fun a => f a = k' := by
      apply ih (List.Pairwise.filter _ hl) hks
      intro k'
      constructor
      · intro hk'
        obtain ⟨a, ha, hak⟩ := (hmem k').mp (List.mem_cons_of_mem k hk')
        refine ⟨a, List.mem_filter.mpr ⟨ha, ?_⟩, hak⟩
        simpa [hak] using (hlt k' hk').ne'
      · rintro ⟨a, ha, hak⟩
        obtain ⟨ha, hne⟩ := List.mem_filter.mp ha
        rcases List.mem_cons.mp ((hmem k').mpr ⟨a, ha, hak⟩) with h | h
        · simp [hak, h] at hne
        · exact h
    have hone : (l.filter fun a => f a = k).splitBy (fun a b => f a == f b) =
        [l.filter fun a => f a = k] := by
      apply List.splitBy_of_isChain hgroup
      apply List.Pairwise.isChain
      apply List.pairwise_of_forall_mem_list
      intro a ha b hb
      have ha := (List.mem_filter.mp ha).2
      have hb := (List.mem_filter.mp hb).2
      simp only [decide_eq_true_eq] at ha hb
      simp [ha, hb]
    conv_lhs => rw [← filter_least_append hl hleast]
    rw [List.splitBy_append, hone, hrest, List.map_cons, List.singleton_append]
    · congr 1
      apply List.map_congr_left
      intro k' hk'
      rw [List.filter_filter]
      apply List.filter_congr
      intro a _
      have hne := (hlt k' hk').ne'
      by_cases hak : f a = k' <;> simp [hak, hne]
    · intro a ha b hb
      have ha := (List.mem_filter.mp (List.mem_of_mem_getLast? ha)).2
      have hb := (List.mem_filter.mp (List.mem_of_mem_head? hb)).2
      simp only [decide_eq_true_eq] at ha hb
      simp [ha, Ne.symm hb]

end Grouping
end EntroQ.Foundation
