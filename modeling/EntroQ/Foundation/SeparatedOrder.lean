import EntroQ.Foundation.PrefixCode

/-! # Order of texts joined by a separator

Texts are compared letter by letter. If the separator is the least letter and the first texts do
not contain it, joined texts are ordered like the pairs they are made of. A bound that contains
the separator itself can fall between a first text and the joined ones that begin with it. -/

namespace EntroQ.Foundation
variable {α : Type*} [LinearOrder α] {sep : α}

theorem append_separator_lt_iff (hsep : ∀ a, sep ≤ a) {x y : List α} (hx : sep ∉ x) (hy : sep ∉ y)
    (u v : List α) : x ++ sep :: u < y ++ sep :: v ↔ x < y ∨ x = y ∧ u < v := by
  induction x generalizing y with
  | nil =>
    cases y with
    | nil => simp
    | cons b y =>
      have hb : sep < b := lt_of_le_of_ne (hsep b) fun h => hy (by simp [h])
      simp [List.cons_lt_cons_iff, hb]
  | cons a x ih =>
    rw [List.mem_cons, not_or] at hx
    cases y with
    | nil => simp [List.cons_lt_cons_iff, hsep a, Ne.symm hx.1]
    | cons b y =>
      rw [List.mem_cons, not_or] at hy
      simp only [List.cons_append, List.cons_lt_cons_iff, ih hx.2 hy.2, List.cons.injEq]
      tauto

/-- A joined text is before a bound if its first text is, unless the bound follows that text and
the separator with something at or before the rest. -/
theorem append_separator_lt_bound_iff (hsep : ∀ a, sep ≤ a) {x : List α} (u b : List α) :
    x ++ sep :: u < b ↔ x < b ∧ ∀ z, b = x ++ sep :: z → u < z := by
  induction x generalizing b with
  | nil =>
    cases b with
    | nil => simp
    | cons c b =>
      rcases eq_or_lt_of_le (hsep c) with rfl | hc
      · simp
      · simp [List.cons_lt_cons_iff, hc, hc.ne']
  | cons a x ih =>
    cases b with
    | nil => simp
    | cons c b =>
      simp only [List.cons_append, List.cons_lt_cons_iff, ih, List.cons.injEq]
      constructor
      · rintro (h | ⟨rfl, h, hz⟩)
        · exact ⟨.inl h, fun z hz => absurd hz.1 h.ne'⟩
        · exact ⟨.inr ⟨rfl, h⟩, fun z hb => hz z hb.2⟩
      · rintro ⟨h | ⟨rfl, h⟩, hz⟩
        · exact .inl h
        · exact .inr ⟨rfl, h, fun z hb => hz z ⟨rfl, hb⟩⟩

/-- What begins with a text and the separator lies between that and the text followed by the
next letter. -/
theorem between_iff_begins (hsep : ∀ a, sep ≤ a) {next : α} (hnext : ∀ a, a < next ↔ a = sep)
    (k m : List α) : ¬m < k ++ [sep] ∧ m < k ++ [next] ↔ ∃ t, m = k ++ sep :: t := by
  induction k generalizing m with
  | nil =>
    cases m with
    | nil => simp
    | cons c m =>
      simp [List.cons_lt_cons_iff, hnext, hsep c]
  | cons a k ih =>
    cases m with
    | nil => simp
    | cons c m =>
      have hih := ih m
      simp only [List.cons_append, List.cons_lt_cons_iff, List.cons.injEq, exists_and_left,
        ← hih]
      rcases lt_trichotomy c a with h | rfl | h
      · simp [h, h.ne]
      · simp
      · simp [h.ne', h.not_gt]

/-- A text of three parts begins with another text and a separator only if that is its first part
or its first two. -/
theorem separated_begins_iff {p s i k : List α} (hp : sep ∉ p) (hs : sep ∉ s) (hi : sep ∉ i) :
    (∃ t, p ++ sep :: (s ++ sep :: i) = k ++ sep :: t) ↔ k = p ∨ k = p ++ sep :: s := by
  constructor
  · rintro ⟨t, ht⟩
    by_cases hk : sep ∈ k
    · right
      obtain ⟨k₁, k₂, rfl, hk₁⟩ := List.eq_append_cons_of_mem hk
      rw [List.append_assoc, List.cons_append] at ht
      obtain ⟨rfl, hrest⟩ := append_separator_inj hp hk₁ ht
      -- a second separator in what is left would be one in the last part
      by_cases hk₂ : sep ∈ k₂
      · obtain ⟨k₃, k₄, rfl, hk₃⟩ := List.eq_append_cons_of_mem hk₂
        rw [List.append_assoc, List.cons_append] at hrest
        obtain ⟨-, rfl⟩ := append_separator_inj hs hk₃ hrest
        exact absurd (by simp) hi
      · rw [(append_separator_inj hs hk₂ hrest).1]
    · exact .inl (append_separator_inj hp hk ht).1.symm
  · rintro (rfl | rfl)
    · exact ⟨_, rfl⟩
    · exact ⟨i, by simp⟩

end EntroQ.Foundation
