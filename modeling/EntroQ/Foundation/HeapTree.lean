import EntroQ.Foundation.HeapInterface

/-! # The tree of an implicit binary heap

A walk from a position to its two children visits the positions below it, the position first.
From the root it visits every position once, and in an ordered heap nothing below a position is
before it. -/

namespace EntroQ.Foundation.Heap

/-- The positions of the first `n` at or below `i`, in the order of the walk. -/
def below (n : ℕ) : ℕ → ℕ → List ℕ
  | 0, _ => []
  | fuel + 1, i => if n ≤ i then [] else i :: (below n fuel (2 * i + 1) ++ below n fuel (2 * i + 2))

theorem below_of_le {n i : ℕ} (fuel : ℕ) (h : n ≤ i) : below n fuel i = [] := by
  cases fuel with
  | zero => rfl
  | succ fuel => rw [below, if_pos h]

theorem below_succ {n i : ℕ} (fuel : ℕ) (h : i < n) :
    below n (fuel + 1) i = i :: (below n fuel (2 * i + 1) ++ below n fuel (2 * i + 2)) := by
  rw [below, if_neg (by omega)]

/-- A position is below `i` if the halving of its number passes the number of `i`, counted
from one. -/
theorem above_iff (i k : ℕ) :
    (∃ d, (k + 1) / 2 ^ d = i + 1) ↔
      k = i ∨ (∃ d, (k + 1) / 2 ^ d = 2 * i + 2) ∨ ∃ d, (k + 1) / 2 ^ d = 2 * i + 3 := by
  constructor
  · rintro ⟨d, hd⟩
    cases d with
    | zero =>
      left
      simpa using hd
    | succ d =>
      right
      rw [Nat.pow_succ, ← Nat.div_div_eq_div_mul] at hd
      rcases (by omega : (k + 1) / 2 ^ d = 2 * i + 2 ∨ (k + 1) / 2 ^ d = 2 * i + 3) with h | h
      · exact .inl ⟨d, h⟩
      · exact .inr ⟨d, h⟩
  · rintro (rfl | ⟨d, hd⟩ | ⟨d, hd⟩)
    · exact ⟨0, by simp⟩
    all_goals
      refine ⟨d + 1, ?_⟩
      rw [Nat.pow_succ, ← Nat.div_div_eq_div_mul, hd]
      omega

theorem not_above_of_le {n i k : ℕ} (h : n ≤ i) : ¬(k < n ∧ ∃ d, (k + 1) / 2 ^ d = i + 1) := by
  rintro ⟨hk, d, hd⟩
  have := Nat.div_le_self (k + 1) (2 ^ d)
  omega

theorem mem_below {n fuel i : ℕ} (hf : n ≤ i + fuel) (k : ℕ) :
    k ∈ below n fuel i ↔ k < n ∧ ∃ d, (k + 1) / 2 ^ d = i + 1 := by
  induction fuel generalizing i with
  | zero => simp [below, not_above_of_le (k := k) (show n ≤ i by omega)]
  | succ fuel ih =>
    by_cases h : n ≤ i
    · simp [below_of_le _ h, not_above_of_le (k := k) h]
    · rw [below_succ fuel (by omega), List.mem_cons, List.mem_append, above_iff,
        ih (show n ≤ 2 * i + 1 + fuel by omega), ih (show n ≤ 2 * i + 2 + fuel by omega)]
      constructor
      · rintro (rfl | ⟨hk, hd⟩ | ⟨hk, hd⟩)
        · exact ⟨by omega, .inl rfl⟩
        · exact ⟨hk, .inr (.inl hd)⟩
        · exact ⟨hk, .inr (.inr hd)⟩
      · rintro ⟨hk, rfl | hd | hd⟩
        · exact .inl rfl
        · exact .inr (.inl ⟨hk, hd⟩)
        · exact .inr (.inr ⟨hk, hd⟩)

theorem siblings_disjoint {i m d e : ℕ} (hd : m / 2 ^ d = 2 * i + 2) (he : m / 2 ^ e = 2 * i + 3) :
    False := by
  rcases lt_trichotomy d e with h | rfl | h
  · obtain ⟨c, rfl⟩ := Nat.exists_eq_add_of_lt h
    rw [Nat.add_assoc, Nat.pow_add, ← Nat.div_div_eq_div_mul, hd] at he
    have := Nat.div_le_self (2 * i + 2) (2 ^ (c + 1))
    omega
  · omega
  · obtain ⟨c, rfl⟩ := Nat.exists_eq_add_of_lt h
    rw [Nat.add_assoc, Nat.pow_add, ← Nat.div_div_eq_div_mul, he, Nat.pow_succ,
      ← Nat.div_div_eq_div_mul] at hd
    have := Nat.div_le_self (2 * i + 3) (2 ^ c)
    omega

theorem nodup_below {n fuel i : ℕ} (hf : n ≤ i + fuel) : (below n fuel i).Nodup := by
  induction fuel generalizing i with
  | zero => exact List.nodup_nil
  | succ fuel ih =>
    by_cases h : n ≤ i
    · simp [below_of_le _ h]
    · have hl : n ≤ 2 * i + 1 + fuel := by omega
      have hr : n ≤ 2 * i + 2 + fuel := by omega
      rw [below_succ fuel (by omega), List.nodup_cons, List.nodup_append']
      refine ⟨?_, ih hl, ih hr, ?_⟩
      · -- the positions below a child come after their parent
        rw [List.mem_append, mem_below hl, mem_below hr]
        rintro (⟨-, d, hd⟩ | ⟨-, d, hd⟩)
        all_goals
          have := Nat.div_le_self (i + 1) (2 ^ d)
          omega
      · intro k hkl hkr
        obtain ⟨-, d, hd⟩ := (mem_below hl k).mp hkl
        obtain ⟨-, e, he⟩ := (mem_below hr k).mp hkr
        exact siblings_disjoint hd he

/-- The walk from the root visits every position once. -/
theorem below_root_perm {n fuel : ℕ} (hf : n ≤ fuel) : (below n fuel 0).Perm (List.range n) := by
  rw [List.perm_ext_iff_of_nodup (nodup_below (by omega)) List.nodup_range]
  intro k
  rw [mem_below (by omega), List.mem_range, and_iff_left_iff_imp]
  intro _
  refine ⟨Nat.log 2 (k + 1), ?_⟩
  have hle := Nat.pow_log_le_self 2 (show k + 1 ≠ 0 by omega)
  have hlt := Nat.lt_pow_succ_log_self (show 1 < 2 by omega) (k + 1)
  rw [Nat.pow_succ] at hlt
  exact Nat.div_eq_of_lt_le (by omega) (by omega)

theorem lt_of_mem_below {n fuel i k : ℕ} (hk : k ∈ below n fuel i) : i < n := by
  by_contra h
  rw [below_of_le fuel (by omega)] at hk
  exact List.not_mem_nil hk

theorem Ordered.le_below {κ : Type*} [LinearOrder κ] {v : ℕ → κ} {n fuel i k : ℕ}
    (h : Ordered v n) (hk : k ∈ below n fuel i) : v i ≤ v k := by
  induction fuel generalizing i with
  | zero => simp [below] at hk
  | succ fuel ih =>
    rw [below_succ fuel (lt_of_mem_below hk), List.mem_cons, List.mem_append] at hk
    rcases hk with rfl | hk | hk
    · exact le_rfl
    · have hi := h (2 * i + 1) (by omega) (lt_of_mem_below hk)
      rw [show (2 * i + 1 - 1) / 2 = i by omega] at hi
      exact hi.trans (ih hk)
    · have hi := h (2 * i + 2) (by omega) (lt_of_mem_below hk)
      rw [show (2 * i + 2 - 1) / 2 = i by omega] at hi
      exact hi.trans (ih hk)

end EntroQ.Foundation.Heap
