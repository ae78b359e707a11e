import Mathlib

/-! # The sift loops of an implicit binary heap

A heap here is any state that reports a length, compares two positions and swaps two positions.
The loops `up` and `down` see nothing else of it. A reading `key` of the positions into a linear
order turns the comparison into `<`, and the loops restore `Ordered` from the disorder a push, a
removal or a changed key leaves. Whatever a swap preserves, the loops preserve. -/

namespace EntroQ.Foundation.Heap

/-- What the sift loops use of a heap. -/
structure Interface (σ : Type*) where
  len : σ → ℕ
  less : σ → ℕ → ℕ → Bool
  swap : σ → ℕ → ℕ → σ

section Loops
variable {σ : Type*} (I : Interface σ)

/-- Move position `j` towards the root while it is before its parent. -/
def upLoop : ℕ → σ → ℕ → σ
  | 0, s, _ => s
  | fuel + 1, s, j =>
    if (j - 1) / 2 = j ∨ I.less s j ((j - 1) / 2) = false then s
    else upLoop fuel (I.swap s ((j - 1) / 2) j) ((j - 1) / 2)

def up (s : σ) (j : ℕ) : σ := upLoop I (j + 1) s j

/-- The earlier of the two children of `i` among the first `n` positions. -/
def earlierChild (s : σ) (i n : ℕ) : ℕ :=
  if 2 * i + 2 < n ∧ I.less s (2 * i + 2) (2 * i + 1) = true then 2 * i + 2 else 2 * i + 1

/-- Move position `i` away from the root while its earlier child is before it. -/
def downLoop : ℕ → σ → ℕ → ℕ → σ × ℕ
  | 0, s, i, _ => (s, i)
  | fuel + 1, s, i, n =>
    if n ≤ 2 * i + 1 ∨ I.less s (earlierChild I s i n) i = false then (s, i)
    else downLoop fuel (I.swap s i (earlierChild I s i n)) (earlierChild I s i n) n

/-- The second component reports whether the position moved. -/
def down (s : σ) (i n : ℕ) : σ × Bool :=
  ((downLoop I n s i n).1, decide (i < (downLoop I n s i n).2))

/-- Restore the order after the key of position `i` changed. -/
def fix (s : σ) (i : ℕ) : σ :=
  if (down I s i (I.len s)).2 then (down I s i (I.len s)).1 else up I (down I s i (I.len s)).1 i

/-- Bring position `i` to the end, where it is then dropped, with the others in order. -/
def sinkToEnd (s : σ) (i : ℕ) : σ :=
  if I.len s - 1 = i then s
  else
    let t := I.swap s i (I.len s - 1)
    if (down I t i (I.len s - 1)).2 then (down I t i (I.len s - 1)).1
    else up I (down I t i (I.len s - 1)).1 i

end Loops

section Order
variable {κ : Type*} [LinearOrder κ]

/-- Every position among the first `n` is at or after its parent. -/
def Ordered (v : ℕ → κ) (n : ℕ) : Prop :=
  ∀ k, 0 < k → k < n → v ((k - 1) / 2) ≤ v k

/-- Ordered but for the pair of `j` and its parent. -/
structure UpOrder (v : ℕ → κ) (n j : ℕ) : Prop where
  off : ∀ k, 0 < k → k < n → k ≠ j → v ((k - 1) / 2) ≤ v k
  grand : ∀ k, 0 < k → k < n → (k - 1) / 2 = j → 0 < j → v ((j - 1) / 2) ≤ v k

/-- Ordered but for the pairs of `i` and its children. -/
structure DownOrder (v : ℕ → κ) (n i : ℕ) : Prop where
  off : ∀ k, 0 < k → k < n → (k - 1) / 2 ≠ i → v ((k - 1) / 2) ≤ v k
  grand : ∀ k, 0 < k → k < n → (k - 1) / 2 = i → 0 < i → v ((i - 1) / 2) ≤ v k

/-- Ordered but for every pair that `i` is in. -/
structure OffOrder (v : ℕ → κ) (n i : ℕ) : Prop where
  off : ∀ k, 0 < k → k < n → k ≠ i → (k - 1) / 2 ≠ i → v ((k - 1) / 2) ≤ v k
  grand : ∀ k, 0 < k → k < n → (k - 1) / 2 = i → 0 < i → v ((i - 1) / 2) ≤ v k

theorem DownOrder.toOff {v : ℕ → κ} {n i : ℕ} (h : DownOrder v n i) : OffOrder v n i :=
  ⟨fun k h0 hk _ hp => h.off k h0 hk hp, h.grand⟩

/-- A changed key at `i` disturbs only the pairs that `i` is in. -/
theorem Ordered.offOrder {v w : ℕ → κ} {n i : ℕ} (h : Ordered v n)
    (hw : ∀ k, k < n → k ≠ i → w k = v k) : OffOrder w n i := by
  constructor
  · intro k h0 hk hki hp
    rw [hw k hk hki, hw _ (by omega) hp]
    exact h k h0 hk
  · intro k h0 hk hp hi
    rw [hw k hk (by omega), hw _ (by omega) (by omega)]
    have hik := h i hi (by omega)
    have hkk := h k h0 hk
    rw [hp] at hkk
    exact hik.trans hkk

theorem Ordered.mono {v : ℕ → κ} {n m : ℕ} (h : Ordered v n) (hm : m ≤ n) : Ordered v m :=
  fun k h0 hk => h k h0 (lt_of_lt_of_le hk hm)

theorem UpOrder.done {v : ℕ → κ} {n j : ℕ} (h : UpOrder v n j)
    (hj : 0 < j → v ((j - 1) / 2) ≤ v j) : Ordered v n := by
  intro k h0 hk
  by_cases hkj : k = j
  · subst hkj; exact hj h0
  · exact h.off k h0 hk hkj

theorem OffOrder.toUp {v : ℕ → κ} {n i : ℕ} (h : OffOrder v n i)
    (hc : ∀ k, 0 < k → k < n → (k - 1) / 2 = i → v i ≤ v k) : UpOrder v n i := by
  refine ⟨fun k h0 hk hki => ?_, h.grand⟩
  by_cases hp : (k - 1) / 2 = i
  · rw [hp]; exact hc k h0 hk hp
  · exact h.off k h0 hk hki hp

theorem DownOrder.done {v : ℕ → κ} {n i : ℕ} (h : DownOrder v n i)
    (hc : ∀ k, 0 < k → k < n → (k - 1) / 2 = i → v i ≤ v k) : Ordered v n := by
  intro k h0 hk
  by_cases hp : (k - 1) / 2 = i
  · rw [hp]; exact hc k h0 hk hp
  · exact h.off k h0 hk hp

omit [LinearOrder κ] in
theorem swap_other {v w : ℕ → κ} {i j k : ℕ} (hw : ∀ m, w m = v (Equiv.swap i j m))
    (hi : k ≠ i) (hj : k ≠ j) : w k = v k := by
  rw [hw, Equiv.swap_apply_of_ne_of_ne hi hj]

/-- Swapping `j` with its later parent moves the one disordered pair up. -/
theorem UpOrder.step {v w : ℕ → κ} {n j : ℕ} (h : UpOrder v n j) (h0 : 0 < j) (hj : j < n)
    (hlt : v j < v ((j - 1) / 2)) (hw : ∀ m, w m = v (Equiv.swap ((j - 1) / 2) j m)) :
    UpOrder w n ((j - 1) / 2) := by
  have hwi : w ((j - 1) / 2) = v j := by rw [hw, Equiv.swap_apply_left]
  have hwj : w j = v ((j - 1) / 2) := by rw [hw, Equiv.swap_apply_right]
  have hij : (j - 1) / 2 < j := by omega
  constructor
  · intro k hk0 hk hki
    by_cases hkj : k = j
    · subst hkj; rw [hwi, hwj]; exact hlt.le
    rw [swap_other hw hki hkj]
    by_cases hpj : (k - 1) / 2 = j
    · rw [hpj, hwj]; exact h.grand k hk0 hk hpj h0
    by_cases hpi : (k - 1) / 2 = (j - 1) / 2
    · have hko := h.off k hk0 hk hkj
      rw [hpi] at hko
      rw [hpi, hwi]; exact hlt.le.trans hko
    · rw [swap_other hw hpi hpj]; exact h.off k hk0 hk hkj
  · intro k hk0 hk hp hi0
    have hpi := h.off ((j - 1) / 2) hi0 (by omega) (by omega)
    rw [swap_other hw (by omega) (by omega)]
    by_cases hkj : k = j
    · subst hkj; rw [hwj]; exact hpi
    · have hko := h.off k hk0 hk hkj
      rw [hp] at hko
      rw [swap_other hw (by omega) hkj]; exact hpi.trans hko

/-- Swapping `i` with its earlier child moves the disorder down and settles `i`. -/
theorem OffOrder.step {v w : ℕ → κ} {n i c : ℕ} (h : OffOrder v n i) (hc0 : 0 < c) (hc : c < n)
    (hp : (c - 1) / 2 = i) (hlt : v c < v i)
    (hmin : ∀ k, 0 < k → k < n → (k - 1) / 2 = i → v c ≤ v k)
    (hw : ∀ m, w m = v (Equiv.swap i c m)) : DownOrder w n c := by
  have hwi : w i = v c := by rw [hw, Equiv.swap_apply_left]
  have hwc : w c = v i := by rw [hw, Equiv.swap_apply_right]
  have hic : i < c := by omega
  constructor
  · intro k hk0 hk hkp
    by_cases hki : k = i
    · subst hki
      rw [hwi, swap_other hw (by omega) (by omega)]
      exact h.grand c hc0 hc hp hk0
    by_cases hkc : k = c
    · subst hkc; rw [hp, hwi, hwc]; exact hlt.le
    rw [swap_other hw hki hkc]
    by_cases hpi : (k - 1) / 2 = i
    · rw [hpi, hwi]; exact hmin k hk0 hk hpi
    · rw [swap_other hw hpi hkp]; exact h.off k hk0 hk hki hpi
  · intro k hk0 hk hkp _
    have hko := h.off k hk0 hk (by omega) (by omega)
    rw [hkp] at hko
    rw [hp, hwi, swap_other hw (by omega) (by omega)]
    exact hko

end Order

/-- The reading `key` agrees with the interface: comparison is `<`, a swap swaps two keys. -/
structure Lawful {σ κ : Type*} [LinearOrder κ] (I : Interface σ) (key : σ → ℕ → κ) : Prop where
  less_iff : ∀ s i j, i < I.len s → j < I.len s → (I.less s i j = true ↔ key s i < key s j)
  len_swap : ∀ s i j, i < I.len s → j < I.len s → I.len (I.swap s i j) = I.len s
  key_swap : ∀ s i j, i < I.len s → j < I.len s →
    ∀ k, key (I.swap s i j) k = key s (Equiv.swap i j k)

section Lawful
variable {σ κ : Type*} [LinearOrder κ] {I : Interface σ} {key : σ → ℕ → κ}

theorem Lawful.less_false (hI : Lawful I key) {s : σ} {i j : ℕ} (hi : i < I.len s)
    (hj : j < I.len s) (h : I.less s i j = false) : key s j ≤ key s i := by
  have hn : ¬ key s i < key s j := by rw [← hI.less_iff s i j hi hj, h]; simp
  exact not_lt.mp hn

theorem earlierChild_spec (hI : Lawful I key) {s : σ} {i n : ℕ} (hn : n ≤ I.len s)
    (hc : 2 * i + 1 < n) :
    0 < earlierChild I s i n ∧ earlierChild I s i n < n ∧ (earlierChild I s i n - 1) / 2 = i ∧
      ∀ k, 0 < k → k < n → (k - 1) / 2 = i → key s (earlierChild I s i n) ≤ key s k := by
  unfold earlierChild
  split_ifs with h
  · have hlt := (hI.less_iff s (2 * i + 2) (2 * i + 1) (by omega) (by omega)).mp h.2
    refine ⟨by omega, h.1, by omega, fun k h0 hk hp => ?_⟩
    rcases (by omega : k = 2 * i + 1 ∨ k = 2 * i + 2) with rfl | rfl
    · exact hlt.le
    · exact le_rfl
  · refine ⟨by omega, hc, by omega, fun k h0 hk hp => ?_⟩
    rcases (by omega : k = 2 * i + 1 ∨ k = 2 * i + 2) with rfl | rfl
    · exact le_rfl
    · have hf : I.less s (2 * i + 2) (2 * i + 1) = false := by
        simpa [hk] using h
      exact hI.less_false (by omega) (by omega) hf

theorem upLoop_ordered (hI : Lawful I key) (fuel : ℕ) (s : σ) (j : ℕ) (hf : j < fuel)
    (hj : j < I.len s) {n : ℕ} (hjn : j < n) (hn : n ≤ I.len s) (h : UpOrder (key s) n j) :
    Ordered (key (upLoop I fuel s j)) n := by
  induction fuel generalizing s j with
  | zero => omega
  | succ fuel ih =>
    rw [upLoop]
    split_ifs with hc
    · apply h.done
      intro h0
      rcases hc with hc | hc
      · omega
      · exact hI.less_false hj (by omega) hc
    · obtain ⟨hne, hl⟩ := not_or.mp hc
      have hlt := (hI.less_iff s j ((j - 1) / 2) hj (by omega)).mp (by simpa using hl)
      have hlen := hI.len_swap s ((j - 1) / 2) j (by omega) hj
      apply ih _ _ (by omega) (by omega) (by omega) (by omega)
      exact h.step (by omega) hjn hlt (hI.key_swap s _ _ (by omega) hj)

/-- Either the position stays, already before its children, or it moves and the order is
restored. -/
theorem downLoop_ordered (hI : Lawful I key) (fuel : ℕ) (s : σ) (i n : ℕ) (hf : n ≤ i + fuel)
    (hn : n ≤ I.len s) (h : OffOrder (key s) n i) :
    (downLoop I fuel s i n = (s, i) ∧
        ∀ k, 0 < k → k < n → (k - 1) / 2 = i → key s i ≤ key s k) ∨
      (i < (downLoop I fuel s i n).2 ∧ Ordered (key (downLoop I fuel s i n).1) n) := by
  induction fuel generalizing s i with
  | zero => exact .inl ⟨rfl, fun k h0 hk hp => by omega⟩
  | succ fuel ih =>
    rw [downLoop]
    split_ifs with hc
    · refine .inl ⟨rfl, fun k h0 hk hp => ?_⟩
      rcases hc with hc | hc
      · omega
      · obtain ⟨_, hcn, _, hmin⟩ := earlierChild_spec hI hn (by omega : 2 * i + 1 < n)
        exact (hI.less_false (by omega) (by omega) hc).trans (hmin k h0 hk hp)
    · obtain ⟨hin, hl⟩ := not_or.mp hc
      obtain ⟨hc0, hcn, hcp, hmin⟩ := earlierChild_spec hI hn (by omega : 2 * i + 1 < n)
      have hlt := (hI.less_iff s (earlierChild I s i n) i (by omega) (by omega)).mp
        (by simpa using hl)
      have hlen := hI.len_swap s i (earlierChild I s i n) (by omega) (by omega)
      have hd := h.step hc0 hcn hcp hlt hmin (hI.key_swap s i _ (by omega) (by omega))
      right
      rcases ih (I.swap s i (earlierChild I s i n)) (earlierChild I s i n) (by omega) (by omega)
        hd.toOff with ⟨he, hle⟩ | ⟨hmv, hord⟩
      · rw [he]
        exact ⟨by omega, hd.done hle⟩
      · exact ⟨by omega, hord⟩

theorem settle_ordered (hI : Lawful I key) (s : σ) (i n : ℕ) (hi : i < n) (hn : n ≤ I.len s)
    (h : OffOrder (key s) n i) :
    Ordered (key (if (down I s i n).2 then (down I s i n).1 else up I (down I s i n).1 i)) n := by
  unfold down
  rcases downLoop_ordered hI n s i n (by omega) hn h with ⟨he, hle⟩ | ⟨hmv, hord⟩
  · rw [he]
    simpa [up] using upLoop_ordered hI (i + 1) s i (by omega) (by omega) hi hn (h.toUp hle)
  · simpa [hmv] using hord

theorem fix_ordered (hI : Lawful I key) (s : σ) (i : ℕ) (hi : i < I.len s)
    (h : OffOrder (key s) (I.len s) i) : Ordered (key (fix I s i)) (I.len s) :=
  settle_ordered hI s i (I.len s) hi le_rfl h

theorem Lawful.less_eq_false (hI : Lawful I key) {s : σ} {i j : ℕ} (hi : i < I.len s)
    (hj : j < I.len s) (h : key s j ≤ key s i) : I.less s i j = false := by
  rw [Bool.eq_false_iff, ne_eq, hI.less_iff s i j hi hj]
  exact not_lt.mpr h

/-- In an ordered heap there is nothing to fix, also at the root of an empty one. -/
theorem fix_of_ordered (hI : Lawful I key) (s : σ) {i : ℕ} (hi : i < I.len s ∨ i = 0)
    (h : Ordered (key s) (I.len s)) : fix I s i = s := by
  have hdown : downLoop I (I.len s) s i (I.len s) = (s, i) := by
    generalize hn : I.len s = n at h
    cases n with
    | zero => rfl
    | succ n =>
      rw [downLoop, if_pos]
      by_cases hc : n + 1 ≤ 2 * i + 1
      · exact .inl hc
      · obtain ⟨hc0, hcn, hcp, -⟩ := earlierChild_spec hI hn.ge (not_le.mp hc)
        have hle := h _ hc0 hcn
        rw [hcp] at hle
        exact .inr (hI.less_eq_false (by omega) (by omega) hle)
  have hup : up I s i = s := by
    rw [up, upLoop, if_pos]
    rcases hi with hi | rfl
    · rcases Nat.eq_zero_or_pos i with rfl | h0
      · exact .inl rfl
      · exact .inr (hI.less_eq_false hi (by omega) (h i h0 hi))
    · exact .inl rfl
  simp [fix, down, hdown, hup]

/-- Only the pair of the last position and its parent is disordered after a push. -/
theorem up_last_ordered (hI : Lawful I key) (s : σ) (h0 : 0 < I.len s)
    (h : Ordered (key s) (I.len s - 1)) :
    Ordered (key (up I s (I.len s - 1))) (I.len s) := by
  apply upLoop_ordered hI _ s _ (by omega) (by omega) (by omega) le_rfl
  exact ⟨fun k hk0 hk hkj => h k hk0 (by omega), fun k hk0 hk hp _ => by omega⟩

theorem sinkToEnd_ordered (hI : Lawful I key) (s : σ) (i : ℕ) (hi : i < I.len s)
    (h : Ordered (key s) (I.len s)) : Ordered (key (sinkToEnd I s i)) (I.len s - 1) := by
  unfold sinkToEnd
  split_ifs with he
  · exact h.mono (by omega)
  · have hlen := hI.len_swap s i (I.len s - 1) hi (by omega)
    apply settle_ordered hI _ i (I.len s - 1) (by omega) (by omega)
    apply (h.mono (by omega : I.len s - 1 ≤ I.len s)).offOrder
    intro k hk hki
    rw [hI.key_swap s i (I.len s - 1) hi (by omega), Equiv.swap_apply_of_ne_of_ne hki (by omega)]

end Lawful

/-! Whatever swaps among the first `n` positions preserve, the loops that stay among them
preserve. -/

section Preservation
variable {σ : Type*} {I : Interface σ} (P : σ → Prop) (n : ℕ)
  (hP : ∀ s i j, i < n → j < n → P s → P (I.swap s i j))

include hP

theorem upLoop_preserves (fuel : ℕ) (s : σ) (j : ℕ) (hj : j < n) (hs : P s) :
    P (upLoop I fuel s j) := by
  induction fuel generalizing s j with
  | zero => exact hs
  | succ fuel ih =>
    rw [upLoop]
    split_ifs with h
    · exact hs
    · exact ih _ _ (by omega) (hP s _ _ (by omega) hj hs)

theorem downLoop_preserves (fuel : ℕ) (s : σ) (i : ℕ) (hs : P s) :
    P (downLoop I fuel s i n).1 := by
  induction fuel generalizing s i with
  | zero => exact hs
  | succ fuel ih =>
    rw [downLoop]
    split_ifs with h
    · exact hs
    · have hc : earlierChild I s i n < n := by
        unfold earlierChild
        split_ifs with hr
        · exact hr.1
        · omega
      exact ih _ _ (hP s _ _ (by omega) hc hs)

theorem settle_preserves (s : σ) (i : ℕ) (hi : i < n) (hs : P s) :
    P (if (down I s i n).2 then (down I s i n).1 else up I (down I s i n).1 i) := by
  have hd : P (down I s i n).1 := downLoop_preserves P n hP n s i hs
  split_ifs
  · exact hd
  · exact upLoop_preserves P n hP _ _ i hi hd

theorem fix_preserves (s : σ) (i : ℕ) (hn : I.len s = n) (hi : i < n) (hs : P s) :
    P (fix I s i) := by
  subst hn
  exact settle_preserves P _ hP s i hi hs

theorem up_preserves (s : σ) (j : ℕ) (hj : j < n) (hs : P s) : P (up I s j) :=
  upLoop_preserves P n hP _ s j hj hs

/-- The loops of `sinkToEnd` leave the last position alone. -/
theorem sinkToEnd_preserves (s : σ) (i : ℕ) (hn : I.len s - 1 = n) (hi : i ≤ n)
    (hlast : i = n → P s) (hswap : i ≠ n → P (I.swap s i n)) : P (sinkToEnd I s i) := by
  unfold sinkToEnd
  rw [hn]
  split_ifs with he
  · exact hlast he.symm
  · exact settle_preserves P n hP _ i (by omega) (hswap (Ne.symm he))

end Preservation
end EntroQ.Foundation.Heap
