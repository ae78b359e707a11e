import EntroQ.Foundation.FiniteMap

/-! # Registries whose entries exist while they are used

An entry is made when it is first acquired, and dropped when it is released idle. Acquiring and
releasing entries of a registry that keeps no idle ones changes nothing. -/

namespace EntroQ.Foundation.Registry
variable {κ ν : Type*} [DecidableEq κ] (new : κ → ν) (idle : ν → Bool)

/-- Make the entries that are not there. -/
def acquire (ks : List κ) (m : FMap κ ν) : FMap κ ν :=
  ks.foldl (fun m k => if k ∈ m then m else m.insert k (new k)) m

/-- Drop the idle ones among the entries, the last first. -/
def release (ks : List κ) (m : FMap κ ν) : FMap κ ν :=
  ks.foldr (fun k m => if (m.lookup k).any idle then m.erase k else m) m

/-- Change one of the entries held, or `none` if it is not held or the change fails. -/
def modify (held : List κ) (k : κ) (f : ν → Option ν) (m : FMap κ ν) : Option (FMap κ ν) :=
  if k ∈ held then (m.lookup k).bind (fun v => (f v).map (fun v' => m.insert k v')) else none

/-- Writes in place, one after the other: what is reached where one of them fails, and whether all
are made. -/
def writeAll {σ α : Type*} (write : σ → α → Option σ) : σ → List α → σ × Bool
  | s, [] => (s, true)
  | s, a :: as =>
    match write s a with
    | some s' => writeAll write s' as
    | none => (s, false)

theorem writeAll_of_foldlM {σ α : Type*} {write : σ → α → Option σ} {as : List α} {s s' : σ}
    (h : as.foldlM write s = some s') : writeAll write s as = (s', true) := by
  induction as generalizing s with
  | nil =>
    cases h
    rfl
  | cons a as ih =>
    obtain ⟨s₁, hs₁, h⟩ := Option.bind_eq_some_iff.mp h
    rw [writeAll, hs₁]
    exact ih h

theorem lookup_acquire (ks : List κ) (m : FMap κ ν) (k : κ) :
    (acquire new ks m).lookup k =
      if k ∈ ks then some ((m.lookup k).getD (new k)) else m.lookup k := by
  induction ks generalizing m with
  | nil => simp [acquire]
  | cons j ks ih =>
    change (acquire new ks (if j ∈ m then m else m.insert j (new j))).lookup k = _
    rw [ih]
    by_cases hj : j ∈ m
    · rw [if_pos hj]
      by_cases hk : k = j
      · subst hk
        obtain ⟨v, hv⟩ := Finmap.mem_iff.mp hj
        simp [hv]
      · simp [hk]
    · rw [if_neg hj, FMap.lookup_insert]
      by_cases hk : k = j
      · subst hk
        simp [Finmap.lookup_eq_none.mpr hj]
      · simp [hk]

theorem lookup_release (ks : List κ) (m : FMap κ ν) (k : κ) :
    (release idle ks m).lookup k =
      if k ∈ ks then (m.lookup k).filter (fun v => !idle v) else m.lookup k := by
  induction ks with
  | nil => simp [release]
  | cons j ks ih =>
    change (if ((release idle ks m).lookup j).any idle then (release idle ks m).erase j
      else release idle ks m).lookup k = _
    by_cases hk : k = j
    · subst hk
      have hold : (release idle ks m).lookup k = (m.lookup k).filter (fun v => !idle v) ∨
          (release idle ks m).lookup k = m.lookup k := by
        rw [ih]
        split_ifs
        · exact .inl rfl
        · exact .inr rfl
      simp only [List.mem_cons, true_or, if_true]
      rcases hold with hold | hold <;> rw [hold] <;> cases hm : m.lookup k with
        | none => simp [hold, hm]
        | some v => cases hv : idle v <;> simp [hold, hm, hv, Option.filter]
    · have : (if ((release idle ks m).lookup j).any idle then (release idle ks m).erase j
          else release idle ks m).lookup k = (release idle ks m).lookup k := by
        split_ifs
        · rw [FMap.lookup_erase, if_neg hk]
        · rfl
      rw [this, ih]
      simp [hk]

theorem release_acquire (ks : List κ) (m : FMap κ ν) (hnew : ∀ k, idle (new k) = true)
    (hm : ∀ k v, m.lookup k = some v → idle v = false) :
    release idle ks (acquire new ks m) = m := by
  apply Finmap.ext_lookup
  intro k
  rw [lookup_release, lookup_acquire]
  split_ifs with hk
  · cases hv : m.lookup k with
    | none => simp [hnew, Option.filter]
    | some v => simp [hm k v hv, Option.filter]
  · rfl

/-- A registry that is released after use keeps no idle entry it did not keep before. -/
theorem release_busy (ks : List κ) (m : FMap κ ν)
    (hm : ∀ k v, k ∉ ks → m.lookup k = some v → idle v = false) (k : κ) (v : ν)
    (hv : (release idle ks m).lookup k = some v) : idle v = false := by
  rw [lookup_release] at hv
  split_ifs at hv with hk
  · simpa using (Option.filter_eq_some_iff.mp hv).2
  · exact hm k v hk hv

end EntroQ.Foundation.Registry
