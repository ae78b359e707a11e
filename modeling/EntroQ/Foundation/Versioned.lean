import Mathlib

/-! # Stores with versions

Every value has a version that each write moves on. A write names the version it was made from and
fails if the value has moved since, or is gone; a whole batch fails with any of its writes. -/

namespace EntroQ.Foundation

structure Cell (ν : Type*) where
  version : ℕ := 0
  value : ν
  deriving DecidableEq

abbrev Versioned (κ ν : Type*) := AList fun _ : κ => Cell ν

namespace Versioned
variable {κ ν : Type*} [DecidableEq κ] (m : Versioned κ ν) (k : κ)

def value? : Option ν := (m.lookup k).map (·.value)

def add (v : ν) : Option (Versioned κ ν) :=
  if (m.lookup k).isSome then none else some (m.insert k { value := v })

def changeAt (version : ℕ) (v : ν) : Option (Versioned κ ν) :=
  match m.lookup k with
  | some c => if c.version = version then some (m.insert k ⟨version + 1, v⟩) else none
  | none => none

def deleteAt (version : ℕ) : Option (Versioned κ ν) :=
  match m.lookup k with
  | some c => if c.version = version then some (m.erase k) else none
  | none => none

/-- The version moves on, the value stays. -/
def touch : Versioned κ ν :=
  match m.lookup k with
  | some c => m.insert k { c with version := c.version + 1 }
  | none => m

def addAll (l : List (κ × ν)) : Option (Versioned κ ν) := l.foldlM (fun m x => m.add x.1 x.2) m

def deleteAll (l : List (κ × ℕ)) : Option (Versioned κ ν) :=
  l.foldlM (fun m x => m.deleteAt x.1 x.2) m

variable {m k} {m' : Versioned κ ν} {v : ν} {version : ℕ}

theorem lookup_insert_eq (c : Cell ν) (j : κ) :
    (m.insert k c).lookup j = if j = k then some c else m.lookup j := by
  split_ifs with h
  · subst h
    exact AList.lookup_insert m
  · exact AList.lookup_insert_ne h

theorem lookup_erase_eq (j : κ) :
    (m.erase k).lookup j = if j = k then none else m.lookup j := by
  split_ifs with h
  · subst h
    exact AList.lookup_erase j m
  · exact AList.lookup_erase_ne h

theorem mem_entries {c : Cell ν} : (⟨k, c⟩ : Sigma fun _ : κ => Cell ν) ∈ m.entries ↔
    m.lookup k = some c :=
  AList.mem_lookup_iff.symm

theorem entries_eq_nil_iff : m.entries = [] ↔ ∀ j, m.value? j = none := by
  simp only [value?, Option.map_eq_none_iff, AList.lookup_eq_none]
  constructor
  · intro hm j hj
    rw [AList.mem_keys, AList.keys, hm] at hj
    exact List.not_mem_nil hj
  · intro hm
    rw [List.eq_nil_iff_forall_not_mem]
    intro e he
    exact hm e.1 (AList.mem_keys.mpr (List.mem_map_of_mem he))

theorem lookup_add (h : m.add k v = some m') :
    m.lookup k = none ∧
      ∀ j, m'.lookup j = if j = k then some { value := v } else m.lookup j := by
  unfold add at h
  split_ifs at h with hk
  cases h
  exact ⟨Option.not_isSome_iff_eq_none.mp hk, lookup_insert_eq _⟩

theorem lookup_changeAt (h : m.changeAt k version v = some m') :
    (∃ w, m.lookup k = some ⟨version, w⟩) ∧
      ∀ j, m'.lookup j = if j = k then some ⟨version + 1, v⟩ else m.lookup j := by
  unfold changeAt at h
  split at h
  next c hc =>
    split_ifs at h with hv
    cases h
    subst hv
    exact ⟨⟨c.value, hc⟩, lookup_insert_eq _⟩
  next => cases h

theorem lookup_deleteAt (h : m.deleteAt k version = some m') :
    (∃ w, m.lookup k = some ⟨version, w⟩) ∧
      ∀ j, m'.lookup j = if j = k then none else m.lookup j := by
  unfold deleteAt at h
  split at h
  next c hc =>
    split_ifs at h with hv
    cases h
    subst hv
    exact ⟨⟨c.value, hc⟩, lookup_erase_eq⟩
  next => cases h

@[simp] theorem value?_touch (j : κ) : (m.touch k).value? j = m.value? j := by
  unfold touch
  split
  next c hc =>
    simp only [value?, lookup_insert_eq]
    split_ifs with hj
    · rw [hj, hc]
      rfl
    · rfl
  next => rfl

/-- After a batch of new values there are those and what there was. -/
theorem value?_addAll {l : List (κ × ν)} (h : m.addAll l = some m') (j : κ) (v : ν) :
    m'.value? j = some v ↔ m.value? j = some v ∨ (j, v) ∈ l := by
  induction l generalizing m with
  | nil =>
    cases h
    simp
  | cons x l ih =>
    obtain ⟨m₁, h₁, h₂⟩ := Option.bind_eq_some_iff.mp h
    obtain ⟨hfree, hlookup⟩ := lookup_add h₁
    rw [ih h₂, value?, hlookup, List.mem_cons, Prod.ext_iff]
    by_cases hx : j = x.1
    · subst hx
      simp [value?, hfree, eq_comm]
    · simp [hx, value?]

/-- After a batch of deletions there is what was not deleted. -/
theorem value?_deleteAll {l : List (κ × ℕ)} (h : m.deleteAll l = some m') (j : κ) (v : ν) :
    m'.value? j = some v ↔ m.value? j = some v ∧ j ∉ l.map Prod.fst := by
  induction l generalizing m with
  | nil =>
    cases h
    simp
  | cons x l ih =>
    obtain ⟨m₁, h₁, h₂⟩ := Option.bind_eq_some_iff.mp h
    obtain ⟨-, hlookup⟩ := lookup_deleteAt h₁
    rw [ih h₂, value?, hlookup, List.map_cons, List.mem_cons, not_or]
    by_cases hx : j = x.1
    · simp [hx]
    · simp [hx, value?]

end Versioned
end EntroQ.Foundation
