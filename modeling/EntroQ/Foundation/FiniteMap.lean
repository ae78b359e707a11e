import Mathlib

/-! # Finite maps with one value type

A program map is a `Finmap` whose value type does not depend on the key. Two maps are equal
exactly when they answer every lookup alike, so "the map is unchanged" is equality. The lemmas
state a lookup after an update as one conditional, and count keys across an update. -/

namespace EntroQ.Foundation

/-- Two of the facts that listing keys in the order of their texts asks for. -/
instance string_le_isTrans : IsTrans String (· ≤ ·) := inferInstance

instance string_le_antisymm : Std.Antisymm fun a b : String => a ≤ b := inferInstance

/-- A finite map from `κ` to `ν`. -/
abbrev FMap (κ ν : Type*) := Finmap (fun _ : κ => ν)

namespace FMap
variable {κ ν : Type*} [DecidableEq κ]

theorem lookup_insert (m : FMap κ ν) (a b : κ) (v : ν) :
    (m.insert a v).lookup b = if b = a then some v else m.lookup b := by
  split_ifs with h
  · subst h; exact Finmap.lookup_insert m
  · exact Finmap.lookup_insert_of_ne m h

theorem lookup_erase (m : FMap κ ν) (a b : κ) :
    (m.erase a).lookup b = if b = a then none else m.lookup b := by
  split_ifs with h
  · subst h; exact Finmap.lookup_erase b m
  · exact Finmap.lookup_erase_ne h

theorem keys_insert (m : FMap κ ν) (a : κ) (v : ν) :
    (m.insert a v).keys = insert a m.keys := by
  ext b
  simp [Finmap.mem_keys]

theorem card_keys_insert_of_notMem (m : FMap κ ν) (a : κ) (v : ν) (h : m.lookup a = none) :
    (m.insert a v).keys.card = m.keys.card + 1 := by
  rw [keys_insert, Finset.card_insert_of_notMem]
  rw [Finmap.mem_keys]
  exact Finmap.lookup_eq_none.mp h

theorem card_keys_insert_of_mem (m : FMap κ ν) (a : κ) (v w : ν) (h : m.lookup a = some w) :
    (m.insert a v).keys.card = m.keys.card := by
  rw [keys_insert, Finset.insert_eq_of_mem]
  exact Finmap.mem_keys.mpr (Finmap.mem_of_lookup_eq_some h)

theorem card_keys_erase_of_mem (m : FMap κ ν) (a : κ) (w : ν) (h : m.lookup a = some w) :
    (m.erase a).keys.card + 1 = m.keys.card := by
  rw [Finmap.keys_erase]
  exact Finset.card_erase_add_one (Finmap.mem_keys.mpr (Finmap.mem_of_lookup_eq_some h))

theorem erase_of_notMem (m : FMap κ ν) (a : κ) (h : m.lookup a = none) : m.erase a = m := by
  apply Finmap.ext_lookup
  intro b
  rw [lookup_erase]
  split_ifs with hb
  · subst hb; exact h.symm
  · rfl

theorem card_keys_eq_zero_iff (m : FMap κ ν) :
    m.keys.card = 0 ↔ ∀ a, m.lookup a = none := by
  rw [Finset.card_eq_zero]
  constructor
  · intro h a
    rw [Finmap.lookup_eq_none, ← Finmap.mem_keys, h]
    simp
  · intro h
    ext a
    simp [Finmap.mem_keys, ← Finmap.lookup_eq_none, h a]

/-- Every value replaced by what `f` makes of it. -/
def map (f : ν → ν) (m : FMap κ ν) : FMap κ ν :=
  m.liftOn
    (fun a => (⟨a.entries.map (Sigma.map id (fun _ => f)), List.NodupKeys.map₂ _ _ a.nodupKeys⟩ :
      AList (fun _ : κ => ν)).toFinmap)
    (fun a b h => by
      rw [AList.toFinmap_eq]
      exact List.Perm.map _ h)

theorem lookup_map (f : ν → ν) (m : FMap κ ν) (a : κ) :
    (map f m).lookup a = (m.lookup a).map f := by
  induction m using Finmap.induction_on with
  | H m =>
    exact List.dlookup_map₂ a

/-- What a lookup answers for each of the keys. -/
def gather (get : κ → Option ν) (keys : List κ) : FMap κ ν :=
  keys.foldl (fun m k => match get k with
    | some v => m.insert k v
    | none => m) ∅

theorem lookup_gather (get : κ → Option ν) (keys : List κ) (k : κ) :
    (gather get keys).lookup k = if k ∈ keys then get k else none := by
  unfold gather
  induction keys using List.reverseRecOn with
  | nil => simp
  | append_singleton keys k' ih =>
    rw [List.foldl_append, List.foldl_cons, List.foldl_nil]
    by_cases hk : k = k'
    · subst hk
      rw [if_pos (by simp)]
      cases hg : get k with
      | none =>
        dsimp only
        rw [ih, hg, ite_self]
      | some v =>
        dsimp only
        rw [lookup_insert, if_pos rfl]
    · have hmem : k ∈ keys ++ [k'] ↔ k ∈ keys := by simp [hk]
      cases hg : get k' with
      | none =>
        dsimp only
        rw [ih]
        simp only [hmem]
      | some v =>
        dsimp only
        rw [lookup_insert, if_neg hk, ih]
        simp only [hmem]

end FMap

/-! ## Tables written entry by entry

A table is a total function, and a run of writes changes it at the keys written. Writes under
different keys may be read in any order. -/

section Tables
variable {κ ν ω : Type*} [DecidableEq κ] (key : ω → κ) (value : ω → ν)

/-- The table after the writes. -/
def writes (T : κ → ν) (ws : List ω) : κ → ν :=
  ws.foldl (fun T w => Function.update T (key w) (value w)) T

theorem writes_of_notMem (T : κ → ν) (ws : List ω) (k : κ) (h : k ∉ ws.map key) :
    writes key value T ws k = T k := by
  induction ws generalizing T with
  | nil => rfl
  | cons w ws ih =>
    rw [List.map_cons, List.mem_cons, not_or] at h
    change writes key value (Function.update T (key w) (value w)) ws k = T k
    rw [ih _ h.2, Function.update_of_ne h.1]

theorem writes_of_mem (T : κ → ν) (ws : List ω) (hn : (ws.map key).Nodup) (w : ω) (hw : w ∈ ws) :
    writes key value T ws (key w) = value w := by
  induction ws generalizing T with
  | nil => simp at hw
  | cons v ws ih =>
    rw [List.map_cons, List.nodup_cons] at hn
    change writes key value (Function.update T (key v) (value v)) ws (key w) = value w
    rcases List.mem_cons.mp hw with rfl | hw
    · rw [writes_of_notMem _ _ _ _ _ hn.1, Function.update_self]
    · exact ih _ hn.2 hw

end Tables
end EntroQ.Foundation
