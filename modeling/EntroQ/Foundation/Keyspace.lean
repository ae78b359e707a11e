import EntroQ.Foundation.FiniteMap

/-! # A keyspace of hashes, sorted sets and sets

A server keeps a hash, a sorted set and a set under each key; one that is empty is as good as
absent. Commands change it one at a time, and a block of commands is made as one. -/

namespace EntroQ.Foundation

structure Keyspace (κ η μ : Type*) where
  hashes : κ → Option η := fun _ => none
  zsets : κ → FMap μ ℤ := fun _ => ∅
  sets : κ → Finset μ := fun _ => ∅

inductive Command (κ η μ : Type*)
  | hset (key : κ) (hash : η)
  | del (key : κ)
  | zadd (key : κ) (member : μ) (score : ℤ)
  | zrem (key : κ) (member : μ)
  | sadd (key : κ) (member : μ)
  | srem (key : κ) (member : μ)
  deriving DecidableEq

def Command.hashKey? {κ η μ : Type*} : Command κ η μ → Option κ
  | .hset k _ => some k
  | .del k => some k
  | _ => none

/-- The place in a sorted set that the command writes or clears. -/
def Command.member? {κ η μ : Type*} : Command κ η μ → Option (κ × μ)
  | .zadd k m _ => some (k, m)
  | .zrem k m => some (k, m)
  | _ => none

namespace Keyspace
variable {κ η μ : Type*} [DecidableEq κ] [DecidableEq μ]

def run (s : Keyspace κ η μ) : Command κ η μ → Keyspace κ η μ
  | .hset k h => { s with hashes := Function.update s.hashes k (some h) }
  | .del k => { s with hashes := Function.update s.hashes k none }
  | .zadd k m x => { s with zsets := Function.update s.zsets k ((s.zsets k).insert m x) }
  | .zrem k m => { s with zsets := Function.update s.zsets k ((s.zsets k).erase m) }
  | .sadd k m => { s with sets := Function.update s.sets k (insert m (s.sets k)) }
  | .srem k m => { s with sets := Function.update s.sets k ((s.sets k).erase m) }

def exec (s : Keyspace κ η μ) (block : List (Command κ η μ)) : Keyspace κ η μ :=
  block.foldl run s

theorem exec_append (s : Keyspace κ η μ) (b b' : List (Command κ η μ)) :
    s.exec (b ++ b') = (s.exec b).exec b' :=
  List.foldl_append

omit [DecidableEq κ] in
theorem zsets_eq_empty_iff (s : Keyspace κ η μ) (k : κ) :
    s.zsets k = ∅ ↔ ∀ m, (s.zsets k).lookup m = none := by
  constructor
  · intro h m
    rw [h, Finmap.lookup_empty]
  · intro h
    apply Finmap.ext_lookup
    intro m
    rw [h, Finmap.lookup_empty]

variable {s : Keyspace κ η μ} {k : κ} {m : μ}

@[simp] theorem exec_nil (s : Keyspace κ η μ) : s.exec [] = s := rfl

theorem exec_cons (s : Keyspace κ η μ) (c : Command κ η μ) (b : List (Command κ η μ)) :
    s.exec (c :: b) = (s.run c).exec b :=
  rfl

@[simp] theorem zsets_run_hset (k : κ) (h : η) : (s.run (.hset k h)).zsets = s.zsets := rfl
@[simp] theorem zsets_run_del (k : κ) : (s.run (.del k)).zsets = s.zsets := rfl
@[simp] theorem zsets_run_sadd (k : κ) (m : μ) : (s.run (.sadd k m)).zsets = s.zsets := rfl

theorem lookup_run_zadd (k' : κ) (m' : μ) (x : ℤ) :
    ((s.run (.zadd k' m' x)).zsets k).lookup m =
      if k = k' ∧ m = m' then some x else (s.zsets k).lookup m := by
  change (Function.update s.zsets k' _ k).lookup m = _
  by_cases hk : k = k'
  · subst hk
    rw [Function.update_self, FMap.lookup_insert]
    simp
  · rw [Function.update_of_ne hk, if_neg (fun h => hk h.1)]

theorem lookup_run_zrem (k' : κ) (m' : μ) :
    ((s.run (.zrem k' m')).zsets k).lookup m =
      if k = k' ∧ m = m' then none else (s.zsets k).lookup m := by
  change (Function.update s.zsets k' _ k).lookup m = _
  by_cases hk : k = k'
  · subst hk
    rw [Function.update_self, FMap.lookup_erase]
    simp
  · rw [Function.update_of_ne hk, if_neg (fun h => hk h.1)]

/-- A member of a sorted set was there before the block, or the block adds it. -/
theorem exec_zset {b : List (Command κ η μ)} {x : ℤ}
    (h : ((s.exec b).zsets k).lookup m = some x) :
    (∃ x', (s.zsets k).lookup m = some x') ∨ ∃ x', Command.zadd k m x' ∈ b := by
  induction b using List.reverseRecOn generalizing x with
  | nil => exact .inl ⟨x, h⟩
  | append_singleton b c ih =>
    have hold : (∃ x', ((s.exec b).zsets k).lookup m = some x') ∨ ∃ x', c = .zadd k m x' := by
      rw [exec_append] at h
      change ((run (s.exec b) c).zsets k).lookup m = some x at h
      cases c with
      | zadd k' m' x' =>
        rw [lookup_run_zadd] at h
        split_ifs at h with hm
        · obtain ⟨rfl, rfl⟩ := hm
          exact .inr ⟨x', rfl⟩
        · exact .inl ⟨x, h⟩
      | zrem k' m' =>
        rw [lookup_run_zrem] at h
        split_ifs at h
        exact .inl ⟨x, h⟩
      | hset => exact .inl ⟨x, h⟩
      | del => exact .inl ⟨x, h⟩
      | sadd => exact .inl ⟨x, h⟩
      | srem => exact .inl ⟨x, h⟩
    rcases hold with ⟨x', hx'⟩ | ⟨x', rfl⟩
    · rcases ih hx' with hs | ⟨x'', hm⟩
      · exact .inl hs
      · exact .inr ⟨x'', List.mem_append_left _ hm⟩
    · exact .inr ⟨x', by simp⟩

/-- A member of a set was there before the block, or the block adds it. -/
theorem exec_set {b : List (Command κ η μ)} (h : m ∈ (s.exec b).sets k) :
    m ∈ s.sets k ∨ Command.sadd k m ∈ b := by
  induction b using List.reverseRecOn with
  | nil => exact .inl h
  | append_singleton b c ih =>
    have hold : m ∈ (s.exec b).sets k ∨ c = .sadd k m := by
      rw [exec_append] at h
      change m ∈ (run (s.exec b) c).sets k at h
      cases c with
      | sadd k' m' =>
        by_cases hk : k = k'
        · subst hk
          simpa [run, or_comm, eq_comm] using h
        · exact .inl (by simpa [run, hk] using h)
      | srem k' m' =>
        by_cases hk : k = k'
        · subst hk
          exact .inl (by simpa [run] using (Finset.mem_erase.mp (by simpa [run] using h)).2)
        · exact .inl (by simpa [run, hk] using h)
      | hset => exact .inl h
      | del => exact .inl h
      | zadd => exact .inl h
      | zrem => exact .inl h
    rcases hold with hold | rfl
    · exact (ih hold).imp_right (List.mem_append_left _)
    · exact .inr (by simp)

/-- A block that removes nothing from a set keeps what is there and adds what it says. -/
theorem mem_exec_set {b : List (Command κ η μ)} (hb : ∀ m, Command.srem k m ∉ b)
    (h : m ∈ s.sets k ∨ Command.sadd k m ∈ b) : m ∈ (s.exec b).sets k := by
  induction b using List.reverseRecOn with
  | nil => exact h.resolve_right List.not_mem_nil
  | append_singleton b c ih =>
    have hold : m ∈ (s.exec b).sets k ∨ c = .sadd k m := by
      rw [List.mem_append, List.mem_singleton, ← or_assoc] at h
      exact h.imp (ih fun m hm => hb m (List.mem_append_left _ hm)) Eq.symm
    rw [exec_append]
    change m ∈ (run (s.exec b) c).sets k
    rcases hold with hold | rfl
    · cases c with
      | sadd k' m' =>
        by_cases hk : k = k'
        · subst hk
          simp [run, hold]
        · simpa [run, hk] using hold
      | srem k' m' =>
        have hk : k ≠ k' := by
          rintro rfl
          exact hb m' (by simp)
        simpa [run, hk] using hold
      | hset => exact hold
      | del => exact hold
      | zadd => exact hold
      | zrem => exact hold
    · simp [run]

theorem exec_hash {b : List (Command κ η μ)} (h : ∀ c ∈ b, c.hashKey? ≠ some k) :
    (s.exec b).hashes k = s.hashes k := by
  induction b using List.reverseRecOn with
  | nil => rfl
  | append_singleton b c ih =>
    rw [exec_append, ← ih fun c hc => h c (List.mem_append_left _ hc)]
    change (run (s.exec b) c).hashes k = _
    have hc : c.hashKey? ≠ some k := h c (by simp)
    cases c with
    | hset k' h' => exact Function.update_of_ne (fun he => hc (congrArg some he.symm)) ..
    | del k' => exact Function.update_of_ne (fun he => hc (congrArg some he.symm)) ..
    | zadd => rfl
    | zrem => rfl
    | sadd => rfl
    | srem => rfl

theorem exec_score {b : List (Command κ η μ)} (h : ∀ c ∈ b, c.member? ≠ some (k, m)) :
    ((s.exec b).zsets k).lookup m = (s.zsets k).lookup m := by
  induction b using List.reverseRecOn with
  | nil => rfl
  | append_singleton b c ih =>
    rw [exec_append, ← ih fun c hc => h c (List.mem_append_left _ hc)]
    change ((run (s.exec b) c).zsets k).lookup m = _
    have hc : c.member? ≠ some (k, m) := h c (by simp)
    cases c with
    | zadd k' m' x =>
      rw [lookup_run_zadd, if_neg]
      rintro ⟨rfl, rfl⟩
      exact hc rfl
    | zrem k' m' =>
      rw [lookup_run_zrem, if_neg]
      rintro ⟨rfl, rfl⟩
      exact hc rfl
    | hset => rfl
    | del => rfl
    | sadd => rfl
    | srem => rfl

end Keyspace
end EntroQ.Foundation
