import EntroQ.Eqmem.Store

/-! # The task table

The queue stores, their heaps and the index together are one table of tasks by ID. `Indexed` is
the invariant that makes them one, `task` is the table, and a run of writes that is legal for
the table keeps the invariant and does to the table what it says. -/

namespace EntroQ.Eqmem
open Foundation Docset

namespace EQMem
variable (s : EQMem)

/-- The task under the ID, found through the index. -/
def task (id : String) : Option Task := (s.qByID.lookup id).bind (fun q => s.stored q id)

structure Indexed (s : EQMem) : Prop where
  queues : ∀ q ql, s.queues.lookup q = some ql → ql.queue = q ∧ ql.Valid
  named : ∀ q id t, s.stored q id = some t → q ≠ "" ∧ id ≠ ""
  index : ∀ id q, s.qByID.lookup id = some q ↔ ∃ t, s.stored q id = some t

theorem indexed_empty : Indexed {} where
  queues q ql h := by simp at h
  named q id t h := by simp [stored] at h
  index id q := by simp [stored]

variable {s}

theorem Indexed.stored_named (h : s.Indexed) {q id : String} {t : Task}
    (ht : s.stored q id = some t) : t.id = id ∧ t.queue = q := by
  obtain ⟨ql, hq, hql⟩ := Option.bind_eq_some_iff.mp ht
  obtain ⟨hname, hv⟩ := h.queues q ql hq
  obtain ⟨h1, h2⟩ := hv.named id t hql
  exact ⟨h1, h2.trans hname⟩

theorem Indexed.stored_iff (h : s.Indexed) (q id : String) (t : Task) :
    s.stored q id = some t ↔ s.task id = some t ∧ t.queue = q := by
  constructor
  · intro ht
    have hq := (h.index id q).mpr ⟨t, ht⟩
    exact ⟨by rw [task, hq]; exact ht, (h.stored_named ht).2⟩
  · rintro ⟨ht, rfl⟩
    obtain ⟨q, -, hq⟩ := Option.bind_eq_some_iff.mp ht
    rw [(h.stored_named hq).2]
    exact hq

theorem Indexed.task_named (h : s.Indexed) {id : String} {t : Task} (ht : s.task id = some t) :
    t.id = id ∧ t.queue ≠ "" ∧ id ≠ "" := by
  obtain ⟨q, -, hq⟩ := Option.bind_eq_some_iff.mp ht
  obtain ⟨h1, h2⟩ := h.stored_named hq
  exact ⟨h1, h2 ▸ (h.named q id t hq).1, (h.named q id t hq).2⟩

theorem Indexed.qByID_eq (h : s.Indexed) (id : String) :
    s.qByID.lookup id = (s.task id).map Task.queue := by
  cases ht : s.task id with
  | some t => exact (h.index id t.queue).mpr ⟨t, (h.stored_iff _ _ _).mpr ⟨ht, rfl⟩⟩
  | none =>
    cases hq : s.qByID.lookup id with
    | none => rfl
    | some q =>
      obtain ⟨t, hst⟩ := (h.index id q).mp hq
      rw [((h.stored_iff q id t).mp hst).1] at ht
      cases ht

theorem Indexed.unique (h : s.Indexed) {q q' id : String} {t t' : Task}
    (ht : s.stored q id = some t) (ht' : s.stored q' id = some t') : q = q' ∧ t = t' := by
  obtain ⟨h1, h2⟩ := (h.stored_iff q id t).mp ht
  obtain ⟨h3, h4⟩ := (h.stored_iff q' id t').mp ht'
  rw [h1] at h3
  cases h3
  exact ⟨h2.symm.trans h4, rfl⟩

theorem Indexed.congr {s' : EQMem} (h : s.Indexed)
    (hq : ∀ q ql, s'.queues.lookup q = some ql → ql.queue = q ∧ ql.Valid)
    (hs : ∀ q id, s'.stored q id = s.stored q id) (hi : s'.qByID = s.qByID) :
    s'.Indexed ∧ s'.task = s.task := by
  refine ⟨⟨hq, fun q id t ht => h.named q id t (hs q id ▸ ht), fun id q => ?_⟩, ?_⟩
  · rw [hi, h.index]
    simp [hs]
  · funext id
    simp [task, hi, hs]

/-! ## Locking and unlocking -/

theorem stored_lockQueues (qs : List String) (q id : String) :
    (s.lockQueues qs).stored q id = s.stored q id := by
  unfold stored lockQueues
  rw [Registry.lookup_acquire]
  split_ifs with hq
  · cases s.queues.lookup q <;> simp [newQLock, QLock.task]
  · rfl

theorem Indexed.lockQueues (h : s.Indexed) (qs : List String) :
    (s.lockQueues qs).Indexed ∧ (s.lockQueues qs).task = s.task := by
  apply h.congr _ (fun q id => stored_lockQueues qs q id) rfl
  intro q ql hq
  change (Registry.acquire newQLock qs s.queues).lookup q = some ql at hq
  rw [Registry.lookup_acquire] at hq
  split_ifs at hq with hm
  · cases hl : s.queues.lookup q with
    | none =>
      rw [hl] at hq
      cases hq
      exact ⟨rfl, QLock.valid_new q⟩
    | some ql' =>
      rw [hl] at hq
      cases hq
      exact h.queues q ql' hl
  · exact h.queues q ql hq

theorem lockQueues_present (qs : List String) {q : String} (hq : q ∈ qs) :
    ∃ ql, (s.lockQueues qs).queues.lookup q = some ql :=
  ⟨_, by rw [EQMem.lockQueues, Registry.lookup_acquire, if_pos hq]⟩

theorem Indexed.stored_unlockQueues (h : s.Indexed) (qs : List String) (q id : String) :
    (s.unlockQueues qs).stored q id = s.stored q id := by
  unfold stored unlockQueues
  rw [Registry.lookup_release]
  split_ifs with hq
  · cases hl : s.queues.lookup q with
    | none => rfl
    | some ql =>
      cases hi : ql.idle with
      | false => simp [hi, Option.filter]
      | true =>
        have := ((h.queues q ql hl).2.idle_iff.mp hi) id
        simp [hi, this, Option.filter]
  · rfl

theorem Indexed.unlockQueues (h : s.Indexed) (qs : List String) :
    (s.unlockQueues qs).Indexed ∧ (s.unlockQueues qs).task = s.task := by
  apply h.congr _ (fun q id => h.stored_unlockQueues qs q id) rfl
  intro q ql hq
  change (Registry.release QLock.idle qs s.queues).lookup q = some ql at hq
  rw [Registry.lookup_release] at hq
  split_ifs at hq
  · exact h.queues q ql (Option.filter_eq_some_iff.mp hq).1
  · exact h.queues q ql hq

/-! ## One write -/

theorem Indexed.replace (h : s.Indexed) {q i : String} {ql ql' : QLock} {v : Option Task}
    {qByID : FMap String String} (hq : s.queues.lookup q = some ql) (hv' : ql'.Valid)
    (hname : ql'.queue = q) (htask : ∀ id, ql'.task id = if id = i then v else ql.task id)
    (hnamed : v.isSome → q ≠ "" ∧ i ≠ "") (hother : ∀ old, s.task i = some old → old.queue = q)
    (hindex : ∀ id, qByID.lookup id = if id = i then v.map (fun _ => q) else s.qByID.lookup id) :
    EQMem.Indexed { s with queues := s.queues.insert q ql', qByID } ∧
      EQMem.task { s with queues := s.queues.insert q ql', qByID } =
        Function.update s.task i v := by
  have hstored : ∀ q' id, EQMem.stored { s with queues := s.queues.insert q ql', qByID } q' id =
      if q' = q ∧ id = i then v else s.stored q' id := by
    intro q' id
    unfold stored
    rw [FMap.lookup_insert]
    by_cases he : q' = q
    · subst he
      rw [if_pos rfl, hq]
      simp [htask]
    · simp [he]
  have hind : EQMem.Indexed { s with queues := s.queues.insert q ql', qByID } := by
    constructor
    · intro q' ql'' hl
      rw [FMap.lookup_insert] at hl
      split_ifs at hl with he
      · cases hl
        exact ⟨hname.trans he.symm, hv'⟩
      · exact h.queues q' ql'' hl
    · intro q' id t ht
      rw [hstored] at ht
      split_ifs at ht with he
      · obtain ⟨rfl, rfl⟩ := he
        exact hnamed (by rw [ht]; rfl)
      · exact h.named q' id t ht
    · intro id q'
      simp only [hstored, hindex]
      by_cases hi : id = i
      · subst hi
        rw [if_pos rfl, Option.map_eq_some_iff]
        constructor
        · rintro ⟨t, ht, rfl⟩
          exact ⟨t, by simp [ht]⟩
        · rintro ⟨t, ht⟩
          split_ifs at ht with he
          · exact ⟨t, ht, he.1.symm⟩
          · obtain ⟨h1, h2⟩ := (h.stored_iff q' id t).mp ht
            exact absurd ⟨h2.symm.trans (hother t h1), rfl⟩ he
      · simp only [hi, and_false, if_false]
        exact h.index id q'
  refine ⟨hind, ?_⟩
  funext id
  by_cases hi : id = i
  · subst hi
    rw [Function.update_self, EQMem.task, hindex, if_pos rfl]
    cases hvv : v with
    | none => rfl
    | some t => simp [hstored, hvv]
  · rw [Function.update_of_ne hi, EQMem.task, hindex, if_neg hi, EQMem.task]
    congr 1
    funext q'
    simp [hstored, hi]

end EQMem

namespace TaskOp

def id : TaskOp → String
  | .delete _ id => id
  | .insert t => t.id
  | .update t => t.id

def queue : TaskOp → String
  | .delete q _ => q
  | .insert t => t.queue
  | .update t => t.queue

/-- What the table holds under the ID afterwards. -/
def result : TaskOp → Option Task
  | .delete _ _ => none
  | .insert t => some t
  | .update t => some t

def effect (T : String → Option Task) (op : TaskOp) : String → Option Task :=
  Function.update T op.id op.result

/-- The table admits the write: it deletes or updates a task in its queue, or inserts a new one
in a queue. -/
def Legal (T : String → Option Task) : TaskOp → Prop
  | .delete q id => ∃ t, T id = some t ∧ t.queue = q
  | .insert t => T t.id = none ∧ t.id ≠ "" ∧ t.queue ≠ ""
  | .update t => ∃ old, T t.id = some old ∧ old.queue = t.queue

theorem legal_congr {T T' : String → Option Task} (op : TaskOp) (h : T op.id = T' op.id) :
    op.Legal T ↔ op.Legal T' := by
  cases op <;> simp only [Legal, TaskOp.id] at h ⊢ <;> rw [h]

end TaskOp

open TaskOp

theorem modify_eq_some {κ ν : Type*} [DecidableEq κ] {held : List κ} {k : κ} {f : ν → Option ν}
    {m : FMap κ ν} {v v' : ν} (hk : k ∈ held) (hv : m.lookup k = some v) (hf : f v = some v') :
    Registry.modify held k f m = some (m.insert k v') := by
  simp [Registry.modify, hk, hv, hf]

variable {s : EQMem}

theorem EQMem.Indexed.run_op (h : s.Indexed) {locked : List String}
    (hp : ∀ q ∈ locked, ∃ ql, s.queues.lookup q = some ql) (op : TaskOp) (hq : op.queue ∈ locked)
    (hl : op.Legal s.task) :
    ∃ ql', op.run locked s.queues = some (s.queues.insert op.queue ql') ∧
      EQMem.Indexed
        { s with queues := s.queues.insert op.queue ql', qByID := op.finish s.qByID } ∧
      EQMem.task { s with queues := s.queues.insert op.queue ql', qByID := op.finish s.qByID } =
        op.effect s.task := by
  obtain ⟨ql, hql⟩ := hp _ hq
  obtain ⟨hname, hv⟩ := h.queues _ _ hql
  have hself : ∀ id t, ql.task id = some t ↔ s.task id = some t ∧ t.queue = op.queue := by
    intro id t
    rw [← h.stored_iff, EQMem.stored, hql]
    rfl
  cases op with
  | delete q id =>
    obtain ⟨t, ht, htq⟩ := hl
    refine ⟨ql.deleteID id, modify_eq_some hq hql rfl, ?_⟩
    apply h.replace (v := none) hql (hv.deleteID id) hname (QLock.task_deleteID id) (by simp)
    · intro old hold
      rw [ht] at hold
      cases hold
      exact htq
    · exact FMap.lookup_erase s.qByID id
  | insert t =>
    obtain ⟨hn, hid, hqn⟩ := hl
    have hnew : ql.task t.id = none := by
      rw [Option.eq_none_iff_forall_not_mem]
      intro t' ht'
      rw [((hself t.id t').mp ht').1] at hn
      cases hn
    refine ⟨ql.insertTask t, modify_eq_some hq hql rfl, ?_⟩
    apply h.replace (v := some t) hql (hv.insertTask hname.symm hnew) hname
      (QLock.task_insertTask t) (fun _ => ⟨hqn, hid⟩)
    · intro old hold
      rw [hn] at hold
      cases hold
    · exact fun i => FMap.lookup_insert s.qByID t.id i t.queue
  | update t =>
    obtain ⟨old, hold, hoq⟩ := hl
    obtain ⟨-, hqn, hin⟩ := h.task_named hold
    obtain ⟨ql', hu, hv', hname', htask'⟩ :=
      hv.updateTask hname.symm ((hself _ _).mpr ⟨hold, hoq⟩)
    refine ⟨ql', modify_eq_some hq hql hu, ?_⟩
    apply h.replace (v := some t) hql hv' (hname'.trans hname) htask'
      (fun _ => ⟨fun he => hqn (hoq.trans he), hin⟩)
    · intro o ho
      rw [hold] at ho
      cases ho
      exact hoq
    · intro i
      split_ifs with hi
      · rw [hi]
        change s.qByID.lookup t.id = _
        rw [h.qByID_eq, hold]
        exact congrArg some hoq
      · rfl

/-! ## A run of writes -/

def effects (T : String → Option Task) (ops : List TaskOp) : String → Option Task :=
  ops.foldl TaskOp.effect T

/-- Each write is legal for the table the writes before it leave. -/
def LegalAll (T : String → Option Task) : List TaskOp → Prop
  | [] => True
  | op :: ops => op.Legal T ∧ LegalAll (op.effect T) ops

theorem EQMem.Indexed.run_ops (h : s.Indexed) {locked : List String}
    (hp : ∀ q ∈ locked, ∃ ql, s.queues.lookup q = some ql) (ops : List TaskOp)
    (hq : ∀ op ∈ ops, op.queue ∈ locked) (hl : LegalAll s.task ops) :
    ∃ qs, ops.foldlM (TaskOp.run locked) s.queues = some qs ∧
      EQMem.Indexed { s with queues := qs, qByID := ops.foldl TaskOp.finish s.qByID } ∧
      EQMem.task { s with queues := qs, qByID := ops.foldl TaskOp.finish s.qByID } =
        effects s.task ops ∧
      (∀ q ∈ locked, ∃ ql, qs.lookup q = some ql) ∧
      ∀ q, q ∉ locked → qs.lookup q = s.queues.lookup q := by
  induction ops generalizing s with
  | nil => exact ⟨s.queues, rfl, h, rfl, hp, fun _ _ => rfl⟩
  | cons op ops ih =>
    obtain ⟨hq1, hq2⟩ := List.forall_mem_cons.mp hq
    obtain ⟨ql, hr1, hi1, ht1⟩ := h.run_op hp op hq1 hl.1
    have hp1 : ∀ q ∈ locked, ∃ ql', (s.queues.insert op.queue ql).lookup q = some ql' := by
      intro q hq'
      rw [FMap.lookup_insert]
      split_ifs
      · exact ⟨_, rfl⟩
      · exact hp q hq'
    obtain ⟨qs, hr2, hi2, ht2, hp2, hf2⟩ := ih hi1 hp1 hq2 (ht1 ▸ hl.2)
    refine ⟨qs, ?_, hi2, ht2.trans (by rw [ht1]; rfl), hp2, ?_⟩
    · rw [List.foldlM_cons, hr1]
      exact hr2
    · intro q hqn
      have hne : q ≠ op.queue := fun he => hqn (he ▸ hq1)
      rw [hf2 q hqn]
      exact (FMap.lookup_insert _ _ _ _).trans (if_neg hne)

/-- Inserts never panic, whatever is stored. -/
theorem run_inserts {locked : List String} (ts : List Task) (hq : ∀ t ∈ ts, t.queue ∈ locked)
    {queues : FMap String QLock} (hp : ∀ q ∈ locked, ∃ ql, queues.lookup q = some ql) :
    ∃ qs, (ts.map TaskOp.insert).foldlM (TaskOp.run locked) queues = some qs := by
  induction ts generalizing queues with
  | nil => exact ⟨queues, rfl⟩
  | cons t ts ih =>
    obtain ⟨hq1, hq2⟩ := List.forall_mem_cons.mp hq
    obtain ⟨ql, hql⟩ := hp t.queue hq1
    have hrun : TaskOp.run locked queues (.insert t) =
        some (queues.insert t.queue (ql.insertTask t)) := by
      simp [TaskOp.run, Registry.modify, hq1, hql]
    rw [List.map_cons, List.foldlM_cons, hrun]
    refine ih hq2 fun q hq' => ?_
    rw [FMap.lookup_insert]
    split_ifs
    · exact ⟨_, rfl⟩
    · exact hp q hq'

theorem effects_append (T : String → Option Task) (l₁ l₂ : List TaskOp) :
    effects T (l₁ ++ l₂) = effects (effects T l₁) l₂ :=
  List.foldl_append

theorem legalAll_append (T : String → Option Task) (l₁ l₂ : List TaskOp) :
    LegalAll T (l₁ ++ l₂) ↔ LegalAll T l₁ ∧ LegalAll (effects T l₁) l₂ := by
  induction l₁ generalizing T with
  | nil => simp [LegalAll, effects]
  | cons op l₁ ih =>
    simp only [List.cons_append, LegalAll, ih, and_assoc]
    rfl

/-- A run leaves alone the IDs it does not write. -/
theorem effects_of_ne (T : String → Option Task) (ops : List TaskOp) (id : String)
    (h : ∀ op ∈ ops, op.id ≠ id) : effects T ops id = T id := by
  induction ops generalizing T with
  | nil => rfl
  | cons op ops ih =>
    obtain ⟨h1, h2⟩ := List.forall_mem_cons.mp h
    change effects (op.effect T) ops id = T id
    rw [ih _ h2, TaskOp.effect, Function.update_of_ne (Ne.symm h1)]

/-- A run depends on the table only at the IDs it writes. -/
theorem effects_congr {T T' : String → Option Task} (ops : List TaskOp) (id : String)
    (h : T id = T' id) : effects T ops id = effects T' ops id := by
  induction ops generalizing T T' with
  | nil => exact h
  | cons op ops ih =>
    change effects (op.effect T) ops id = effects (op.effect T') ops id
    apply ih
    by_cases hi : id = op.id
    · simp [TaskOp.effect, hi]
    · simp [TaskOp.effect, hi, h]

theorem legalAll_congr {T T' : String → Option Task} (ops : List TaskOp)
    (h : ∀ op ∈ ops, T op.id = T' op.id) : LegalAll T ops ↔ LegalAll T' ops := by
  induction ops generalizing T T' with
  | nil => rfl
  | cons op ops ih =>
    obtain ⟨h1, h2⟩ := List.forall_mem_cons.mp h
    rw [LegalAll, LegalAll, legal_congr op h1]
    refine and_congr Iff.rfl (ih fun o ho => ?_)
    by_cases hi : o.id = op.id
    · simp [TaskOp.effect, hi]
    · simp [TaskOp.effect, hi, h2 o ho]

/-! ## Writes by ID

An operation of a modification writes one ID, maybe in two steps, and no two operations write
the same one. Then each may be judged by the table before all of them. -/

/-- The writes of one operation, all under one ID. -/
structure Block where
  id : String
  ops : List TaskOp
  own : ∀ op ∈ ops, op.id = id

def Block.result (b : Block) (T : String → Option Task) : Option Task := effects T b.ops b.id

section Blocks
variable {T : String → Option Task} {bs : List Block}

theorem effects_blocks_of_notMem (id : String) (h : id ∉ bs.map Block.id) :
    effects T (bs.flatMap Block.ops) id = T id := by
  apply effects_of_ne
  intro op hop he
  obtain ⟨b, hb, ho⟩ := List.mem_flatMap.mp hop
  exact h (List.mem_map.mpr ⟨b, hb, (b.own op ho).symm.trans he⟩)

theorem effects_blocks (hn : (bs.map Block.id).Nodup) (b : Block) (hb : b ∈ bs) :
    effects T (bs.flatMap Block.ops) b.id = b.result T := by
  induction bs generalizing T with
  | nil => simp at hb
  | cons c bs ih =>
    rw [List.map_cons, List.nodup_cons] at hn
    rw [List.flatMap_cons, effects_append]
    rcases List.mem_cons.mp hb with rfl | hb
    · exact effects_blocks_of_notMem _ hn.1
    · rw [ih hn.2 hb]
      apply effects_congr
      apply effects_of_ne
      intro op ho he
      exact hn.1 (List.mem_map.mpr ⟨b, hb, he.symm.trans (c.own op ho)⟩)

theorem legalAll_blocks (hn : (bs.map Block.id).Nodup) (hl : ∀ b ∈ bs, LegalAll T b.ops) :
    LegalAll T (bs.flatMap Block.ops) := by
  induction bs generalizing T with
  | nil => trivial
  | cons c bs ih =>
    rw [List.map_cons, List.nodup_cons] at hn
    obtain ⟨hc, hbs⟩ := List.forall_mem_cons.mp hl
    rw [List.flatMap_cons, legalAll_append]
    refine ⟨hc, ih hn.2 fun b hb => ?_⟩
    refine (legalAll_congr b.ops fun op ho => ?_).mpr (hbs b hb)
    apply effects_of_ne
    intro op' ho' he
    have : c.id = b.id := ((c.own op' ho').symm.trans he).trans (b.own op ho)
    exact hn.1 (this ▸ List.mem_map_of_mem hb)

end Blocks
end EntroQ.Eqmem
