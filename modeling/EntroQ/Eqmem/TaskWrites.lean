import EntroQ.Eqmem.Verdict

/-! # What a modification writes to tasks

The writes of a modification that fits the table, seen operation by operation: each one is a
block of writes under an ID of its own, so it may be judged by the table before all of them. -/

namespace EntroQ.Eqmem
open Foundation Docset

namespace Prepared

/-- What validation and the client see to before a modification is prepared. -/
structure Proper (p : Prepared) : Prop where
  covers : p.Covers
  once : p.taskIDs.Nodup
  targets : ∀ c ∈ p.mod.changes, c.task.queue ≠ ""
  inserts : ∀ ins ∈ p.mod.inserts, ins.id ≠ "" ∧ ins.queue ≠ ""
  docInserts : ∀ d ∈ p.mod.docInserts, d.id ≠ "" ∧ d.ns ≠ ""
  docArrives : ∀ a ∈ p.mod.docArrives, a.docID.ns ≠ ""
  docOnce : (p.docRefs.map (fun r => docKey r.1 r.2)).Nodup

/-- No inserted ID is stored, in whatever queue. -/
def Fresh (p : Prepared) (s : EQMem) : Prop := ∀ ins ∈ p.mod.inserts, s.task ins.id = none

section Blocks
variable (p : Prepared) (s : EQMem) (now : Time) (replay : Bool)

@[simp] theorem changedTask_id (c : TaskChange) :
    (p.changedTask s now replay c).id = c.task.id := by
  cases replay <;> rfl

@[simp] theorem changedTask_queue (c : TaskChange) :
    (p.changedTask s now replay c).queue = c.task.queue := by
  cases replay <;> rfl

@[simp] theorem changedTask_version (c : TaskChange) :
    (p.changedTask s now replay c).version = c.task.version + 1 := by
  cases replay <;> rfl

def deleteBlock (d : TaskID) : Block := ⟨d.id, [.delete d.queue d.id], by simp [TaskOp.id]⟩

def changeBlock (c : TaskChange) : Block where
  id := c.task.id
  ops := p.changeOps s now replay c
  own op hop := by
    unfold changeOps at hop
    split_ifs at hop
    · rcases List.mem_pair.mp hop with rfl | rfl
      · rfl
      · exact p.changedTask_id s now replay c
    · rw [List.mem_singleton.mp hop]
      exact p.changedTask_id s now replay c

def insertBlock (td : TaskData) : Block :=
  ⟨td.id, [.insert (p.insertedTask now replay td)], by simp [TaskOp.id, insertedTask]⟩

/-- The writes to tasks that are stored. -/
def storedBlocks : List Block :=
  p.mod.deletes.map deleteBlock ++ (p.changed s).changes.map (p.changeBlock s now replay)

def blocks : List Block :=
  p.mod.deletes.map deleteBlock ++ (p.changed s).changes.map (p.changeBlock s now replay) ++
    p.mod.inserts.map (p.insertBlock now replay)

theorem flatMap_single {α β : Type*} (f : α → β) (l : List α) :
    l.flatMap (fun a => [f a]) = l.map f := by
  rw [← List.flatMap_singleton' (l.map f), List.flatMap_map]

theorem taskOps_eq : p.taskOps s now replay = (p.blocks s now replay).flatMap Block.ops := by
  simp only [taskOps, blocks, List.flatMap_append, List.flatMap_map, deleteBlock, changeBlock,
    insertBlock, flatMap_single]

theorem taskOps_split : p.taskOps s now replay =
    (p.storedBlocks s now replay).flatMap Block.ops ++
      (p.mod.inserts.map (p.insertedTask now replay)).map TaskOp.insert := by
  simp only [taskOps, storedBlocks, List.flatMap_append, List.flatMap_map, deleteBlock, changeBlock,
    flatMap_single, List.map_map, Function.comp_def]

variable {p s}

theorem Covers.changed_ids (hc : p.Covers) (h : s.Indexed) :
    (p.changed s).changes.map (fun c => c.task.id) = p.origins.map TaskID.id := by
  unfold origins
  rw [← hc.changed_origins h, List.map_map]
  rfl

theorem Proper.blocks_nodup (hp : p.Proper) (h : s.Indexed) :
    ((p.blocks s now replay).map Block.id).Nodup := by
  have hids : (p.blocks s now replay).map Block.id =
      p.mod.deletes.map TaskID.id ++ p.origins.map TaskID.id ++ p.mod.inserts.map TaskData.id := by
    rw [← hp.covers.changed_ids h]
    simp only [blocks, List.map_append, List.map_map]
    rfl
  rw [hids]
  refine List.Nodup.sublist ?_ hp.once
  simp only [taskIDs, origins, List.map_append, List.map_map, List.append_assoc]
  apply List.Sublist.append_left
  exact List.sublist_append_right _ _

theorem changeBlock_legal (h : s.Indexed) (c : TaskChange) (hf : s.HasTask c.origin)
    (hq : c.task.queue ≠ "") :
    LegalAll s.task (p.changeOps s now replay c) ∧
      effects s.task (p.changeOps s now replay c) c.task.id =
        some (p.changedTask s now replay c) := by
  obtain ⟨t, ht, htq, -⟩ := hf
  change s.task c.task.id = some t at ht
  unfold changeOps
  split_ifs with hmove
  · refine ⟨⟨⟨t, ht, htq⟩, ⟨?_, ?_, ?_⟩, trivial⟩, ?_⟩
    · simp [TaskOp.effect, TaskOp.id, TaskOp.result]
    · simpa using (h.task_named ht).2.2
    · simpa using hq
    · simp [effects, TaskOp.effect, TaskOp.id, TaskOp.result]
  · refine ⟨⟨⟨t, by simpa using ht, ?_⟩, trivial⟩, ?_⟩
    · rw [htq, changedTask_queue]
      exact not_not.mp hmove
    · simp [effects, TaskOp.effect, TaskOp.id, TaskOp.result]

theorem Covers.changed_queue (hc : p.Covers) (h : s.Indexed) (hf : p.Fits s)
    (ht : ∀ c ∈ p.mod.changes, c.task.queue ≠ "") {c : TaskChange} (hm : c ∈ (p.changed s).changes) :
    s.HasTask c.origin ∧ c.task.queue ≠ "" ∧ c.task.queue ∈ p.queues ∧
      c.task.fromQueue ∈ p.queues := by
  have ho : c.origin ∈ p.origins := by
    rw [origins, ← hc.changed_origins h]
    exact List.mem_map_of_mem hm
  have hst := hf.changes _ ho
  have hfrom : c.task.fromQueue ≠ "" := by
    obtain ⟨t, ht, htq, -⟩ := hst
    have hne := (h.task_named ht).2.1
    rwa [htq] at hne
  have hfq : c.task.fromQueue ∈ p.queues := by
    have hr := mem_storedRefs c.origin (.inr (.inr ho))
    exact hc.refs _ ((p.mem_taskRefs _).mpr (.inl hr)) hfrom
  rcases (mem_changed c).mp hm with hm | ⟨a, ha, rfl⟩
  · exact ⟨hst, ht c hm, hc.targets c hm (ht c hm), hfq⟩
  · exact ⟨hst, hfrom, hfq, hfq⟩

theorem Proper.legal_block (hp : p.Proper) (h : s.Indexed) (hf : p.Fits s) {b : Block}
    (hb : b ∈ p.storedBlocks s now replay) : LegalAll s.task b.ops := by
  simp only [storedBlocks, List.mem_append, List.mem_map] at hb
  rcases hb with ⟨d, hd, rfl⟩ | ⟨c, hc, rfl⟩
  · obtain ⟨t, ht, htq, -⟩ := hf.deletes d hd
    exact ⟨⟨t, ht, htq⟩, trivial⟩
  · obtain ⟨hst, hq, -⟩ := hp.covers.changed_queue h hf hp.targets hc
    exact (changeBlock_legal now replay h c hst hq).1

theorem Proper.legal_stored (hp : p.Proper) (h : s.Indexed) (hf : p.Fits s) :
    LegalAll s.task ((p.storedBlocks s now replay).flatMap Block.ops) := by
  refine legalAll_blocks ?_ fun b hb => hp.legal_block now replay h hf hb
  exact List.Nodup.sublist ((List.sublist_append_left _ _).map _) (hp.blocks_nodup now replay h)

theorem Proper.legalAll (hp : p.Proper) (h : s.Indexed) (hf : p.Fits s) (hfresh : p.Fresh s) :
    LegalAll s.task (p.taskOps s now replay) := by
  rw [taskOps_eq]
  apply legalAll_blocks (hp.blocks_nodup now replay h)
  intro b hb
  rcases List.mem_append.mp hb with hb | hb
  · exact hp.legal_block now replay h hf hb
  · obtain ⟨td, htd, rfl⟩ := List.mem_map.mp hb
    exact ⟨⟨hfresh td htd, (hp.inserts td htd).1, (hp.inserts td htd).2⟩, trivial⟩

theorem Proper.taskOps_queues (hp : p.Proper) (h : s.Indexed) (hf : p.Fits s) :
    ∀ op ∈ p.taskOps s now replay, op.queue ∈ p.queues := by
  intro op hop
  simp only [taskOps, List.mem_append, List.mem_map, List.mem_flatMap] at hop
  rcases hop with (⟨d, hd, rfl⟩ | ⟨c, hc, hop⟩) | ⟨td, htd, rfl⟩
  · obtain ⟨t, ht, htq, -⟩ := hf.deletes d hd
    refine hp.covers.refs _ ((p.mem_taskRefs _).mpr (.inl (mem_storedRefs d (.inl hd)))) ?_
    change d.queue ≠ ""
    rw [← htq]
    exact (h.task_named ht).2.1
  · obtain ⟨-, -, hq, hfrom⟩ := hp.covers.changed_queue h hf hp.targets hc
    unfold changeOps at hop
    split_ifs at hop
    · rcases List.mem_pair.mp hop with rfl | rfl
      · exact hfrom
      · exact Eq.mpr (congrArg (· ∈ p.queues) (p.changedTask_queue s now replay c)) hq
    · rw [List.mem_singleton.mp hop]
      exact Eq.mpr (congrArg (· ∈ p.queues) (p.changedTask_queue s now replay c)) hq
  · exact hp.covers.refs (td.queue, td.id)
      ((p.mem_taskRefs _).mpr (.inr ⟨td, htd, rfl, .inl rfl⟩)) (hp.inserts td htd).2

/-- The table after the modification: what its operations say, and the rest as it was. -/
structure TasksAfter (p : Prepared) (s : EQMem) (now : Time) (replay : Bool)
    (T : String → Option Task) : Prop where
  deleted : ∀ d ∈ p.mod.deletes, T d.id = none
  changed : ∀ c ∈ (p.changed s).changes, T c.task.id = some (p.changedTask s now replay c)
  inserted : ∀ td ∈ p.mod.inserts, T td.id = some (p.insertedTask now replay td)
  others : ∀ id, id ∉ p.mod.deletes.map TaskID.id → id ∉ p.origins.map TaskID.id →
    id ∉ p.mod.inserts.map TaskData.id → T id = s.task id

theorem Proper.tasksAfter (hp : p.Proper) (h : s.Indexed) (hf : p.Fits s) :
    p.TasksAfter s now replay (effects s.task (p.taskOps s now replay)) := by
  have hn := hp.blocks_nodup now replay h
  rw [taskOps_eq]
  constructor
  · intro d hd
    refine (effects_blocks hn (deleteBlock d) ?_).trans ?_
    · simp only [blocks, List.mem_append, List.mem_map]
      exact .inl (.inl ⟨d, hd, rfl⟩)
    · simp [Block.result, effects, deleteBlock, TaskOp.effect, TaskOp.id, TaskOp.result]
  · intro c hc
    obtain ⟨hst, hq, -⟩ := hp.covers.changed_queue h hf hp.targets hc
    refine (effects_blocks hn (p.changeBlock s now replay c) ?_).trans
      (changeBlock_legal now replay h c hst hq).2
    simp only [blocks, List.mem_append, List.mem_map]
    exact .inl (.inr ⟨c, hc, rfl⟩)
  · intro td htd
    refine (effects_blocks hn (p.insertBlock now replay td) ?_).trans ?_
    · simp only [blocks, List.mem_append, List.mem_map]
      exact .inr ⟨td, htd, rfl⟩
    · simp [Block.result, effects, insertBlock, TaskOp.effect, TaskOp.id, TaskOp.result,
        insertedTask]
  · intro id h1 h2 h3
    apply effects_blocks_of_notMem
    rw [← hp.covers.changed_ids h] at h2
    simp only [blocks, List.map_append, List.map_map, List.mem_append, not_or]
    exact ⟨⟨h1, h2⟩, h3⟩

end Blocks

/-- An ID that is inserted is looked for where it is. -/
def Seen (p : Prepared) (s : EQMem) : Prop :=
  ∀ ins ∈ p.mod.inserts, ∀ t, s.task ins.id = some t →
    t.queue = ins.queue ∨ p.misplaced.lookup ins.id = some t.queue

theorem Seen.fresh {p : Prepared} {s : EQMem} (h : p.Seen s) (hf : p.Fits s) : p.Fresh s := by
  intro ins hi
  cases ht : s.task ins.id with
  | none => rfl
  | some t =>
    obtain ⟨h1, h2⟩ := hf.inserts ins hi t ht
    exact absurd (h ins hi t ht) (not_or.mpr ⟨h1, h2⟩)

/-- With nothing between preparing and checking, an insert finds its ID wherever it is. -/
theorem modPrep_seen {s : EQMem} (h : s.Indexed) {mod : Modification} {replay : Bool}
    (hp : (modPrep s mod replay).Proper) : (modPrep s mod replay).Seen s := by
  intro ins hi t ht
  have hn : ((modPrep s mod replay).mod.inserts.map TaskData.id).Nodup := by
    have := hp.once
    rw [taskIDs_eq, List.nodup_append'] at this
    exact this.2.1
  have hmis : (modPrep s mod replay).misplaced.lookup ins.id = _ :=
    misplacedInsIDs_eq s.qByID (modPrep s mod replay).mod ins hi hn
  rw [hmis, misplacedQueue, if_neg (hp.inserts ins hi).1, h.qByID_eq, ht]
  by_cases hq : t.queue = ins.queue
  · exact .inl hq
  · exact .inr (by simp [Option.filter, hq])

theorem fresh_of_fits {s : EQMem} (h : s.Indexed) {mod : Modification} {replay : Bool}
    (hp : (modPrep s mod replay).Proper) (hf : (modPrep s mod replay).Fits s) :
    (modPrep s mod replay).Fresh s :=
  (modPrep_seen h hp).fresh hf

end Prepared
end EntroQ.Eqmem
