import EntroQ.Eqmem.Exact
import EntroQ.Eqmem.Restore

/-! # Replaying one journal entry

An entry is a set of final states. Replaying it on a store where its tasks are as they were when
it was made does not fail, and leaves just these states. -/

namespace EntroQ

/-- The change as the journal player presents it, at the version it was made from. -/
def TaskChange.before (c : TaskChange) : TaskChange :=
  { c with task := { c.task with version := c.task.version - 1 } }

def DocChange.before (c : DocChange) : DocChange :=
  { c with doc := { c.doc with version := c.doc.version - 1 } }

/-- A time that was not set is the time of the replay. -/
def orNow (t now : Time) : Time := if t = 0 then now else t

namespace Eqmem
open Foundation Docset

def restoredChange (now : Time) (c : TaskChange) : Task :=
  { c.task with modified := orNow c.task.modified now }

def restoredInsert (claimant : String) (now : Time) (td : TaskData) : Task :=
  { id := td.id, queue := td.queue, atTime := td.atTime, value := td.value
    claimant := holder claimant td.atTime now
    created := orNow td.created now, modified := orNow td.modified now
    attempt := td.attempt, err := td.err }

def restoredDocChange (now : Time) (c : DocChange) (old : Doc) : Doc :=
  { c.doc with
    key := old.key, secondaryKey := old.secondaryKey, created := old.created
    modified := orNow c.doc.modified now }

def restoredDocInsert (now : Time) (d : DocData) : Doc :=
  { ns := d.ns, id := d.id, atTime := d.atTime, content := d.content, key := d.key
    secondaryKey := d.secondaryKey
    created := orNow d.created now, modified := orNow d.modified now }

namespace JournalEntry
variable (e : JournalEntry)

/-- The tasks the entry names are as they were when it was made, each named once. -/
structure Applies (s : EQMem) : Prop where
  once : (e.mod.deletes.map TaskID.id ++ e.mod.depends.map TaskID.id ++
    e.mod.changes.map (fun c => c.task.id) ++ e.mod.inserts.map TaskData.id).Nodup
  deletes : ∀ r ∈ e.mod.deletes, s.HasTask r
  depends : ∀ r ∈ e.mod.depends, s.HasTask r
  changes : ∀ c ∈ e.mod.changes, s.HasTask c.before.origin ∧ c.task.queue ≠ ""
  inserts : ∀ td ∈ e.mod.inserts, td.id ≠ "" ∧ td.queue ≠ "" ∧ s.task td.id = none
  arrives : e.mod.arrives = []
  docOnce : ((e.mod.docDeletes.map (fun d => (d.ns, d.id)) ++
    e.mod.docDepends.map (fun d => (d.ns, d.id)) ++
    e.mod.docChanges.map (fun c => (c.doc.ns, c.doc.id)) ++
    e.mod.docInserts.map (fun d => (d.ns, d.id))).map (fun r => docKey r.1 r.2)).Nodup
  docDeletes : ∀ d ∈ e.mod.docDeletes, d.ns ≠ ""
  docChanges : ∀ c ∈ e.mod.docChanges, c.doc.ns ≠ "" ∧ c.doc.id ≠ ""
  docInserts : ∀ d ∈ e.mod.docInserts, d.id ≠ "" ∧ d.ns ≠ ""
  docArrives : e.mod.docArrives = []
  locks : ∀ jl ∈ e.docLocks, jl.ns ≠ ""

/-- The store after the entry: its final states, and the rest as it was. -/
structure Made (s : EQMem) (now : Time) (s' : EQMem) : Prop where
  sound : s'.Sound
  deleted : ∀ r ∈ e.mod.deletes, s'.task r.id = none
  changed : ∀ c ∈ e.mod.changes, s'.task c.task.id = some (restoredChange now c)
  inserted : ∀ td ∈ e.mod.inserts,
    s'.task td.id = some (restoredInsert e.mod.claimant now td)
  others : ∀ id, id ∉ e.mod.deletes.map TaskID.id → id ∉ e.mod.changes.map (fun c => c.task.id) →
    id ∉ e.mod.inserts.map TaskData.id → s'.task id = s.task id
  docDeleted : ∀ r ∈ e.mod.docDeletes, s'.docAt (r.ns, r.id) = none
  docChanged : ∀ c ∈ e.mod.docChanges, ∀ old, s.docAt (c.doc.ns, c.doc.id) = some old →
    s'.docAt (c.doc.ns, c.doc.id) = some (restoredDocChange now c old)
  docInserted : ∀ d ∈ e.mod.docInserts, s'.docAt (d.ns, d.id) = some (restoredDocInsert now d)
  docOthers : ∀ r, r ∉ e.mod.docDeletes.map (fun d => (d.ns, d.id)) →
    r ∉ e.mod.docChanges.map (fun c => (c.doc.ns, c.doc.id)) →
    r ∉ e.mod.docInserts.map (fun d => (d.ns, d.id)) → s'.docAt r = s.docAt r
  lock? : s'.lock? = leftLocks s.lock? e.docLocks

end JournalEntry

/-! ## The entry as a prepared modification -/

theorem EQMem.HasTask.queue_ne {s : EQMem} (h : s.Indexed) {r : TaskID} (hr : s.HasTask r) :
    r.queue ≠ "" := by
  obtain ⟨t, ht, hq, -⟩ := hr
  rw [← hq]
  exact (h.task_named ht).2.1

theorem backfill_eq (qByID : FMap String String) (mod : Modification)
    (hchanges : ∀ c ∈ mod.changes, c.task.fromQueue ≠ "")
    (hdeletes : ∀ r ∈ mod.deletes, r.queue ≠ "") (hdepends : ∀ r ∈ mod.depends, r.queue ≠ "") :
    backfill qByID mod = mod := by
  have hid : ∀ {α : Type} (f : α → α) (l : List α), (∀ a ∈ l, f a = a) → l.map f = l :=
    fun f l hf => (List.map_congr_left hf).trans (List.map_id l)
  unfold backfill
  rw [hid _ mod.changes fun c hc => if_neg (hchanges c hc),
    hid _ mod.deletes fun r hr => if_neg (hdeletes r hr),
    hid _ mod.depends fun r hr => if_neg (hdepends r hr)]

theorem ensureModQueues_none {s : EQMem} (h : s.Indexed) {mod : Modification}
    (hchanges : ∀ c ∈ mod.changes, s.HasTask c.origin) (hdeletes : ∀ r ∈ mod.deletes, s.HasTask r)
    (hdepends : ∀ r ∈ mod.depends, s.HasTask r) : ensureModQueues s.qByID mod = none := by
  have hnil : ∀ l : List TaskID, (∀ r ∈ l, s.HasTask r) →
      l.filter (fun r => r.queue == "" || r.queue != queueOf s.qByID r.id) = [] := by
    intro l hl
    rw [List.filter_eq_nil_iff]
    exact fun r hr hw => not_hasTask_of_wrong h hw (hl r hr)
  have horigins : ∀ r ∈ mod.changes.map
      (fun c => (⟨c.task.id, c.task.version, c.task.fromQueue⟩ : TaskID)), s.HasTask r := by
    intro r hr
    obtain ⟨c, hc, rfl⟩ := List.mem_map.mp hr
    exact hchanges c hc
  unfold ensureModQueues
  dsimp only
  rw [hnil _ hdeletes, hnil _ hdepends, hnil _ horigins]
  rfl

theorem changedTask_before (e : JournalEntry) (s : EQMem) (now : Time) (c : TaskChange) :
    (modPrep s e.replayed true).changedTask s now true c.before = restoredChange now c := by
  change ({ c.task with version := c.task.version - 1 + 1, modified := _ } : Task) = _
  rw [Int32.sub_add_cancel]
  rfl

namespace JournalEntry.Applies
variable {e : JournalEntry} {s : EQMem} (ha : e.Applies s) (h : s.Sound)
include ha h

theorem modPrep_mod : (modPrep s e.replayed true).mod = e.replayed := by
  apply backfill_eq
  · intro c hc
    obtain ⟨d, hd, rfl⟩ := List.mem_map.mp hc
    exact (ha.changes d hd).1.queue_ne h.indexed
  · exact fun r hr => (ha.deletes r hr).queue_ne h.indexed
  · exact fun r hr => (ha.depends r hr).queue_ne h.indexed

theorem origins_eq : (modPrep s e.replayed true).origins =
    e.mod.changes.map (fun c => c.before.origin) := by
  rw [Prepared.origins, ha.modPrep_mod h]
  change List.map _ (List.map _ _) ++ List.map _ e.mod.arrives = _
  rw [ha.arrives, List.map_map, List.map_nil, List.append_nil]
  rfl

theorem changed_changes : ((modPrep s e.replayed true).changed s).changes =
    e.mod.changes.map TaskChange.before := by
  unfold Prepared.changed arrivalChanges
  rw [ha.modPrep_mod h]
  change List.map _ _ ++ List.map _ e.mod.arrives = _
  rw [ha.arrives, List.map_nil, List.append_nil]
  rfl

theorem proper : (modPrep s e.replayed true).Proper where
  covers := modPrep_covers s e.replayed true
  once := by
    rw [Prepared.taskIDs, ha.modPrep_mod h]
    simpa [JournalEntry.replayed, ha.arrives, Function.comp_def] using ha.once
  targets c hc := by
    rw [ha.modPrep_mod h] at hc
    obtain ⟨d, hd, rfl⟩ := List.mem_map.mp hc
    exact (ha.changes d hd).2
  inserts td htd := by
    rw [ha.modPrep_mod h] at htd
    exact ⟨(ha.inserts td htd).1, (ha.inserts td htd).2.1⟩
  docInserts d hd := by
    rw [ha.modPrep_mod h] at hd
    exact ha.docInserts d hd
  docArrives a harr := by
    rw [ha.modPrep_mod h] at harr
    change a ∈ e.mod.docArrives at harr
    rw [ha.docArrives] at harr
    cases harr
  docOnce := by
    rw [Prepared.docRefs, ha.modPrep_mod h]
    simpa [JournalEntry.replayed, Function.comp_def] using ha.docOnce

theorem fresh : (modPrep s e.replayed true).Fresh s := by
  intro td htd
  rw [ha.modPrep_mod h] at htd
  exact (ha.inserts td htd).2.2

theorem fits : (modPrep s e.replayed true).Fits s where
  deletes r hr := by
    rw [ha.modPrep_mod h] at hr
    exact ha.deletes r hr
  depends r hr := by
    rw [ha.modPrep_mod h] at hr
    exact ha.depends r hr
  changes r hr := by
    rw [ha.origins_eq h] at hr
    obtain ⟨c, hc, rfl⟩ := List.mem_map.mp hr
    exact (ha.changes c hc).1
  inserts td htd t ht := by
    rw [ha.fresh h td htd] at ht
    cases ht

/-- Whoever holds the tasks, the entry is not refused. -/
theorem passes (now : Time) : (modPrep s e.replayed true).Passes s now true := by
  have hp := ha.proper h
  have hqueues : (modPrep s e.replayed true).queueDeps = none := by
    change ensureModQueues s.qByID (modPrep s e.replayed true).mod = none
    apply ensureModQueues_none h.indexed
    · intro c hc
      apply (ha.fits h).changes
      exact List.mem_append_left _ (List.mem_map_of_mem hc)
    · exact (ha.fits h).deletes
    · exact (ha.fits h).depends
  intro x hx
  rw [if_pos rfl]
  simp only [Prepared.failures, List.mem_cons, List.not_mem_nil, or_false] at hx
  rcases hx with rfl | rfl | rfl
  · rw [hqueues]
    rfl
  · exact (hp.covers.fits_iff now h.indexed hp.once).mpr (ha.fits h)
  · rfl

theorem docsGo (now : Time) : (modPrep s e.replayed true).DocsGo s now true where
  places := by
    intro r hr
    rw [Prepared.docWrites_places, ha.modPrep_mod h] at hr
    simp only [JournalEntry.replayed, List.mem_append, List.mem_map] at hr
    rcases hr with (⟨d, hd, rfl⟩ | ⟨c, ⟨d, hd, rfl⟩, rfl⟩) | ⟨d, hd, rfl⟩
    · exact ha.docDeletes d hd
    · exact (ha.docChanges d hd).1
    · exact (ha.docInserts d hd).2
  ids := by
    intro c hc
    rw [ha.modPrep_mod h] at hc
    obtain ⟨d, hd, rfl⟩ := List.mem_map.mp hc
    exact (ha.docChanges d hd).2
  locked := nofun
  stored := nofun

/-- The modification of the entry is applied, also where there is nothing to lock. -/
theorem applied (now : Time) : ∃ s' r,
    modApply s (modPrep s e.replayed true) now true = (s', .ok r) ∧
      Applied (modPrep s e.replayed true) s now true s' := by
  have hp := ha.proper h
  cases hgo : (modPrep s e.replayed true).shortCircuits with
  | false =>
    obtain ⟨s', hr, happ⟩ := modApply_pass h hp hgo rfl (ha.passes h now) (ha.fresh h) (ha.docsGo h now)
    exact ⟨s', _, hr, happ⟩
  | true =>
    refine ⟨s, {}, by rw [modApply, hgo, if_pos rfl], ?_⟩
    simp only [Prepared.shortCircuits, Bool.and_eq_true, List.isEmpty_iff] at hgo
    obtain ⟨⟨⟨⟨-, hqueues⟩, hnamespaces⟩, -⟩, -⟩ := hgo
    have htasks : (modPrep s e.replayed true).taskOps s now true = [] := by
      rw [List.eq_nil_iff_forall_not_mem]
      intro op hop
      have := hp.taskOps_queues now true h.indexed (ha.fits h) op hop
      rw [hqueues] at this
      cases this
    have hdocs : (modPrep s e.replayed true).docWrites s now true = [] := by
      rw [List.eq_nil_iff_forall_not_mem]
      intro w hw
      have := hp.covers.docWrites_locked now true (ha.docsGo h now).places w hw
      rw [hnamespaces] at this
      cases this
    exact ⟨h, by rw [htasks]; rfl, by rw [hdocs]; rfl, rfl, fun g => by simp [hdocs]⟩

theorem tasks_made (now : Time) : (modPrep s e.replayed true).TasksAfter s now true
    (effects s.task ((modPrep s e.replayed true).taskOps s now true)) :=
  (ha.proper h).tasksAfter now true h.indexed (ha.fits h)

theorem insertedTask_eq (now : Time) (td : TaskData) :
    (modPrep s e.replayed true).insertedTask now true td =
      restoredInsert e.mod.claimant now td := by
  unfold Prepared.insertedTask restoredInsert
  rw [ha.modPrep_mod h]
  rfl

theorem changedDoc_eq (now : Time) {c : DocChange} (hc : c ∈ e.mod.docChanges) {old : Doc}
    (hold : s.docAt (c.doc.ns, c.doc.id) = some old) :
    (modPrep s e.replayed true).changedDoc s now true c.before = restoredDocChange now c old := by
  have hr : (c.doc.ns, c.doc.id) ∈ (modPrep s e.replayed true).docRefs := by
    rw [Prepared.docRefs, ha.modPrep_mod h]
    simp only [JournalEntry.replayed, List.mem_append, List.mem_map, List.map_map]
    exact .inl (.inr ⟨c, hc, rfl⟩)
  have hf : ((modPrep s e.replayed true).foundDocs s).lookup
      (docKey c.before.doc.ns c.before.doc.id) = some old :=
    ((ha.proper h).foundDocs_eq h.docs h.docIDs hr).trans hold
  rw [Prepared.changedDoc_of_found _ _ _ _ hf]
  simp only [Prepared.withLock, if_true, Bool.not_true, Bool.false_or, DocChange.before,
    Int32.sub_add_cancel, restoredDocChange, orNow]
  by_cases hm : c.doc.modified = 0 <;> simp [hm]

end JournalEntry.Applies

/-- Replaying an entry that applies does not fail, and leaves its final states. -/
theorem playJournalEntry_spec {e : JournalEntry} {s : EQMem} (h : s.Sound) (ha : e.Applies s)
    (now : Time) : ∃ s', playJournalEntry s e now = .ok s' ∧ e.Made s now s' := by
  obtain ⟨s₁, r, hr, happ⟩ := ha.applied h now
  have hid : missingInsertID e.replayed = none := by
    have h1 : e.replayed.inserts.any (fun t => t.id == "") = false := by
      rw [List.any_eq_false]
      exact fun td htd => by simpa using (ha.inserts td htd).1
    have h2 : e.replayed.docInserts.any (fun d => d.id == "") = false := by
      rw [List.any_eq_false]
      exact fun d hd => by simpa using (ha.docInserts d hd).1
    simp [missingInsertID, h1, h2]
  have hplay : playJournalEntry s e now = .ok (restoreLocks s₁ e.docLocks) := by
    unfold playJournalEntry modifyImpl
    rw [hid]
    dsimp only
    rw [hr]
  have hre := restoreLocks_spec happ.sound e.docLocks ha.locks
  have htask := hre.task.trans happ.task
  have hdoc := hre.docAt.trans happ.docAt
  have hafter := ha.tasks_made h now
  have hdocs := (ha.proper h).docsAfter (s := s) now true
  refine ⟨_, hplay, hre.sound, ?_, ?_, ?_, ?_, ?_, ?_, ?_, ?_, hre.lock?.trans (by rw [happ.lock?]; rfl)⟩
  · intro r hr
    rw [htask]
    exact hafter.deleted r (by rw [ha.modPrep_mod h]; exact hr)
  · intro c hc
    rw [htask, ← changedTask_before e s]
    apply hafter.changed c.before
    rw [ha.changed_changes h]
    exact List.mem_map_of_mem hc
  · intro td htd
    rw [htask, ← ha.insertedTask_eq h]
    exact hafter.inserted td (by rw [ha.modPrep_mod h]; exact htd)
  · intro id h1 h2 h3
    rw [htask]
    apply hafter.others id
    · rwa [ha.modPrep_mod h]
    · rw [ha.origins_eq h, List.map_map]
      exact h2
    · rwa [ha.modPrep_mod h]
  · intro r hr
    rw [hdoc]
    exact hdocs.deleted r (by rw [ha.modPrep_mod h]; exact hr)
  · intro c hc old hold
    rw [hdoc, ← ha.changedDoc_eq h now hc hold]
    apply hdocs.changed c.before
    rw [ha.modPrep_mod h]
    exact List.mem_map_of_mem hc
  · intro d hd
    rw [hdoc]
    exact hdocs.inserted d (by rw [ha.modPrep_mod h]; exact hd)
  · intro r h1 h2 h3
    rw [hdoc]
    apply hdocs.others r
    · rwa [ha.modPrep_mod h]
    · rw [ha.modPrep_mod h]
      simpa [JournalEntry.replayed] using h2
    · rwa [ha.modPrep_mod h]

/-- An entry of locks alone leaves these, on any store. -/
theorem playJournalEntry_locks {s : EQMem} (h : s.Sound) {jls : List JournalLock}
    (hns : ∀ jl ∈ jls, jl.ns ≠ "") (now : Time) :
    ∃ s', playJournalEntry s { docLocks := jls } now = .ok s' ∧
      Relocked s s' (leftLocks s.lock? jls) := by
  refine ⟨restoreLocks s jls, rfl, restoreLocks_spec h jls hns⟩

end Eqmem
end EntroQ
