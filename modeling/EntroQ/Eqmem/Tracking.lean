import EntroQ.Eqmem.Replay

/-! # A store rebuilt from its journal

The rebuilt store has the live one's tasks, docs and locks, up to what a journal leaves out: a
task's earlier queue, a doc's own version and holder, which are its set's, and the counts of the
locks, which come last. Each call keeps the two in step if what it appends is replayed. -/

namespace EntroQ.Eqmem
open Foundation Docset

/-- The task as it is rebuilt: the same but for the queue it came from, and with its claimant
cleared only if its hold has ended by `at_`. -/
structure Rebuilds (at_ : Time) (t t' : Task) : Prop where
  same : { t' with claimant := t.claimant, fromQueue := t.fromQueue } = t
  holder : t'.claimant = t.claimant ∨ t'.claimant = "" ∧ t.atTime ≤ at_

/-- A doc without what belongs to its set. -/
def bare (d : Doc) : Doc := { d with version := 0, claimant := "" }

/-- The rebuilt store is in step with the live one, but for the locks of the sets in `P`. -/
structure Tracks (P : SetName → Prop) (at_ : Time) (s r : EQMem) : Prop where
  sound : r.Sound
  task : ∀ id, Option.Rel (Rebuilds at_) (s.task id) (r.task id)
  docAt : ∀ p, (r.docAt p).map bare = (s.docAt p).map bare
  lock? : ∀ g, ¬P g → r.lock? g = (s.lock? g).map (counting 0)

theorem tracks_empty (P : SetName → Prop) (at_ : Time) : Tracks P at_ {} {} where
  sound := EQMem.sound_empty
  task _ := .none
  docAt _ := rfl
  lock? _ _ := rfl

namespace Tracks
variable {P : SetName → Prop} {at_ : Time} {s r : EQMem} (h : Tracks P at_ s r)
include h

theorem hasTask {x : TaskID} (hx : s.HasTask x) : r.HasTask x := by
  obtain ⟨t, ht, hq, hv⟩ := hx
  have hrel := h.task x.id
  rw [ht] at hrel
  generalize hr : r.task x.id = new at hrel
  cases hrel with
  | some hrel =>
    rw [← hrel.same] at hq hv
    exact ⟨_, hr, hq, hv⟩

theorem task_none {id : String} (ht : s.task id = none) : r.task id = none := by
  have hrel := h.task id
  rw [ht] at hrel
  generalize r.task id = new at hrel ⊢
  cases hrel
  rfl

theorem docAt_some {p : String × String} {d : Doc} (hd : s.docAt p = some d) :
    ∃ d', r.docAt p = some d' ∧ bare d' = bare d := by
  have hmap := h.docAt p
  rw [hd, Option.map_some, Option.map_eq_some_iff] at hmap
  exact hmap

end Tracks

/-! ## Modifications -/

section Modify
variable {p : Prepared} {s s' r : EQMem} {now : Time}

theorem Prepared.mem_journaled_changes (c : TaskChange) :
    c ∈ (p.journalEntry s now false).mod.changes ↔
      ∃ c' ∈ (p.changed s).changes, { task := p.changedTask s now false c' } = c := by
  simp [journalEntry, response]

theorem Prepared.mem_journaled_inserts (td : TaskData) :
    td ∈ (p.journalEntry s now false).mod.inserts ↔
      ∃ td' ∈ p.mod.inserts, (p.insertedTask now false td').data = td := by
  simp [journalEntry, response]

theorem Prepared.mem_journaled_docChanges (c : DocChange) :
    c ∈ (p.journalEntry s now false).mod.docChanges ↔
      ∃ c' ∈ p.mod.docChanges, { doc := p.changedDoc s now false c' } = c := by
  simp [journalEntry, response]

theorem Prepared.mem_journaled_docInserts (d : DocData) :
    d ∈ (p.journalEntry s now false).mod.docInserts ↔
      ∃ d' ∈ p.mod.docInserts, (p.insertedDoc s now false d').data = d := by
  simp [journalEntry, response]

theorem changedTask_fromQueue (c : TaskChange) :
    (p.changedTask s now false c).fromQueue = c.task.fromQueue := rfl

/-- A journaled change names the task it was made from. -/
theorem changedTask_origin (c : TaskChange) :
    TaskChange.origin (TaskChange.before { task := p.changedTask s now false c }) = c.origin := by
  unfold TaskChange.origin TaskChange.before
  simp [changedTask_fromQueue]

theorem Prepared.Covers.journaled_changes (hc : p.Covers) (h : s.Indexed) :
    (p.journalEntry s now false).mod.changes.map (fun c => c.task.id) =
      p.origins.map TaskID.id := by
  rw [← hc.changed_ids h]
  simp [journalEntry, response, Function.comp_def]

theorem Prepared.journaled_inserts :
    (p.journalEntry s now false).mod.inserts.map TaskData.id = p.mod.inserts.map TaskData.id := by
  simp [journalEntry, response, Function.comp_def, Task.data, insertedTask]

theorem Prepared.journaled_docChanges :
    (p.journalEntry s now false).mod.docChanges.map (fun c => (c.doc.ns, c.doc.id)) =
      p.mod.docChanges.map (fun c => (c.doc.ns, c.doc.id)) := by
  simp [journalEntry, response, Function.comp_def]

theorem Prepared.journaled_docInserts :
    (p.journalEntry s now false).mod.docInserts.map (fun d => (d.ns, d.id)) =
      p.mod.docInserts.map (fun d => (d.ns, d.id)) := by
  simp [journalEntry, response, Function.comp_def, Doc.data]

/-- What was committed applies to a store that is in step. -/
theorem Committed.applies {P : SetName → Prop} {at_ : Time} (h : s.Sound) (hp : p.Proper)
    (hc : Committed p s now s') (ht : Tracks P at_ s r) : (p.journalEntry s now false).Applies r := by
  have hfits := hc.passes.fits hp h.indexed
  have hgo := hc.docsPass.go hp h
  have hplaces := hgo.places
  rw [Prepared.docWrites_places] at hplaces
  constructor
  · rw [hp.covers.journaled_changes h.indexed, Prepared.journaled_inserts]
    change (p.mod.deletes.map TaskID.id ++ p.mod.depends.map TaskID.id ++ _ ++ _).Nodup
    simpa [Prepared.taskIDs, Prepared.origins, Function.comp_def, TaskChange.origin] using hp.once
  · exact fun x hx => ht.hasTask (hfits.deletes x hx)
  · exact fun x hx => ht.hasTask (hfits.depends x hx)
  · intro c hcm
    obtain ⟨c', hcm', rfl⟩ := (Prepared.mem_journaled_changes _).mp hcm
    obtain ⟨hst, hq, -⟩ := hp.covers.changed_queue h.indexed hfits hp.targets hcm'
    rw [changedTask_origin]
    exact ⟨ht.hasTask hst, by simpa using hq⟩
  · intro td htd
    obtain ⟨td', htd', rfl⟩ := (Prepared.mem_journaled_inserts _).mp htd
    exact ⟨(hp.inserts td' htd').1, (hp.inserts td' htd').2, ht.task_none (hc.fresh td' htd')⟩
  · rfl
  · rw [Prepared.journaled_docChanges, Prepared.journaled_docInserts]
    exact hp.docOnce
  · intro d hd
    refine hplaces (d.ns, d.id) (List.mem_append_left _ (List.mem_append_left _ ?_))
    exact List.mem_map.mpr ⟨d, hd, rfl⟩
  · intro c hcm
    obtain ⟨c', hcm', rfl⟩ := (Prepared.mem_journaled_docChanges _).mp hcm
    rw [Prepared.changedDoc_ns, Prepared.changedDoc_id]
    refine ⟨hplaces (c'.doc.ns, c'.doc.id) (List.mem_append_left _ (List.mem_append_right _ ?_)),
      hgo.ids c' hcm'⟩
    exact List.mem_map.mpr ⟨c', hcm', rfl⟩
  · intro d hd
    obtain ⟨d', hd', rfl⟩ := (Prepared.mem_journaled_docInserts _).mp hd
    change (p.insertedDoc s now false d').id ≠ "" ∧ (p.insertedDoc s now false d').ns ≠ ""
    rw [Prepared.insertedDoc_id, Prepared.insertedDoc_ns]
    exact hp.docInserts d' hd'
  · rfl
  · intro jl hjl
    obtain ⟨gl, hgl, rfl⟩ := (mem_journalLocksOf _ _).mp hjl
    exact fun he => hp.covers.namespaces (he ▸ hgo.locked gl hgl)

theorem orNow_of_ne {t now : Time} (h : t ≠ 0) : orNow t now = t := if_neg h

theorem orNow_ne {t now : Time} (h : now ≠ 0) : orNow t now ≠ 0 := by
  unfold orNow
  split_ifs with ht
  · exact h
  · exact ht

/-- The task of a journaled insert lapses if its hold has ended. -/
theorem insertedTask_rebuilds (hnow : now ≠ 0) {then_ at_ : Time} (hle : now ≤ then_)
    (hat : then_ ≤ at_) (td : TaskData) :
    Rebuilds at_ (p.insertedTask now false td)
      (restoredInsert p.mod.claimant then_ (p.insertedTask now false td).data) := by
  have hcreated : (p.insertedTask now false td).created ≠ 0 := orNow_ne (t := td.created) hnow
  have hmodified : (p.insertedTask now false td).modified ≠ 0 := orNow_ne (t := td.modified) hnow
  constructor
  · change ({ p.insertedTask now false td with
      created := orNow (p.insertedTask now false td).created then_
      modified := orNow (p.insertedTask now false td).modified then_ } : Task) = _
    rw [orNow_of_ne hcreated, orNow_of_ne hmodified]
  · change holder p.mod.claimant (p.insertedTask now false td).atTime then_ =
      holder p.mod.claimant (p.insertedTask now false td).atTime now ∨
      holder p.mod.claimant (p.insertedTask now false td).atTime then_ = "" ∧ _
    generalize (p.insertedTask now false td).atTime = a
    unfold holder
    by_cases h1 : then_ < a
    · rw [if_pos h1, if_pos (lt_of_le_of_lt hle h1)]
      exact .inl rfl
    · rw [if_neg h1]
      exact .inr ⟨rfl, (not_lt.mp h1).trans hat⟩

/-- The stored doc of a journaled change is rebuilt as it is. -/
theorem restored_changedDoc (hnow : now ≠ 0) (then_ : Time) {c : DocChange} {d d' : Doc}
    (hf : (p.foundDocs s).lookup (docKey c.doc.ns c.doc.id) = some d) (hd : bare d' = bare d) :
    restoredDocChange then_ { doc := p.changedDoc s now false c } d' =
      p.changedDoc s now false c := by
  rw [Prepared.changedDoc_of_found _ _ _ _ hf]
  simp only [bare, Doc.mk.injEq] at hd
  obtain ⟨-, -, -, -, -, hkey, hsecondary, -, hcreated, -⟩ := hd
  simp [restoredDocChange, Prepared.withLock, overlay, hkey, hsecondary, hcreated, orNow_of_ne hnow]

theorem restored_insertedDoc (hnow : now ≠ 0) (then_ : Time) (d : DocData) :
    bare (restoredDocInsert then_ (p.insertedDoc s now false d).data) =
      bare (p.insertedDoc s now false d) := by
  have hcreated : (p.insertedDoc s now false d).created ≠ 0 := orNow_ne (t := d.created) hnow
  have hmodified : (p.insertedDoc s now false d).modified ≠ 0 := orNow_ne (t := d.modified) hnow
  change ({ p.insertedDoc s now false d with
    version := 0, claimant := ""
    created := orNow (p.insertedDoc s now false d).created then_
    modified := orNow (p.insertedDoc s now false d).modified then_ } : Doc) = _
  rw [orNow_of_ne hcreated, orNow_of_ne hmodified]
  rfl

variable {P : SetName → Prop} {at_ then_ : Time} {r' : EQMem}

theorem Committed.task_tracks (h : s.Sound) (hp : p.Proper) (hc : Committed p s now s')
    (ht : Tracks P at_ s r) (hnow : now ≠ 0) (hle : now ≤ then_) (hat : then_ ≤ at_)
    (hm : (p.journalEntry s now false).Made r then_ r') (id : String) :
    Option.Rel (Rebuilds at_) (s'.task id) (r'.task id) := by
  have hafter := hp.tasksAfter now false h.indexed (hc.passes.fits hp h.indexed)
  rw [hc.applied.task]
  by_cases hd : id ∈ p.mod.deletes.map TaskID.id
  · obtain ⟨x, hx, rfl⟩ := List.mem_map.mp hd
    rw [hafter.deleted x hx, hm.deleted x hx]
    exact .none
  by_cases ho : id ∈ p.origins.map TaskID.id
  · rw [← hp.covers.changed_ids h.indexed] at ho
    obtain ⟨c, hcm, rfl⟩ := List.mem_map.mp ho
    have hr := hm.changed _ ((Prepared.mem_journaled_changes _).mpr ⟨c, hcm, rfl⟩)
    rw [Prepared.changedTask_id] at hr
    rw [hafter.changed c hcm, hr]
    refine .some ?_
    change Rebuilds at_ _ { p.changedTask s now false c with modified := orNow now then_ }
    rw [orNow_of_ne hnow]
    exact ⟨rfl, .inl rfl⟩
  by_cases hi : id ∈ p.mod.inserts.map TaskData.id
  · obtain ⟨td, htd, rfl⟩ := List.mem_map.mp hi
    have hr := hm.inserted _ ((Prepared.mem_journaled_inserts _).mpr ⟨td, htd, rfl⟩)
    rw [hafter.inserted td htd, show r'.task td.id = _ from hr]
    exact .some (insertedTask_rebuilds hnow hle hat td)
  · rw [hafter.others id hd ho hi, hm.others id hd]
    · exact ht.task id
    · rwa [hp.covers.journaled_changes h.indexed]
    · rwa [Prepared.journaled_inserts]

theorem Committed.docAt_tracks (h : s.Sound) (hp : p.Proper) (hc : Committed p s now s')
    (ht : Tracks P at_ s r) (hnow : now ≠ 0)
    (hm : (p.journalEntry s now false).Made r then_ r') (q : String × String) :
    (r'.docAt q).map bare = (s'.docAt q).map bare := by
  have hafter := hp.docsAfter (s := s) now false
  rw [hc.applied.docAt]
  by_cases hd : q ∈ p.mod.docDeletes.map (fun d => (d.ns, d.id))
  · obtain ⟨x, hx, rfl⟩ := List.mem_map.mp hd
    rw [hm.docDeleted x hx, hafter.deleted x hx]
  by_cases hch : q ∈ p.mod.docChanges.map (fun c => (c.doc.ns, c.doc.id))
  · obtain ⟨c, hcm, rfl⟩ := List.mem_map.mp hch
    obtain ⟨old, ⟨hold, -⟩, -⟩ := hc.docsPass.change hcm
    change s.docAt (c.doc.ns, c.doc.id) = some old at hold
    obtain ⟨old', hold', hbare⟩ := ht.docAt_some hold
    have href : (c.doc.ns, c.doc.id) ∈ p.docRefs := by
      simp only [Prepared.docRefs, List.mem_append]
      exact .inl (.inr hch)
    have hf := (hp.foundDocs_eq h.docs h.docIDs href).trans hold
    have hr := hm.docChanged _ ((Prepared.mem_journaled_docChanges _).mpr ⟨c, hcm, rfl⟩) old'
    rw [restored_changedDoc hnow then_ hf hbare, Prepared.changedDoc_ns,
      Prepared.changedDoc_id] at hr
    rw [hr hold', hafter.changed c hcm]
  by_cases hi : q ∈ p.mod.docInserts.map (fun d => (d.ns, d.id))
  · obtain ⟨d, hdm, rfl⟩ := List.mem_map.mp hi
    have hr := hm.docInserted _ ((Prepared.mem_journaled_docInserts _).mpr ⟨d, hdm, rfl⟩)
    change r'.docAt ((p.insertedDoc s now false d).ns, (p.insertedDoc s now false d).id) = _ at hr
    rw [Prepared.insertedDoc_ns, Prepared.insertedDoc_id] at hr
    rw [hr, hafter.inserted d hdm, Option.map_some, Option.map_some, restored_insertedDoc hnow]
  · rw [hafter.others q hd hch hi, hm.docOthers q hd]
    · exact ht.docAt q
    · rwa [Prepared.journaled_docChanges]
    · rwa [Prepared.journaled_docInserts]

/-- The journal of a committed modification keeps the rebuilt store in step. -/
theorem Committed.tracks (h : s.Sound) (hp : p.Proper) (hc : Committed p s now s')
    (ht : Tracks P at_ s r) (hnow : now ≠ 0) (hle : now ≤ then_) (hat : then_ ≤ at_) :
    ∃ r', playJournalEntry r (p.journalEntry s now false) then_ = .ok r' ∧ Tracks P at_ s' r' := by
  obtain ⟨r', hr, hm⟩ := playJournalEntry_spec ht.sound (hc.applies h hp ht) then_
  refine ⟨r', hr, hm.sound, hc.task_tracks h hp ht hnow hle hat hm, hc.docAt_tracks h hp ht hnow hm,
    fun g hg => ?_⟩
  rw [hm.lock?, hc.applied.lock?]
  exact leftLocks_journalLocksOf _ (Prepared.lockWrites_nodup now false) (hc.docsPass.go hp h).stored
    (ht.lock? g hg)

end Modify

/-! ## Claims and collections -/

section Claims
variable {P : SetName → Prop} {at_ : Time} {s s' r : EQMem}

theorem claimedTask_origin (t : Task) (claimant : String) (newAt now : Time) :
    TaskChange.origin (TaskChange.before
      { task := { claimedTask claimant newAt now t with fromQueue := t.queue } }) =
      t.idVersion := by
  simp [TaskChange.origin, TaskChange.before, claimedTask, Task.idVersion]

/-- A claim is journaled as a change that does not move the task. -/
theorem TookTask.tracks {cq : ClaimQuery} {a : Attempt} {c : Claimed} {old : Task} (h : s.Sound)
    (hc : TookTask s cq a s' c old) (ht : Tracks P at_ s r) (hnow : a.now ≠ 0) (then_ : Time) :
    ∃ r', playJournalEntry r c.entry then_ = .ok r' ∧ Tracks P at_ s' r' := by
  have happlies : c.entry.Applies r := by
    rw [hc.entry, hc.task]
    refine ⟨by simp [claimEntry], nofun, nofun, ?_, nofun, rfl, by simp [claimEntry], nofun, nofun,
      nofun, rfl, nofun⟩
    intro ch hch
    rw [List.mem_singleton.mp hch]
    refine ⟨?_, (h.indexed.task_named hc.stored).2.1⟩
    change r.HasTask (TaskChange.origin (TaskChange.before
      { task := { claimedTask cq.claimant (a.now + cq.duration) a.now old with
        fromQueue := old.queue } }))
    rw [claimedTask_origin]
    exact ht.hasTask ⟨old, hc.stored, rfl, rfl⟩
  obtain ⟨r', hr, hm⟩ := playJournalEntry_spec ht.sound happlies then_
  rw [hc.entry] at hm
  have hid : c.task.id = old.id := by rw [hc.task]; rfl
  refine ⟨r', hr, hm.sound, fun id => ?_, fun q => ?_, fun g hg => ?_⟩
  · rw [hc.table]
    by_cases he : id = old.id
    · have hchanged := hm.changed _ (List.mem_singleton_self _)
      change r'.task c.task.id = _ at hchanged
      rw [he, Function.update_self, ← hid, hchanged]
      refine .some ?_
      have hmod : c.task.modified ≠ 0 := by
        rw [hc.task]
        exact hnow
      change Rebuilds at_ c.task { c.task with
        fromQueue := c.task.queue, modified := orNow c.task.modified then_ }
      rw [orNow_of_ne hmod]
      exact ⟨rfl, .inl rfl⟩
    · rw [Function.update_of_ne he, hm.others id nofun _ nofun]
      · exact ht.task id
      · change id ∉ [c.task.id]
        rw [hid]
        simpa using he
  · rw [hc.docs.docAt, hm.docOthers q nofun nofun nofun]
    exact ht.docAt q
  · rw [hc.docs.lock?, hm.lock?]
    exact ht.lock? g hg

theorem TookSets.tracks {cq : DocClaim} {now until_ : Time} {d : DocsClaimed}
    (hc : TookSets s cq now until_ s' d) (ht : Tracks P at_ s r) (then_ : Time) :
    ∃ r', playJournalEntry r d.entry then_ = .ok r' ∧ Tracks P at_ s' r' := by
  have hns : ∀ jl ∈ journalLocksOf (takenLocks s cq until_), jl.ns ≠ "" := by
    intro jl hjl
    obtain ⟨gl, hgl, rfl⟩ := (mem_journalLocksOf _ _).mp hjl
    obtain ⟨g, hg, rfl⟩ := List.mem_map.mp hgl
    exact (hc.valid.named g hg).1
  have hn : ((takenLocks s cq until_).map Prod.fst).Nodup := by
    rw [takenLocks, List.map_map]
    exact (List.map_id (setsOf cq)).symm ▸ hc.valid.once
  have hstored : ∀ gl ∈ takenLocks s cq until_, gl.2.stored = true := by
    intro gl hgl
    obtain ⟨g, -, rfl⟩ := List.mem_map.mp hgl
    rfl
  obtain ⟨r', hr, hre⟩ := playJournalEntry_locks ht.sound hns then_
  rw [← hc.entry] at hr
  refine ⟨r', hr, hre.sound, fun id => ?_, fun q => ?_, fun g hg => ?_⟩
  · rw [hc.task, hre.task]
    exact ht.task id
  · rw [hc.docAt, hre.docAt]
    exact ht.docAt q
  · rw [hc.lock?, hre.lock?]
    exact leftLocks_journalLocksOf _ hn hstored (ht.lock? g hg)

/-- Until a collection is recorded, the rebuilt store still has its locks. -/
theorem Collected.tracks {now : Time} {new : List (SetName × Lock)} (hc : Collected s now s' new)
    (ht : Tracks P at_ s r) : Tracks (fun g => P g ∨ g ∈ new.map Prod.fst) at_ s' r where
  sound := ht.sound
  task := by
    rw [hc.task]
    exact ht.task
  docAt := by
    rw [hc.docAt]
    exact ht.docAt
  lock? g hg := by
    rw [hc.lock?, if_neg fun hm => hg (.inr hm)]
    exact ht.lock? g fun hp => hg (.inl hp)

/-- Recording it deletes them, which is right if none of them has come back. -/
theorem Tracks.recorded {new : List (SetName × Lock)} {e : JournalEntry}
    (ht : Tracks (fun g => P g ∨ g ∈ new.map Prod.fst) at_ s r) (hn : (new.map Prod.fst).Nodup)
    (hns : ∀ gl ∈ new, gl.1.ns ≠ "") (hgone : ∀ g ∈ new.map Prod.fst, s.lock? g = none)
    (he : collectEntry new = some e) (then_ : Time) :
    ∃ r', playJournalEntry r e then_ = .ok r' ∧ Tracks P at_ s r' := by
  unfold collectEntry at he
  split_ifs at he
  cases he
  have hns' : ∀ jl ∈ (journalLocksOf new).map (fun l => { l with deleted := true }), jl.ns ≠ "" := by
    intro jl hjl
    obtain ⟨jl', hjl', rfl⟩ := List.mem_map.mp hjl
    obtain ⟨gl, hgl, rfl⟩ := (mem_journalLocksOf _ _).mp hjl'
    exact hns gl hgl
  obtain ⟨r', hr, hre⟩ := playJournalEntry_locks ht.sound hns' then_
  refine ⟨r', hr, hre.sound, fun id => ?_, fun q => ?_, fun g hg => ?_⟩
  · rw [hre.task]
    exact ht.task id
  · rw [hre.docAt]
    exact ht.docAt q
  · rw [hre.lock?, leftLocks_deleted _ _ hn]
    split_ifs with hm
    · rw [hgone g hm]
      rfl
    · exact ht.lock? g (not_or.mpr ⟨hg, hm⟩)

theorem Collected.named {now : Time} {new : List (SetName × Lock)} (h : s.Sound)
    (hc : Collected s now s' new) : ∀ gl ∈ new, gl.1.ns ≠ "" := by
  intro gl hgl he
  have hl := (hc.idle gl hgl).1
  obtain ⟨n, hn, -⟩ := Option.bind_eq_some_iff.mp hl
  exact (h.docs.valid _ _ hn).1 he

end Claims

end EntroQ.Eqmem
