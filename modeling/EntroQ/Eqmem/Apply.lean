import EntroQ.Eqmem.DocWrites

/-! # Applying a modification

What `modApply` does to a sound store: a call that does not succeed leaves it as it was, and one
that passes its checks leaves a sound store with the tables its operations make. -/

namespace EntroQ.Eqmem
open Foundation Docset

namespace EQMem

/-- The store's parts agree with each other, and it keeps nothing that is empty. -/
structure Sound (s : EQMem) : Prop where
  indexed : s.Indexed
  docs : s.DocsValid
  docIDs : s.DocsNamed
  locks : ∀ g l, s.lock? g = some l → l.stored = true
  queues : ∀ q ql, s.queues.lookup q = some ql → ql.idle = false
  namespaces : ∀ k n, s.namespaces.lookup k = some n → n.idle = false

theorem sound_empty : Sound {} where
  indexed := indexed_empty
  docs := docsValid_empty
  docIDs p d h := by simp [docAt, doc?] at h
  locks g l h := by simp [EQMem.lock?] at h
  queues q ql h := by simp at h
  namespaces k n h := by simp at h

/-- Two stores in which operations find the same. -/
structure View (s s' : EQMem) : Prop where
  stored : s'.stored = s.stored
  doc? : s'.doc? = s.doc?
  occupant : s'.occupant = s.occupant
  lockOf : s'.lockOf = s.lockOf

theorem view_locked (s : EQMem) (p : Prepared) : View s (s.locked p) where
  stored := by
    funext q id
    exact stored_lockQueues p.queues q id
  doc? := by
    funext ns id
    exact congrFun (sameDocs_lockNamespaces (s := s.lockQueues p.queues) p.namespaces).docAt (ns, id)
  occupant := occupant_lockNamespaces (s := s.lockQueues p.queues) p.namespaces
  lockOf := (sameDocs_lockNamespaces (s := s.lockQueues p.queues) p.namespaces).lockOf

/-- Locking and unlocking is undone. -/
theorem Sound.unlock_lock {s : EQMem} (h : s.Sound) (qs ns : List String) :
    (((s.lockQueues qs).lockNamespaces ns).unlockNamespaces ns).unlockQueues qs = s := by
  have hq : Registry.release QLock.idle qs (Registry.acquire newQLock qs s.queues) = s.queues :=
    Registry.release_acquire _ _ _ _ (fun k => rfl) h.queues
  have hn : Registry.release DocNamespace.idle ns
      (Registry.acquire newDocNamespace ns s.namespaces) = s.namespaces :=
    Registry.release_acquire _ _ _ _
      (fun k => by simp [DocNamespace.idle, newDocNamespace, DocNamespace.len, OrderedTree.len,
        OrderedTree.empty]) h.namespaces
  unfold unlockQueues unlockNamespaces lockNamespaces lockQueues
  simp only [hq, hn]

end EQMem

namespace Prepared
variable (p : Prepared) {s s' : EQMem} (v : EQMem.View s s') (now : Time) (replay : Bool)
include v

theorem found_congr : p.found s' = p.found s := by
  have : p.addFound s' = p.addFound s := by
    funext m r
    unfold addFound
    rw [v.stored]
  rw [found, found, this]

theorem foundDocs_congr : p.foundDocs s' = p.foundDocs s := by
  have : p.addFoundDoc s' = p.addFoundDoc s := by
    funext m r
    unfold addFoundDoc
    rw [v.doc?]
  rw [foundDocs, foundDocs, this]

theorem changed_congr : p.changed s' = p.changed s := by
  rw [changed, changed, p.found_congr v]

theorem docPlan_congr : p.docPlan s' now replay = p.docPlan s now replay := by
  unfold docPlan
  rw [p.changed_congr v, p.foundDocs_congr v, v.occupant, v.lockOf]

theorem depErr_congr : p.depErr s' now replay = p.depErr s now replay := by
  unfold depErr foundDeps taskMod
  rw [p.changed_congr v, p.found_congr v, p.docPlan_congr v]

theorem changedTask_congr : p.changedTask s' now replay = p.changedTask s now replay := by
  funext c
  unfold changedTask
  rw [p.found_congr v]

theorem taskOps_congr : p.taskOps s' now replay = p.taskOps s now replay := by
  have : p.changeOps s' now replay = p.changeOps s now replay := by
    funext c
    unfold changeOps
    rw [p.changedTask_congr v]
  rw [taskOps, taskOps, this, p.changed_congr v]

theorem withLock_congr : p.withLock s' now replay = p.withLock s now replay := by
  funext d
  unfold withLock
  rw [p.docPlan_congr v, v.lockOf]

theorem changedDoc_congr : p.changedDoc s' now replay = p.changedDoc s now replay := by
  funext c
  unfold changedDoc
  rw [p.foundDocs_congr v, p.withLock_congr v]

theorem insertedDoc_congr : p.insertedDoc s' now replay = p.insertedDoc s now replay := by
  funext d
  unfold insertedDoc
  rw [p.withLock_congr v]

theorem docWrites_congr : p.docWrites s' now replay = p.docWrites s now replay := by
  rw [docWrites, docWrites, p.changedDoc_congr v, p.insertedDoc_congr v]

theorem lockWrites_congr : p.lockWrites s' now replay = p.lockWrites s now replay := by
  rw [lockWrites, lockWrites, p.docPlan_congr v]

theorem response_congr : p.response s' now replay = p.response s now replay := by
  unfold response
  rw [p.changedTask_congr v, p.changed_congr v, p.insertedDoc_congr v, p.changedDoc_congr v,
    p.docPlan_congr v]

theorem journalEntry_congr : p.journalEntry s' now replay = p.journalEntry s now replay := by
  unfold journalEntry
  rw [p.response_congr v, p.lockWrites_congr v]

end Prepared

/-! ## All writes of a critical section -/

section Write
variable {s : EQMem} {queues namespaces : List String} {docs : List DocWrite}
  {locks : List (SetName × Lock)} (hd : s.DocsValid)
  (hn : ∀ k ∈ namespaces, ∃ n, s.namespaces.lookup k = some n)
  (hdocs : ∀ w ∈ docs, w.place.1 ∈ namespaces) (hplaces : (docs.map DocWrite.place).Nodup)
  (hlocks : ∀ gl ∈ locks, gl.1.ns ∈ namespaces)
include hd hn hdocs hplaces hlocks

/-- Once the writes to queues are made, those to namespaces whose locks are held do what they say,
and touch nothing else. -/
theorem EQMem.write_of_ops {ops : List TaskOp} {qs : FMap String QLock}
    (hr : ops.foldlM (TaskOp.run queues) s.queues = some qs) :
    ∃ ns, let s' : EQMem := ⟨qs, ns, ops.foldl TaskOp.finish s.qByID⟩
      s.write queues namespaces ops docs locks = (s', true) ∧ s'.DocsValid ∧
      s'.docAt = docEffects s.docAt docs ∧ s'.lock? = lockEffects s.lock? locks ∧
      (∀ g, s'.count g = s.count g + (docs.map (DocWrite.delta s.docAt g)).sum) ∧
      ∀ k, k ∉ namespaces → s'.namespaces.lookup k = s.namespaces.lookup k := by
  obtain ⟨ns, hr2, hd2, ha2, hl2, hc2, hp2, hf2⟩ := hd.run_writes hn docs hdocs hplaces
  obtain ⟨ns', hr3, hd3, ha3, hl3, hc3, hf3⟩ := hd2.run_locks hp2 locks hlocks
  have hr3 : locks.foldlM (writeLock namespaces) ns = some ns' := hr3
  refine ⟨ns', ?_, ⟨hd3.valid⟩, ha3.trans ha2, hl2 ▸ hl3, ?_, ?_⟩
  · rw [EQMem.write, Registry.writeAll_of_foldlM hr, Registry.writeAll_of_foldlM hr2]
    dsimp only
    rw [Registry.writeAll_of_foldlM hr3]
  · intro g
    exact (congrFun hc3 g).trans (hc2 g)
  · intro k hk
    exact (hf3 k hk).trans (hf2 k hk)

variable (hi : s.Indexed) (hq : ∀ q ∈ queues, ∃ ql, s.queues.lookup q = some ql)
  {ops : List TaskOp} (hlegal : LegalAll s.task ops)
include hi hq hlegal

/-- Legal writes under locks that are held do what they say, and touch nothing else. -/
theorem EQMem.write_spec (hops : ∀ op ∈ ops, op.queue ∈ queues) :
    ∃ s', s.write queues namespaces ops docs locks = (s', true) ∧ s'.Indexed ∧ s'.DocsValid ∧
      s'.task = effects s.task ops ∧ s'.docAt = docEffects s.docAt docs ∧
      s'.lock? = lockEffects s.lock? locks ∧
      (∀ g, s'.count g = s.count g + (docs.map (DocWrite.delta s.docAt g)).sum) ∧
      (∀ q, q ∉ queues → s'.queues.lookup q = s.queues.lookup q) ∧
      ∀ k, k ∉ namespaces → s'.namespaces.lookup k = s.namespaces.lookup k := by
  obtain ⟨qs, hr, hi', ht, -, hfq⟩ := hi.run_ops hq ops hops hlegal
  obtain ⟨ns, hw, hd', ha, hl, hc, hfn⟩ := EQMem.write_of_ops hd hn hdocs hplaces hlocks hr
  exact ⟨_, hw, ⟨hi'.queues, hi'.named, hi'.index⟩, hd', ht, ha, hl, hc, hfq, hfn⟩

/-- Legal writes to stored tasks, and any inserts after them, do not panic. -/
theorem EQMem.write_finishes {inserted : List Task}
    (hops : ∀ op ∈ ops ++ inserted.map TaskOp.insert, op.queue ∈ queues) :
    (s.write queues namespaces (ops ++ inserted.map TaskOp.insert) docs locks).2 = true := by
  obtain ⟨qs, hr, -, -, hp, -⟩ :=
    hi.run_ops hq ops (fun op hop => hops op (List.mem_append_left _ hop)) hlegal
  obtain ⟨qs', hr'⟩ := run_inserts inserted
    (fun t ht => hops (.insert t) (List.mem_append_right _ (List.mem_map_of_mem ht))) hp
  have hall : (ops ++ inserted.map TaskOp.insert).foldlM (TaskOp.run queues) s.queues =
      some qs' := by
    rw [List.foldlM_append, hr]
    exact hr'
  obtain ⟨ns, hw, -⟩ := EQMem.write_of_ops hd hn hdocs hplaces hlocks hall
  rw [hw]

end Write

/-! ## The call -/

namespace Prepared

structure DocsGo (p : Prepared) (s : EQMem) (now : Time) (replay : Bool) : Prop where
  places : ∀ r ∈ (p.docWrites s now replay).map DocWrite.place, r.1 ≠ ""
  ids : ∀ c ∈ p.mod.docChanges, c.doc.id ≠ ""
  locked : ∀ gl ∈ p.lockWrites s now replay, gl.1.ns ∈ p.namespaces
  stored : ∀ gl ∈ p.lockWrites s now replay, gl.2.stored = true

variable {p : Prepared} {s : EQMem} {now : Time} {replay : Bool}

theorem DocsPass.go (hd : p.DocsPass s now) (hp : p.Proper) (h : s.Sound) :
    p.DocsGo s now false where
  places := hd.places now hp h.docs
  ids c hc := by
    obtain ⟨d, ⟨hold, -⟩, -⟩ := hd.change hc
    exact h.docIDs (c.doc.ns, c.doc.id) d hold
  locked := hd.lockWrites_locked now hp h.docs h.docIDs
  stored gl hgl := by
    obtain ⟨⟨g, l⟩, hm, rfl⟩ := List.mem_map.mp hgl
    have hl := AList.mem_lookup_iff.mpr hm
    rw [hp.docPlan_eq now h.docs h.docIDs] at hl
    have herr := (evaluate_err_none_iff p.mod now (fun ns id => s.docAt (ns, id)) s.occupant
      s.lockOf).mpr hd
    obtain ⟨w, rfl, -⟩ := evaluate_locks _ _ _ _ _ herr g l hl
    rfl

theorem DocsGo.named (hg : p.DocsGo s now replay) (hp : p.Proper) (hids : s.DocsNamed)
    {s' : EQMem} (ha : s'.docAt = docEffects s.docAt (p.docWrites s now replay)) :
    s'.DocsNamed := by
  intro r d hr
  rw [ha] at hr
  by_cases hm : r ∈ (p.docWrites s now replay).map DocWrite.place
  · obtain ⟨w, hw, rfl⟩ := List.mem_map.mp hm
    rw [docEffects_of_mem _ _ (hp.docWrites_nodup now replay) w hw] at hr
    simp only [docWrites, List.mem_append, List.mem_map] at hw
    rcases hw with (⟨d', -, rfl⟩ | ⟨c, hc, rfl⟩) | ⟨d', hd', rfl⟩
    · cases hr
    · rw [DocWrite.place, changedDoc_id]
      exact hg.ids c hc
    · rw [DocWrite.place, insertedDoc_id]
      exact (hp.docInserts d' hd').1
  · rw [docEffects_of_notMem _ _ _ hm] at hr
    exact hids r d hr

theorem DocsGo.locks_stored (hg : p.DocsGo s now replay)
    (hl : ∀ g l, s.lock? g = some l → l.stored = true) {s' : EQMem}
    (ha : s'.lock? = lockEffects s.lock? (p.lockWrites s now replay)) :
    ∀ g l, s'.lock? g = some l → l.stored = true := by
  intro g l hgl
  rw [ha, lockEffects_lockWrites] at hgl
  rcases Option.or_eq_some_iff.mp hgl with hp | ⟨-, hold⟩
  · exact hg.stored (g, l) (List.mem_map.mpr ⟨⟨g, l⟩, AList.mem_lookup_iff.mp hp, rfl⟩)
  · exact hl g l hold

theorem Passes.fits (hpass : p.Passes s now replay) (hp : p.Proper) (h : s.Indexed) :
    p.Fits s := by
  apply (hp.covers.fits_iff now h hp.once).mp
  have := hpass (p.taskFailures s now) (by simp [failures])
  cases replay with
  | true => exact this
  | false => exact DependencyError.onlyClaims_of_hasAny this

theorem Passes.docsPass (hpass : p.Passes s now false) (hp : p.Proper) (h : s.Sound) :
    p.DocsPass s now :=
  (hp.docFailures_hasAny now h.docs h.docIDs).mp
    (hpass (p.docFailures s now false) (by simp [failures]))

end Prepared

/-- The tables after a modification that was applied. -/
structure Applied (p : Prepared) (s : EQMem) (now : Time) (replay : Bool) (s' : EQMem) : Prop where
  sound : s'.Sound
  task : s'.task = effects s.task (p.taskOps s now replay)
  docAt : s'.docAt = docEffects s.docAt (p.docWrites s now replay)
  lock? : s'.lock? = lockEffects s.lock? (p.lockWrites s now replay)
  count : ∀ g, s'.count g =
    s.count g + ((p.docWrites s now replay).map (DocWrite.delta s.docAt g)).sum

section Call
variable {p : Prepared} {s : EQMem} {now : Time} {replay : Bool}

/-- Locking a sound store leaves its tables as they were. -/
theorem EQMem.Sound.locked {s : EQMem} (h : s.Sound) (hp : p.Proper) :
    (s.locked p).Indexed ∧ (s.locked p).DocsValid ∧ (s.locked p).task = s.task ∧
      EQMem.SameDocs s (s.locked p) := by
  obtain ⟨hi, ht⟩ := h.indexed.lockQueues p.queues
  have hd : (s.lockQueues p.queues).DocsValid := ⟨h.docs.valid⟩
  have hs := EQMem.sameDocs_lockNamespaces (s := s.lockQueues p.queues) p.namespaces
  exact ⟨⟨hi.queues, hi.named, hi.index⟩, hd.lockNamespaces hp.covers.namespaces, ht,
    ⟨hs.docAt, hs.lock?, hs.count⟩⟩

/-- Unlocking drops what the call left empty, and nothing else was empty before. -/
theorem EQMem.Sound.unlock {s : EQMem} (h : s.Sound) (s' : EQMem) (qs ns : List String)
    (hi : s'.Indexed) (hd : s'.DocsValid) (hids : s'.DocsNamed)
    (hlocks : ∀ g l, s'.lock? g = some l → l.stored = true)
    (hq : ∀ q, q ∉ qs → s'.queues.lookup q = s.queues.lookup q)
    (hn : ∀ k, k ∉ ns → s'.namespaces.lookup k = s.namespaces.lookup k) :
    ((s'.unlockNamespaces ns).unlockQueues qs).Sound ∧
      ((s'.unlockNamespaces ns).unlockQueues qs).task = s'.task ∧
      EQMem.SameDocs s' ((s'.unlockNamespaces ns).unlockQueues qs) := by
  have hi1 : (s'.unlockNamespaces ns).Indexed := ⟨hi.queues, hi.named, hi.index⟩
  obtain ⟨hi2, ht2⟩ := hi1.unlockQueues qs
  have hsame := hd.sameDocs_unlockNamespaces ns
  have hd2 := hd.unlockNamespaces ns
  refine ⟨⟨hi2, ⟨hd2.valid⟩, ?_, ?_, ?_, ?_⟩, ht2, ⟨hsame.docAt, hsame.lock?, hsame.count⟩⟩
  · intro r d hr
    exact hids r d ((congrFun hsame.docAt r).symm.trans hr)
  · intro g l hl
    exact hlocks g l ((congrFun hsame.lock? g).symm.trans hl)
  · apply Registry.release_busy
    intro q ql hnot hl
    exact h.queues q ql (hq q hnot ▸ hl)
  · apply Registry.release_busy
    intro k n hnot hl
    exact h.namespaces k n (hn k hnot ▸ hl)

/-- A set reference in no namespace is looked up in a lock that is not there. -/
def Prepared.unlockedSet (p : Prepared) : Bool := p.namedSets.any (fun g => g.ns ∉ p.namespaces)

theorem modApply_of_locked (hgo : p.shortCircuits = false) {s₁ : EQMem} {r : Except Fault Modified}
    (hm : modLocked (s.locked p) p now replay = (s₁, r)) :
    modApply s p now replay =
      ((s₁.unlockNamespaces p.namespaces).unlockQueues p.queues, r) := by
  unfold modApply
  rw [hgo, if_neg Bool.false_ne_true]
  dsimp only
  rw [hm]

/-- A call that ends with its checks changes nothing. -/
theorem modApply_of_checked (h : s.Sound) (hgo : p.shortCircuits = false) {f : Fault}
    (hm : modLocked (s.locked p) p now replay = (s.locked p, .error f)) :
    modApply s p now replay = (s, .error f) := by
  rw [modApply_of_locked hgo hm, EQMem.locked, h.unlock_lock p.queues p.namespaces]

/-- The checks pass and the writes go through. -/
theorem modApply_written (hgo : p.shortCircuits = false)
    (hnil : (!replay && p.unlockedSet) = false) (hpass : p.Passes s now replay) {s₁ : EQMem}
    (hw : (s.locked p).write p.queues p.namespaces (p.taskOps s now replay)
      (p.docWrites s now replay) (p.lockWrites s now replay) = (s₁, true)) :
    modApply s p now replay = ((s₁.unlockNamespaces p.namespaces).unlockQueues p.queues,
      .ok { resp := p.response s now replay, entry := some (p.journalEntry s now replay) }) := by
  have v := s.view_locked p
  refine modApply_of_locked hgo ?_
  unfold modLocked
  change (if (!replay && p.unlockedSet) = true then _ else _) = _
  rw [hnil, if_neg Bool.false_ne_true, p.depErr_congr v, (p.passes_iff s now replay).mpr hpass,
    p.taskOps_congr v, p.docWrites_congr v, p.lockWrites_congr v, hw, p.response_congr v,
    p.journalEntry_congr v]

theorem modApply_pass (h : s.Sound) (hp : p.Proper) (hgo : p.shortCircuits = false)
    (hnil : (!replay && p.unlockedSet) = false) (hpass : p.Passes s now replay)
    (hfresh : p.Fresh s) (hdocs : p.DocsGo s now replay) :
    ∃ s', modApply s p now replay = (s', .ok { resp := p.response s now replay
                                               entry := some (p.journalEntry s now replay) }) ∧
      Applied p s now replay s' := by
  have hfits := hpass.fits hp h.indexed
  obtain ⟨hil, hdl, htl, hsame⟩ := h.locked hp
  obtain ⟨s₁, hw, hi₁, hd₁, ht₁, ha₁, hl₁, hc₁, hfq, hfn⟩ := EQMem.write_spec hdl
    (fun k hk => EQMem.lockNamespaces_present p.namespaces hk)
    (hp.covers.docWrites_locked now replay hdocs.places) (hp.docWrites_nodup now replay)
    hdocs.locked hil (fun q hq => EQMem.lockQueues_present p.queues hq)
    (htl.symm ▸ hp.legalAll now replay h.indexed hfits hfresh)
    (hp.taskOps_queues now replay h.indexed hfits)
  have ht₁' : s₁.task = effects s.task (p.taskOps s now replay) := htl ▸ ht₁
  rw [hsame.docAt] at ha₁
  rw [hsame.lock?] at hl₁
  simp only [hsame.docAt, hsame.count] at hc₁
  obtain ⟨hsound, ht, hdoc⟩ := h.unlock s₁ p.queues p.namespaces hi₁ hd₁ (hdocs.named hp h.docIDs ha₁)
    (hdocs.locks_stored h.locks hl₁)
    (fun q hq => (hfq q hq).trans
      ((Registry.lookup_acquire newQLock p.queues s.queues q).trans (if_neg hq)))
    (fun k hk => (hfn k hk).trans
      ((Registry.lookup_acquire newDocNamespace p.namespaces s.namespaces k).trans (if_neg hk)))
  refine ⟨_, modApply_written hgo hnil hpass hw, hsound, ht.trans ht₁', hdoc.docAt.trans ha₁,
    hdoc.lock?.trans hl₁, fun g => ?_⟩
  rw [hdoc.count, hc₁]

/-- Without a failed lookup, the error is the one the checks make. -/
theorem modApply_depErr (h : s.Sound) (hgo : p.shortCircuits = false)
    (hnil : (!replay && p.unlockedSet) = false) {e : DependencyError}
    (he : (p.depErr s now replay).filter (fun e => !replay || !e.onlyClaims) = some e) :
    modApply s p now replay = (s, .error (.dependency e)) := by
  have v := s.view_locked p
  refine modApply_of_checked h hgo ?_
  unfold modLocked
  change (if (!replay && p.unlockedSet) = true then _ else _) = _
  rw [hnil, if_neg Bool.false_ne_true, p.depErr_congr v, he]

theorem modApply_unlocked (h : s.Sound) (hgo : p.shortCircuits = false)
    (hnil : (!replay && p.unlockedSet) = true) :
    modApply s p now replay =
      (s, .error (.panic "invalid memory address or nil pointer dereference")) := by
  refine modApply_of_checked h hgo ?_
  unfold modLocked
  change (if (!replay && p.unlockedSet) = true then _ else _) = _
  rw [hnil, if_pos rfl]

/-- A live call whose checks pass writes all it has to write, also where an ID that it inserts has
come into another queue since it was prepared. -/
theorem modApply_isOk (h : s.Sound) (hp : p.Proper) (hgo : p.shortCircuits = false)
    (hnil : p.unlockedSet = false) (hpass : p.Passes s now false) :
    (modApply s p now false).2.isOk = true := by
  have hfits := hpass.fits hp h.indexed
  have hdocs := (hpass.docsPass hp h).go hp h
  obtain ⟨hil, hdl, htl, -⟩ := h.locked hp
  have hops := hp.taskOps_queues now false h.indexed hfits
  rw [Prepared.taskOps_split] at hops
  have hw := EQMem.write_finishes hdl
    (fun k hk => EQMem.lockNamespaces_present p.namespaces hk)
    (hp.covers.docWrites_locked now false hdocs.places) (hp.docWrites_nodup now false)
    hdocs.locked hil (fun q hq => EQMem.lockQueues_present p.queues hq)
    (htl.symm ▸ hp.legal_stored now false h.indexed hfits) hops
  rw [← Prepared.taskOps_split] at hw
  rw [modApply_written hgo (by simp [hnil]) hpass (Prod.ext rfl hw)]
  rfl

/-- A live call that fails, by an error or a panic, leaves the store as it was. -/
theorem modApply_error (h : s.Sound) (hp : p.Proper) {f : Fault}
    (he : (modApply s p now false).2 = .error f) : (modApply s p now false).1 = s := by
  cases hgo : p.shortCircuits with
  | true =>
    rw [modApply, hgo] at he
    cases he
  | false =>
    cases hnil : p.unlockedSet with
    | true => rw [modApply_unlocked h hgo (by simp [hnil])]
    | false =>
      cases hf : (p.depErr s now false).filter (fun e => !false || !e.onlyClaims) with
      | some e => rw [modApply_depErr h hgo (by simp [hnil]) hf]
      | none =>
        have hok := modApply_isOk h hp hgo hnil ((p.passes_iff s now false).mp hf)
        rw [he] at hok
        cases hok

/-- A live modification that went ahead. -/
structure Committed (p : Prepared) (s : EQMem) (now : Time) (s' : EQMem) : Prop where
  passes : p.Passes s now false
  docsPass : p.DocsPass s now
  fresh : p.Fresh s
  applied : Applied p s now false s'

theorem Committed.counted (hp : p.Proper) (h : s.Sound) {s' : EQMem} (hc : Committed p s now s')
    (hn : s.Counted) : s'.Counted := by
  intro g
  rw [hc.applied.count, EQMem.lockOf_eq, hc.applied.lock?, Prepared.lockEffects_lockWrites]
  exact hc.docsPass.counted now hp h.docs h.docIDs hn g

/-- A live modification does nothing, fails, or goes ahead. -/
theorem modApply_cases (h : s.Sound) (hp : p.Proper) (hfresh : p.Fits s → p.Fresh s) (now : Time) :
    (p.shortCircuits = true ∧ modApply s p now false = (s, .ok {})) ∨
    (p.shortCircuits = false ∧ p.unlockedSet = true ∧ modApply s p now false =
      (s, .error (.panic "invalid memory address or nil pointer dereference"))) ∨
    (p.shortCircuits = false ∧ p.unlockedSet = false ∧
      ∃ e, p.depErr s now false = some e ∧ modApply s p now false = (s, .error (.dependency e))) ∨
    (p.shortCircuits = false ∧ p.unlockedSet = false ∧
      ∃ s', modApply s p now false =
          (s', .ok { resp := p.response s now false, entry := some (p.journalEntry s now false) }) ∧
        Committed p s now s') := by
  cases hgo : p.shortCircuits with
  | true =>
    refine .inl ⟨rfl, ?_⟩
    rw [modApply, hgo, if_pos rfl]
  | false =>
    cases hnil : p.unlockedSet with
    | true => exact .inr (.inl ⟨rfl, rfl, modApply_unlocked h hgo (by simp [hnil])⟩)
    | false =>
      right; right
      cases hf : (p.depErr s now false).filter (fun e => !false || !e.onlyClaims) with
      | some e =>
        refine .inl ⟨rfl, rfl, e, (Option.filter_eq_some_iff.mp hf).1, ?_⟩
        exact modApply_depErr h hgo (by simp [hnil]) hf
      | none =>
        have hpass := (p.passes_iff s now false).mp hf
        have hfits := hpass.fits hp h.indexed
        have hdocs := hpass.docsPass hp h
        obtain ⟨s', hs', happ⟩ := modApply_pass h hp hgo (by simp [hnil]) hpass (hfresh hfits)
          (hdocs.go hp h)
        exact .inr ⟨rfl, rfl, s', hs', hpass, hdocs, hfresh hfits, happ⟩

end Call

/-! ## A call of `Modify` -/

theorem missingInsertID_none {mod : Modification} (h : missingInsertID mod = none) :
    (∀ t ∈ mod.inserts, t.id ≠ "") ∧ ∀ d ∈ mod.docInserts, d.id ≠ "" := by
  unfold missingInsertID at h
  split_ifs at h with h1 h2
  simp only [Bool.not_eq_true, List.any_eq_false, beq_iff_eq] at h1 h2
  exact ⟨h1, h2⟩

theorem Validated.proper {mod : Modification} (hv : mod.Validated)
    (hid : missingInsertID mod = none) (s : EQMem) : (modPrep s mod false).Proper := by
  obtain ⟨hids, hdids⟩ := missingInsertID_none hid
  have hf : mod.inserts.filter (fun t => t.id != "") = mod.inserts :=
    List.filter_eq_self.mpr fun t ht => by simpa using hids t ht
  have hfd : mod.docInserts.filter (fun d => d.id != "") = mod.docInserts :=
    List.filter_eq_self.mpr fun d hd => by simpa using hdids d hd
  constructor
  · exact modPrep_covers s mod false
  · refine (List.Perm.nodup_iff (List.perm_iff_count.mpr fun a => ?_)).mp hv.taskOnce
    simp only [Modification.modTaskDeps, Modification.restTaskDeps, hf, Prepared.taskIDs, modPrep,
      List.map_append, List.map_map, List.count_append, Bool.false_eq_true, if_false]
    change _ + _ + _ + (List.count a (mod.depends.map TaskID.id) +
      List.count a (mod.inserts.map TaskData.id)) = _
    have hdel : (Prod.fst ∘ fun d : TaskID => (d.id, d.version)) = TaskID.id := rfl
    simp only [hdel, Function.comp_def]
    omega
  · exact hv.changeQueue
  · exact fun t ht => ⟨hids t ht, hv.insertQueue t ht⟩
  · exact fun d hd => ⟨hdids d hd, hv.docInsertNs d hd⟩
  · exact fun a ha => (hv.docArriveSet a ha).2
  · refine (List.Perm.nodup_iff (List.perm_iff_count.mpr fun a => ?_)).mp hv.docOnce
    simp only [Modification.modDocDeps, Modification.restDocDeps, hfd, Prepared.docRefs, modPrep,
      List.map_append, List.map_map, List.count_append, Function.comp_def, Bool.false_eq_true,
      if_false]
    omega

theorem modify_eq {s : EQMem} {mod : Modification} {now : Time}
    (hv : Validate.modification mod = none) (hid : missingInsertID mod = none) :
    modify s mod now = modApply s (modPrep s mod false) now false := by
  rw [modify, hv]
  dsimp only
  rw [modifyImpl, hid]

/-- A call of `Modify` fails and changes nothing, has nothing to do, or commits. -/
theorem modify_cases {s : EQMem} (h : s.Sound) (mod : Modification) (now : Time) :
    (∃ f, f ≠ .panic "Inconsistent state" ∧ modify s mod now = (s, .error f)) ∨
    (mod.Validated ∧ (modPrep s mod false).Proper) ∧
      (((modPrep s mod false).shortCircuits = true ∧ modify s mod now = (s, .ok {})) ∨
      ∃ s', modify s mod now =
          (s', .ok { resp := (modPrep s mod false).response s now false
                     entry := some ((modPrep s mod false).journalEntry s now false) }) ∧
        Committed (modPrep s mod false) s now s') := by
  cases hv : Validate.modification mod with
  | some e =>
    refine .inl ⟨.invalid e, nofun, ?_⟩
    rw [modify, hv]
  | none =>
    cases hid : missingInsertID mod with
    | some f =>
      refine .inl ⟨f, ?_, ?_⟩
      · unfold missingInsertID at hid
        split_ifs at hid <;> cases hid <;> exact nofun
      · rw [modify, hv]
        dsimp only
        rw [modifyImpl, hid]
    | none =>
      have hval := Validate.modification_none mod hv
      have hp := Validated.proper hval hid s
      rw [modify_eq hv hid]
      rcases modApply_cases h hp (Prepared.fresh_of_fits h.indexed hp) now with
        ⟨hs, hr⟩ | ⟨-, -, hr⟩ | ⟨-, -, e, -, hr⟩ | ⟨-, -, s', hr, hc⟩
      · exact .inr ⟨⟨hval, hp⟩, .inl ⟨hs, hr⟩⟩
      · exact .inl ⟨_, by simp, hr⟩
      · exact .inl ⟨.dependency e, nofun, hr⟩
      · exact .inr ⟨⟨hval, hp⟩, .inr ⟨s', hr, hc⟩⟩

end EntroQ.Eqmem
