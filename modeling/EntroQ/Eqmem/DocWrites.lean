import EntroQ.Eqmem.TaskWrites

/-! # What a modification writes to docs

A live modification is judged by the docs and locks stored, so its plan is that of `evaluate` on
the tables. Its writes then leave each set with as many docs as its new lock says. -/

namespace EntroQ.Eqmem
open Foundation Docset

/-- What becomes of a doc operation on this store. -/
def EQMem.docVerdict (s : EQMem) (mod : Modification) (now : Time) (op : DocOp) : Outcome :=
  outcome mod now (fun ns id => s.docAt (ns, id)) s.occupant s.lockOf op

def EQMem.Counted (s : EQMem) : Prop := ∀ g, (s.lockOf g).numDocs = s.count g

namespace Prepared
variable {p : Prepared} {s : EQMem} (now : Time)

theorem Proper.foundDocs_eq (hp : p.Proper) (h : s.DocsValid) (hids : s.DocsNamed)
    {r : String × String} (hr : r ∈ p.docRefs) :
    (p.foundDocs s).lookup (docKey r.1 r.2) = s.docAt r :=
  hp.covers.foundDocs_eq h hids hp.docOnce hr

/-- The docs are judged by what is stored. -/
theorem Proper.docPlan_eq (hp : p.Proper) (h : s.DocsValid) (hids : s.DocsNamed) :
    p.docPlan s now false =
      evaluate p.mod now (fun ns id => s.docAt (ns, id)) s.occupant s.lockOf := by
  have hstored : ∀ (r : String × String) (version : Int32), r ∈ p.docRefs →
      stored p.mod (fun ns id => (p.foundDocs s).lookup (docKey ns id)) s.lockOf r.1 r.2 version =
        stored p.mod (fun ns id => s.docAt (ns, id)) s.lockOf r.1 r.2 version := by
    intro r version hr
    simp only [stored, hp.foundDocs_eq h hids hr]
  change evaluate p.mod now (fun ns id => (p.foundDocs s).lookup (docKey ns id)) s.occupant
    s.lockOf = _
  apply evaluate_congr
  intro op hop
  simp only [Modification.docOps, List.mem_append, List.mem_map] at hop
  have hmem : ∀ r, r ∈ p.mod.docDeletes.map (fun d => (d.ns, d.id)) ++
      p.mod.docDepends.map (fun d => (d.ns, d.id)) ++
      p.mod.docChanges.map (fun c => (c.doc.ns, c.doc.id)) ++
      p.mod.docInserts.map (fun d => (d.ns, d.id)) → r ∈ p.docRefs := fun r hr => hr
  simp only [List.mem_append, List.mem_map] at hmem
  rcases hop with (((⟨d, hd, rfl⟩ | ⟨c, hc, rfl⟩) | ⟨d, hd, rfl⟩) | ⟨d, hd, rfl⟩) | ⟨a, ha, rfl⟩
  · have := hp.foundDocs_eq h hids (hmem (d.ns, d.id) (.inr ⟨d, hd, rfl⟩))
    simp only [outcome, insertOutcome, this]
  · have := hstored _ c.doc.version (hmem (c.doc.ns, c.doc.id) (.inl (.inr ⟨c, hc, rfl⟩)))
    simp only [outcome, changeOutcome, this]
  · have := hstored _ d.version (hmem (d.ns, d.id) (.inl (.inl (.inl ⟨d, hd, rfl⟩))))
    simp only [outcome, deleteOutcome, this]
  · have := hstored _ d.version (hmem (d.ns, d.id) (.inl (.inl (.inr ⟨d, hd, rfl⟩))))
    simp only [outcome, dependOutcome, this]
  · rfl

theorem Proper.docFailures_hasAny (hp : p.Proper) (h : s.DocsValid) (hids : s.DocsNamed) :
    (p.docFailures s now false).hasAny = false ↔
      ∀ op ∈ p.mod.docOps, (s.docVerdict p.mod now op).passes = true := by
  have he := evaluate_err_none_iff p.mod now (fun ns id => s.docAt (ns, id)) s.occupant s.lockOf
  rw [← hp.docPlan_eq now h hids] at he
  refine Iff.trans ?_ he
  unfold docFailures
  cases herr : (p.docPlan s now false).err with
  | none => exact ⟨fun _ => rfl, fun _ => rfl⟩
  | some e =>
    have := (evaluate_err_some _ _ _ _ _ e (hp.docPlan_eq now h hids ▸ herr)).2
    simp [this]

/-- Every doc operation goes ahead. -/
def DocsPass (p : Prepared) (s : EQMem) (now : Time) : Prop :=
  ∀ op ∈ p.mod.docOps, (s.docVerdict p.mod now op).passes = true

namespace DocsPass
variable {now} (hd : p.DocsPass s now)
include hd

theorem insert {d : DocData} (hm : d ∈ p.mod.docInserts) :
    (d.id ≠ "" → s.docAt (d.ns, d.id) = none) ∧
      ((s.lockOf ⟨d.ns, d.key⟩).numDocs > 0 → s.occupant ⟨d.ns, d.key⟩ d.secondaryKey = none) ∧
      (s.lockOf ⟨d.ns, d.key⟩).heldByOther p.mod.claimant now = false ∧
      s.docVerdict p.mod now (.insert d) = .write ⟨d.ns, d.key⟩ d.byDur 1 :=
  insertOutcome_passes (hd (.insert d) (by simp [Modification.docOps, hm]))

theorem change {c : DocChange} (hm : c ∈ p.mod.docChanges) :
    ∃ d, AtVersion p.mod (fun ns id => s.docAt (ns, id)) s.lockOf c.doc.ns c.doc.id c.doc.version
        d ∧
      (s.lockOf ⟨d.ns, d.key⟩).heldByOther p.mod.claimant now = false ∧
      s.docVerdict p.mod now (.change c) = .write ⟨d.ns, d.key⟩ c.byDur 0 :=
  changeOutcome_passes (hd (.change c) (by simp [Modification.docOps, hm]))

theorem delete {r : DocID} (hm : r ∈ p.mod.docDeletes) :
    ∃ d, AtVersion p.mod (fun ns id => s.docAt (ns, id)) s.lockOf r.ns r.id r.version d ∧
      (s.lockOf ⟨d.ns, d.key⟩).heldByOther p.mod.claimant now = false ∧
      s.docVerdict p.mod now (.delete r) = .write ⟨d.ns, d.key⟩ 0 (-1) :=
  deleteOutcome_passes (hd (.delete r) (by simp [Modification.docOps, hm]))

theorem arrive {a : DocArrival} (hm : a ∈ p.mod.docArrives) :
    AtLock s.lockOf a.docID ∧
      (s.lockOf ⟨a.docID.ns, a.docID.key⟩).heldByOther p.mod.claimant now = false ∧
      s.docVerdict p.mod now (.arrive a) = .write ⟨a.docID.ns, a.docID.key⟩ a.byDur 0 :=
  arriveOutcome_passes (hd (.arrive a) (by simp [Modification.docOps, hm]))

end DocsPass

section Shape
variable (p s) (replay : Bool)

@[simp] theorem withLock_ns (d : Doc) : (p.withLock s now replay d).ns = d.ns := by
  cases replay <;> rfl

@[simp] theorem withLock_id (d : Doc) : (p.withLock s now replay d).id = d.id := by
  cases replay <;> rfl

@[simp] theorem withLock_key (d : Doc) : (p.withLock s now replay d).key = d.key := by
  cases replay <;> rfl

@[simp] theorem changedDoc_ns (c : DocChange) :
    (p.changedDoc s now replay c).ns = c.doc.ns := by
  unfold changedDoc
  cases (p.foundDocs s).lookup (docKey c.doc.ns c.doc.id) <;> simp

@[simp] theorem changedDoc_id (c : DocChange) :
    (p.changedDoc s now replay c).id = c.doc.id := by
  unfold changedDoc
  cases (p.foundDocs s).lookup (docKey c.doc.ns c.doc.id) <;> simp

theorem changedDoc_key (c : DocChange) :
    (p.changedDoc s now replay c).key =
      (((p.foundDocs s).lookup (docKey c.doc.ns c.doc.id)).getD c.doc).key := by
  unfold changedDoc
  cases (p.foundDocs s).lookup (docKey c.doc.ns c.doc.id) <;> simp

theorem changedDoc_of_found {c : DocChange} {old : Doc}
    (h : (p.foundDocs s).lookup (docKey c.doc.ns c.doc.id) = some old) :
    p.changedDoc s now replay c = p.withLock s now replay
      { c.doc with
        key := old.key, secondaryKey := old.secondaryKey, created := old.created
        version := if replay then c.doc.version + 1 else c.doc.version
        modified := if !replay || c.doc.modified = 0 then now else c.doc.modified } := by
  unfold changedDoc
  rw [h]

@[simp] theorem insertedDoc_ns (d : DocData) : (p.insertedDoc s now replay d).ns = d.ns := by
  simp [insertedDoc]

@[simp] theorem insertedDoc_id (d : DocData) : (p.insertedDoc s now replay d).id = d.id := by
  simp [insertedDoc]

@[simp] theorem insertedDoc_key (d : DocData) : (p.insertedDoc s now replay d).key = d.key := by
  simp [insertedDoc]

/-- The places written, in order. -/
theorem docWrites_places :
    (p.docWrites s now replay).map DocWrite.place =
      p.mod.docDeletes.map (fun d => (d.ns, d.id)) ++
        p.mod.docChanges.map (fun c => (c.doc.ns, c.doc.id)) ++
        p.mod.docInserts.map (fun d => (d.ns, d.id)) := by
  simp [docWrites, DocWrite.place, Function.comp_def]

end Shape

theorem Proper.docWrites_nodup (hp : p.Proper) (replay : Bool) :
    ((p.docWrites s now replay).map DocWrite.place).Nodup := by
  rw [docWrites_places]
  apply List.Nodup.of_map (fun r => docKey r.1 r.2)
  refine List.Nodup.sublist ?_ hp.docOnce
  apply List.Sublist.map
  unfold docRefs
  simp only [List.append_assoc]
  apply List.Sublist.append_left
  exact List.sublist_append_right _ _

/-- The docs after the modification: what its operations say, and the rest as it was. -/
structure DocsAfter (p : Prepared) (s : EQMem) (now : Time) (replay : Bool)
    (D : String × String → Option Doc) : Prop where
  deleted : ∀ r ∈ p.mod.docDeletes, D (r.ns, r.id) = none
  changed : ∀ c ∈ p.mod.docChanges, D (c.doc.ns, c.doc.id) = some (p.changedDoc s now replay c)
  inserted : ∀ d ∈ p.mod.docInserts, D (d.ns, d.id) = some (p.insertedDoc s now replay d)
  others : ∀ q, q ∉ p.mod.docDeletes.map (fun d => (d.ns, d.id)) →
    q ∉ p.mod.docChanges.map (fun c => (c.doc.ns, c.doc.id)) →
    q ∉ p.mod.docInserts.map (fun d => (d.ns, d.id)) → D q = s.docAt q

theorem Proper.docsAfter (hp : p.Proper) (replay : Bool) :
    p.DocsAfter s now replay (docEffects s.docAt (p.docWrites s now replay)) := by
  have hmem := docEffects_of_mem s.docAt _ (hp.docWrites_nodup (s := s) now replay)
  constructor
  · intro r hr
    apply hmem (.delete r.ns r.id)
    simp only [docWrites, List.mem_append, List.mem_map]
    exact .inl (.inl ⟨r, hr, rfl⟩)
  · intro c hc
    have := hmem (.set (p.changedDoc s now replay c)) (by
      simp only [docWrites, List.mem_append, List.mem_map]
      exact .inl (.inr ⟨c, hc, rfl⟩))
    rwa [DocWrite.place, changedDoc_ns, changedDoc_id] at this
  · intro d hd
    have := hmem (.set (p.insertedDoc s now replay d)) (by
      simp only [docWrites, List.mem_append, List.mem_map]
      exact .inr ⟨d, hd, rfl⟩)
    rwa [DocWrite.place, insertedDoc_ns, insertedDoc_id] at this
  · intro q h1 h2 h3
    apply docEffects_of_notMem
    rw [docWrites_places, List.mem_append, List.mem_append, not_or, not_or]
    exact ⟨⟨h1, h2⟩, h3⟩

/-- No doc is written outside a namespace. -/
theorem DocsPass.places (hd : p.DocsPass s now) (hp : p.Proper) (h : s.DocsValid) :
    ∀ r ∈ (p.docWrites s now false).map DocWrite.place, r.1 ≠ "" := by
  intro r hr
  rw [docWrites_places] at hr
  simp only [List.mem_append, List.mem_map] at hr
  rcases hr with (⟨d, hm, rfl⟩ | ⟨c, hm, rfl⟩) | ⟨d, hm, rfl⟩
  · obtain ⟨old, ⟨hold, -⟩, -⟩ := hd.delete hm
    exact (h.docAt_named hold).2.2
  · obtain ⟨old, ⟨hold, -⟩, -⟩ := hd.change hm
    exact (h.docAt_named hold).2.2
  · exact (hp.docInserts d hm).2

theorem Covers.docWrites_locked (hc : p.Covers) (replay : Bool)
    (hne : ∀ r ∈ (p.docWrites s now replay).map DocWrite.place, r.1 ≠ "") :
    ∀ w ∈ p.docWrites s now replay, w.place.1 ∈ p.namespaces := by
  intro w hw
  have hr := List.mem_map_of_mem (f := DocWrite.place) hw
  refine hc.docs _ ?_ (hne _ hr)
  rw [docWrites_places] at hr
  simp only [docRefs, List.mem_append] at hr ⊢
  rcases hr with (hr | hr) | hr
  · exact .inl (.inl (.inl hr))
  · exact .inl (.inr hr)
  · exact .inr hr

/-- The docs a passing modification adds to a set are those its outcomes count. -/
theorem DocsPass.delta_sum (hd : p.DocsPass s now) (hp : p.Proper) (h : s.DocsValid)
    (hids : s.DocsNamed) (g : SetName) :
    ((p.docWrites s now false).map (DocWrite.delta s.docAt g)).sum =
      ((p.mod.docOps.map (s.docVerdict p.mod now)).map (Outcome.addedTo g)).sum := by
  have hdel : ∀ r ∈ p.mod.docDeletes, DocWrite.delta s.docAt g (.delete r.ns r.id) =
      (s.docVerdict p.mod now (.delete r)).addedTo g := by
    intro r hr
    obtain ⟨d, ⟨hold, -⟩, -, ho⟩ := hd.delete hr
    rw [ho]
    simp only [DocWrite.delta, DocWrite.result, DocWrite.place, hold, DocWrite.inSet,
      Outcome.addedTo, Option.any_some, Option.any_none]
    by_cases hg : (⟨d.ns, d.key⟩ : SetName) = g
    · subst hg
      simp
    · have : ¬(d.ns = g.ns ∧ d.key = g.key) := fun he => hg (by rw [he.1, he.2])
      simp [hg, this]
  have hchg : ∀ c ∈ p.mod.docChanges,
      DocWrite.delta s.docAt g (.set (p.changedDoc s now false c)) =
        (s.docVerdict p.mod now (.change c)).addedTo g := by
    intro c hc
    obtain ⟨d, ⟨hold, -⟩, -, ho⟩ := hd.change hc
    change s.docAt (c.doc.ns, c.doc.id) = some d at hold
    have hr : (c.doc.ns, c.doc.id) ∈ p.docRefs := by
      simp only [docRefs, List.mem_append, List.mem_map]
      exact .inl (.inr ⟨c, hc, rfl⟩)
    have hf := hp.foundDocs_eq h hids hr
    have hkey : (p.changedDoc s now false c).key = d.key := by
      rw [changedDoc_key, hf, hold]
      rfl
    rw [ho]
    simp [DocWrite.delta, DocWrite.result, DocWrite.place, hold, DocWrite.inSet, Outcome.addedTo,
      hkey, (h.docAt_named hold).1]
  have hins : ∀ d ∈ p.mod.docInserts,
      DocWrite.delta s.docAt g (.set (p.insertedDoc s now false d)) =
        (s.docVerdict p.mod now (.insert d)).addedTo g := by
    intro d hm
    obtain ⟨hnew, -, -, ho⟩ := hd.insert hm
    rw [ho]
    simp only [DocWrite.delta, DocWrite.result, DocWrite.place, insertedDoc_ns, insertedDoc_id,
      hnew (hp.docInserts d hm).1, DocWrite.inSet, Outcome.addedTo, Option.any_some,
      Option.any_none, insertedDoc_key]
    by_cases hg : (⟨d.ns, d.key⟩ : SetName) = g
    · subst hg
      simp
    · have : ¬(d.ns = g.ns ∧ d.key = g.key) := fun he => hg (by rw [he.1, he.2])
      simp [hg, this]
  have hdep : ∀ r ∈ p.mod.docDepends, (s.docVerdict p.mod now (.depend r)).addedTo g = 0 :=
    fun r _ => dependOutcome_addedTo r g
  have harr : ∀ a ∈ p.mod.docArrives, (s.docVerdict p.mod now (.arrive a)).addedTo g = 0 := by
    intro a ha
    rw [(hd.arrive ha).2.2]
    simp [Outcome.addedTo]
  simp only [docWrites, Modification.docOps, List.map_append, List.sum_append, List.map_map,
    Function.comp_def]
  rw [List.map_congr_left hdel, List.map_congr_left hchg, List.map_congr_left hins,
    List.map_congr_left hdep, List.map_congr_left harr]
  simp only [List.map_const', List.sum_replicate, nsmul_zero]
  omega

theorem lockWrites_sets (replay : Bool) :
    (p.lockWrites s now replay).map Prod.fst = (p.docPlan s now replay).locks.keys := by
  simp [lockWrites, AList.keys, List.keys, Function.comp_def]

theorem lockWrites_nodup (replay : Bool) :
    ((p.lockWrites s now replay).map Prod.fst).Nodup := by
  rw [lockWrites_sets]
  exact AList.keys_nodup _

theorem lockEffects_lockWrites (L : SetName → Option Lock) (replay : Bool) (g : SetName) :
    lockEffects L (p.lockWrites s now replay) g =
      ((p.docPlan s now replay).locks.lookup g).or (L g) := by
  cases hl : (p.docPlan s now replay).locks.lookup g with
  | none =>
    rw [Option.none_or]
    apply lockEffects_of_notMem
    rw [lockWrites_sets]
    exact AList.lookup_eq_none.mp hl
  | some l =>
    rw [Option.some_or]
    refine lockEffects_of_mem L _ (lockWrites_nodup now replay) (g, l) ?_
    exact List.mem_map.mpr ⟨⟨g, l⟩, AList.mem_lookup_iff.mp hl, rfl⟩

theorem DocsPass.written_ns (hd : p.DocsPass s now) (hp : p.Proper) (h : s.DocsValid) {op : DocOp}
    (hop : op ∈ p.mod.docOps) {g : SetName} {byDur : Duration} {n : ℤ}
    (ho : s.docVerdict p.mod now op = .write g byDur n) : g.ns ∈ p.namespaces := by
  have hplaces := hp.covers.docWrites_locked now false (hd.places now hp h)
  simp only [Modification.docOps, List.mem_append, List.mem_map] at hop
  rcases hop with (((⟨d, hm, rfl⟩ | ⟨c, hm, rfl⟩) | ⟨r, hm, rfl⟩) | ⟨r, hm, rfl⟩) | ⟨a, hm, rfl⟩
  · rw [(hd.insert hm).2.2.2] at ho
    cases ho
    exact hp.covers.docs (d.ns, d.id)
      (by simp only [docRefs, List.mem_append, List.mem_map]; exact .inr ⟨d, hm, rfl⟩)
      (hp.docInserts d hm).2
  · obtain ⟨old, ⟨hold, -⟩, -, hw⟩ := hd.change hm
    rw [hw] at ho
    cases ho
    have hns := h.docAt_named hold
    rw [hns.1]
    exact hp.covers.docs (c.doc.ns, c.doc.id)
      (by simp only [docRefs, List.mem_append, List.mem_map]; exact .inl (.inr ⟨c, hm, rfl⟩))
      hns.2.2
  · obtain ⟨old, ⟨hold, -⟩, -, hw⟩ := hd.delete hm
    rw [hw] at ho
    cases ho
    have hns := h.docAt_named hold
    rw [hns.1]
    exact hp.covers.docs (r.ns, r.id)
      (by simp only [docRefs, List.mem_append, List.mem_map]
          exact .inl (.inl (.inl ⟨r, hm, rfl⟩)))
      hns.2.2
  · change dependOutcome _ _ _ r = _ at ho
    unfold dependOutcome at ho
    split_ifs at ho
  · rw [(hd.arrive hm).2.2] at ho
    cases ho
    exact hp.covers.arrives a hm (hp.docArrives a hm)

theorem DocsPass.lockWrites_locked (hd : p.DocsPass s now) (hp : p.Proper) (h : s.DocsValid)
    (hids : s.DocsNamed) : ∀ gl ∈ p.lockWrites s now false, gl.1.ns ∈ p.namespaces := by
  intro gl hgl
  obtain ⟨⟨g, l⟩, hm, rfl⟩ := List.mem_map.mp hgl
  have herr : (p.docPlan s now false).err = none := by
    rw [hp.docPlan_eq now h hids, evaluate_err_none_iff]
    exact hd
  have hl := AList.mem_lookup_iff.mpr hm
  rw [hp.docPlan_eq now h hids] at herr hl
  obtain ⟨w, -, -, -, op, hop, byDur, n, ho⟩ := evaluate_locks _ _ _ _ _ herr g l hl
  exact hd.written_ns now hp h hop ho

/-- The locks and counts after a passing modification agree if they did before. -/
theorem DocsPass.counted (hd : p.DocsPass s now) (hp : p.Proper) (h : s.DocsValid)
    (hids : s.DocsNamed) (hc : s.Counted) (g : SetName) :
    ((((p.docPlan s now false).locks.lookup g).or (s.lock? g)).getD absent).numDocs =
      s.count g + ((p.docWrites s now false).map (DocWrite.delta s.docAt g)).sum := by
  have herr : (p.docPlan s now false).err = none := by
    rw [hp.docPlan_eq now h hids, evaluate_err_none_iff]
    exact hd
  have hold := hc g
  rw [hd.delta_sum now hp h hids]
  rw [hp.docPlan_eq now h hids] at herr ⊢
  cases hl : (evaluate p.mod now (fun ns id => s.docAt (ns, id)) s.occupant s.lockOf).locks.lookup g
    with
  | some l =>
    obtain ⟨w, rfl, -, hadd, -⟩ := evaluate_locks _ _ _ _ _ herr g l hl
    rw [Option.some_or, Option.getD_some]
    change (s.lockOf g).numDocs + w.added = _
    rw [hadd, hold]
    rfl
  | none =>
    rw [Option.none_or, ← EQMem.lockOf_eq, hold]
    -- no operation writes the set
    have hzero : ∀ x ∈ (p.mod.docOps.map (s.docVerdict p.mod now)).map (Outcome.addedTo g),
        x = 0 := by
      intro x hx
      obtain ⟨o, ho, rfl⟩ := List.mem_map.mp hx
      obtain ⟨op, hop, rfl⟩ := List.mem_map.mp ho
      cases hv : s.docVerdict p.mod now op with
      | write g' byDur n =>
        by_cases hg : g' = g
        · subst hg
          obtain ⟨l, hl'⟩ := evaluate_locks_mem _ _ _ _ _ herr op hop g' byDur n hv
          rw [hl] at hl'
          cases hl'
        · simp [Outcome.addedTo, hg]
      | _ => rfl
    rw [List.sum_eq_zero hzero, add_zero]

end Prepared
end EntroQ.Eqmem
