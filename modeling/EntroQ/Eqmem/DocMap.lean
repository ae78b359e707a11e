import EntroQ.Eqmem.DocHistory
import EntroQ.Eqmem.Restore

/-! # Doc sets are maps

A set holds one doc for each secondary key. An insert looks for an occupant only where the lock
counts docs, so this rests on the counts, which every call keeps. -/

namespace EntroQ.Eqmem
open Foundation Docset

def SamePlace (d d' : Doc) : Prop :=
  d.ns = d'.ns ∧ d.key = d'.key ∧ d.secondaryKey = d'.secondaryKey

def EQMem.PlacesOnce (s : EQMem) : Prop :=
  ∀ q q' d d', s.docAt q = some d → s.docAt q' = some d' → SamePlace d d' → q = q'

section Modify
variable {p : Prepared} {s s' : EQMem} {now : Time}

theorem Committed.place_cases (h : s.Sound) (hp : p.Proper) (hc : Committed p s now s')
    {q : String × String} {d : Doc} (hd : s'.docAt q = some d) :
    (∃ i ∈ p.mod.docInserts, q = (i.ns, i.id) ∧ d.ns = i.ns ∧ d.key = i.key ∧
      d.secondaryKey = i.secondaryKey) ∨
    ∃ old, s.docAt q = some old ∧ SamePlace d old := by
  have hafter := hp.docsAfter (s := s) now false
  rw [hc.applied.docAt] at hd
  by_cases hdel : q ∈ p.mod.docDeletes.map (fun d => (d.ns, d.id))
  · obtain ⟨r, hr, rfl⟩ := List.mem_map.mp hdel
    rw [hafter.deleted r hr] at hd
    cases hd
  by_cases hchg : q ∈ p.mod.docChanges.map (fun c => (c.doc.ns, c.doc.id))
  · obtain ⟨c, hm, rfl⟩ := List.mem_map.mp hchg
    obtain ⟨old, ⟨hold, -⟩, -⟩ := hc.docsPass.change hm
    change s.docAt (c.doc.ns, c.doc.id) = some old at hold
    have href : (c.doc.ns, c.doc.id) ∈ p.docRefs := by
      simp only [Prepared.docRefs, List.mem_append]
      exact .inl (.inr hchg)
    rw [hafter.changed c hm, Prepared.changedDoc_of_found _ _ _ _
      ((hp.foundDocs_eq h.docs h.docIDs href).trans hold)] at hd
    cases hd
    exact .inr ⟨old, hold, ((h.docs.docAt_named hold).1).symm, rfl, rfl⟩
  by_cases hins : q ∈ p.mod.docInserts.map (fun d => (d.ns, d.id))
  · obtain ⟨i, hi, rfl⟩ := List.mem_map.mp hins
    rw [hafter.inserted i hi] at hd
    cases hd
    exact .inl ⟨i, hi, rfl, rfl, rfl, rfl⟩
  · rw [hafter.others q hdel hchg hins] at hd
    exact .inr ⟨d, hd, rfl, rfl, rfl⟩

/-- An inserted doc gets a place that no stored doc has. -/
theorem Committed.insert_vacant (h : Invariant s) (hc : Committed p s now s') {i : DocData}
    (hi : i ∈ p.mod.docInserts) {q : String × String} {old : Doc} (hold : s.docAt q = some old) :
    ¬(old.ns = i.ns ∧ old.key = i.key ∧ old.secondaryKey = i.secondaryKey) := by
  rintro ⟨hns, hkey, hsec⟩
  obtain ⟨-, hvacant, -⟩ := hc.docsPass.insert hi
  obtain ⟨h1, h2, -⟩ := h.docs.docAt_named hold
  have hat : s.docAt (i.ns, old.id) = some old := by
    rw [← hns, h1, h2]
    exact hold
  -- the lock counts the doc, so the place is looked at
  have hcount : (s.lockOf ⟨i.ns, i.key⟩).numDocs > 0 := by
    rw [h.counted, EQMem.count_eq_members]
    have hm : old ∈ s.members ⟨i.ns, i.key⟩ := (h.docs.mem_members _ old).mpr ⟨hat, hkey⟩
    exact Int.natCast_pos.mpr (List.length_pos_of_mem hm)
  have hsome := (h.docs.occupant_isSome_iff ⟨i.ns, i.key⟩ i.secondaryKey).mpr ⟨old, hat, hkey, hsec⟩
  rw [hvacant hcount] at hsome
  cases hsome

theorem Committed.placesOnce (h : Invariant s) (hp : p.Proper) (hc : Committed p s now s')
    (hplaces : (p.mod.docInserts.map (fun d => (d.ns, d.key, d.secondaryKey))).Nodup)
    (hs : s.PlacesOnce) : s'.PlacesOnce := by
  intro q q' d d' hd hd' hsame
  obtain ⟨hns, hkey, hsec⟩ := hsame
  rcases hc.place_cases h.toSound hp hd with ⟨i, hi, rfl, h1, h2, h3⟩ | ⟨old, hold, h1, h2, h3⟩ <;>
    rcases hc.place_cases h.toSound hp hd' with
      ⟨i', hi', rfl, h1', h2', h3'⟩ | ⟨old', hold', h1', h2', h3'⟩
  · have : i = i' := by
      refine List.inj_on_of_nodup_map hplaces hi hi' ?_
      rw [← h1, ← h2, ← h3, ← h1', ← h2', ← h3', hns, hkey, hsec]
    rw [this]
  · exact absurd ⟨by rw [← h1', ← hns, h1], by rw [← h2', ← hkey, h2], by rw [← h3', ← hsec, h3]⟩
      (hc.insert_vacant h hi hold')
  · exact absurd ⟨by rw [← h1, hns, h1'], by rw [← h2, hkey, h2'], by rw [← h3, hsec, h3']⟩
      (hc.insert_vacant h hi' hold)
  · refine hs q q' old old' hold hold' ⟨?_, ?_, ?_⟩
    · rw [← h1, hns, h1']
    · rw [← h2, hkey, h2']
    · rw [← h3, hsec, h3']

end Modify

theorem Call.placesOnce {s : EQMem} (h : Invariant s) (hs : s.PlacesOnce) (c : Call) :
    (c.run s).1.PlacesOnce := by
  rcases c.docAt_cases h.toSound with he | ⟨mod, now, rfl, -, hv, hp, hc⟩
  · unfold EQMem.PlacesOnce
    rw [he]
    exact hs
  · exact hc.placesOnce h hp hv.placeOnce hs

theorem run_placesOnce {s : EQMem} (h : Invariant s) (hs : s.PlacesOnce) (calls : List Call) :
    (run s calls).PlacesOnce := by
  induction calls generalizing s with
  | nil => exact hs
  | cons c calls ih => exact ih (c.run_invariant h) (c.placesOnce h hs)

/-- A namespace whose sets are maps with locks that count them, and whose two indexes agree. -/
structure DocNamespace.IsMap (n : DocNamespace) : Prop where
  counts : ∀ key l, n.lock? key = some l →
    l.numDocs = (n.docList.filter (fun d => d.key == key)).length
  locked : ∀ id d, n.byID.lookup id = some d → ∃ l, n.lock? d.key = some l ∧ l.stored = true
  places : ∀ id id' d d', n.byID.lookup id = some d → n.byID.lookup id' = some d' →
    d.key = d'.key → d.secondaryKey = d'.secondaryKey → id = id'
  indexes : (n.byKey.toList.map DocKeyEntry.doc).Perm n.docList

theorem DocNamespace.Valid.indexes {n : DocNamespace} (hv : n.Valid) :
    (n.byKey.toList.map DocKeyEntry.doc).Perm n.docList := by
  have hn : (n.byKey.toList.map DocKeyEntry.doc).Nodup := by
    refine List.Nodup.map_on ?_ n.byKey.nodup
    intro e he e' he' hd
    obtain ⟨d, -, rfl⟩ := (hv.byKey_iff e).mp he
    obtain ⟨d', -, rfl⟩ := (hv.byKey_iff e').mp he'
    change d = d' at hd
    rw [hd]
  rw [List.perm_ext_iff_of_nodup hn (DocNamespace.docList_nodup hv)]
  intro d
  rw [DocNamespace.mem_docList hv, List.mem_map]
  constructor
  · rintro ⟨e, he, rfl⟩
    obtain ⟨d, hd, rfl⟩ := (hv.byKey_iff e).mp he
    exact hd
  · intro hd
    exact ⟨entryFor d, (hv.byKey_iff _).mpr ⟨d, hd, rfl⟩, rfl⟩

/-- In every store that calls and passes of the collector reach, each namespace is made of maps. -/
theorem docSets_are_maps (steps : List DocStep) (name : String) (n : DocNamespace)
    (hn : (runSteps {} steps).namespaces.lookup name = some n) : n.IsMap := by
  obtain ⟨calls, hcalls, -⟩ := runSteps_eq_run {} steps
  rw [hcalls] at hn
  have h := run_invariant invariant_empty calls
  have hplaces := run_placesOnce invariant_empty
    (fun q q' d d' hd => by simp [EQMem.docAt, EQMem.doc?] at hd) calls
  generalize run {} calls = s at hn h hplaces
  obtain ⟨-, hname, hv⟩ := h.docs.valid name n hn
  have hat := EQMem.holdsAt_of_lookup hn
  have hdocs : ∀ id, s.docAt (name, id) = n.byID.lookup id := by
    intro id
    rw [EQMem.docAt, EQMem.doc?, hn]
    rfl
  constructor
  · intro key l hl
    rw [DocNamespace.docList_count hv, ← hat.count, ← h.counted, EQMem.lockOf_eq, hat.lock?, hl]
    rfl
  · intro id d hd
    have hm : d ∈ s.members ⟨name, d.key⟩ := by
      rw [h.docs.mem_members, hdocs, (hv.named id d hd).1]
      exact ⟨hd, rfl⟩
    have hcount : s.count ⟨name, d.key⟩ ≠ 0 := by
      rw [EQMem.count_eq_members, Int.natCast_ne_zero]
      exact (List.length_pos_of_mem hm).ne'
    cases hl : n.lock? d.key with
    | none =>
      rw [← h.counted, EQMem.lockOf_eq, hat.lock?, hl] at hcount
      exact absurd rfl hcount
    | some l => exact ⟨l, rfl, h.locks ⟨name, d.key⟩ l (by rw [hat.lock?, hl])⟩
  · intro id id' d d' hd hd' hkey hsec
    have := hplaces (name, id) (name, id') d d' (by rw [hdocs, hd]) (by rw [hdocs, hd'])
      ⟨(hv.named id d hd).2.trans (hv.named id' d' hd').2.symm, hkey, hsec⟩
    exact congrArg Prod.snd this
  · exact hv.indexes

def insertDoc : Modification :=
  { claimant := "w", docInserts := [{ ns := "n", id := "d", key := "k" }] }

theorem docSets_are_maps_one :
    ∃ n, (runSteps {} [.call (.modify insertDoc 5)]).namespaces.lookup "n" = some n ∧ n.IsMap := by
  have hsome : ((runSteps {} [.call (.modify insertDoc 5)]).namespaces.lookup "n").isSome = true := by
    decide
  obtain ⟨n, hn⟩ := Option.isSome_iff_exists.mp hsome
  exact ⟨n, hn, docSets_are_maps _ "n" n hn⟩

end EntroQ.Eqmem
