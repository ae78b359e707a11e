import EntroQ.Client.NamedTwice
import EntroQ.Eqmem.DocListing
import EntroQ.Eqmem.DocMap
import EntroQ.Queues.GCActivation

/-! # What the doc collector collects

A pass lists the sets of the namespaces that are due, and takes and empties those that no one else
holds. It does not list the set under the empty key, and takes a set that it holds itself. -/

namespace EntroQ.Eqmem
open Foundation Docset Queues

/-! ## Lengths

Names are checked when they are stored, so a claim of a stored set never fails on them. -/

def WithinLimits (d : Doc) : Prop :=
  d.ns.utf8ByteSize ≤ Validate.maxNamespaceBytes ∧ d.key.utf8ByteSize ≤ Validate.maxDocKeyBytes

def EQMem.DocsWithinLimits (s : EQMem) : Prop := ∀ q d, s.docAt q = some d → WithinLimits d

theorem check_eq_none_iff (what s : String) (limit : ℕ) :
    Validate.check what s limit = none ↔ s.utf8ByteSize ≤ limit := by
  unfold Validate.check
  split_ifs with h
  · simp [h]
  · simp only [true_iff]
    omega

theorem docInsert_within {mod : Modification} (hv : Validate.modification mod = none) {i : DocData}
    (hi : i ∈ mod.docInserts) : i.ns.utf8ByteSize ≤ Validate.maxNamespaceBytes ∧
      i.key.utf8ByteSize ≤ Validate.maxDocKeyBytes := by
  simp only [Validate.modification, Validate.lengths, Option.orElse_eq_none,
    List.findSome?_eq_none_iff] at hv
  have hdoc := hv.2.2.2.2.2.2.2.1 i hi
  simp only [Validate.doc, Option.orElse_eq_none, check_eq_none_iff] at hdoc
  exact ⟨hdoc.1, hdoc.2.2.1⟩

theorem Call.docsWithinLimits {s : EQMem} (h : Invariant s) (hs : s.DocsWithinLimits) (c : Call) :
    (c.run s).1.DocsWithinLimits := by
  intro q d hd
  rcases c.docAt_cases h.toSound with he | ⟨mod, now, rfl, hv, -, hp, hc⟩
  · rw [he] at hd
    exact hs q d hd
  · rcases hc.place_cases h.toSound hp hd with ⟨i, hi, -, hns, hkey, -⟩ | ⟨old, hold, hns, hkey, -⟩
    · rw [WithinLimits, hns, hkey]
      exact docInsert_within hv hi
    · rw [WithinLimits, hns, hkey]
      exact hs q old hold

theorem Reachable.docsWithinLimits {s : EQMem} (h : Reachable s) : s.DocsWithinLimits := by
  obtain ⟨calls, rfl⟩ := h
  have key : ∀ {s : EQMem}, Invariant s → s.DocsWithinLimits → (run s calls).DocsWithinLimits := by
    induction calls with
    | nil => exact fun _ hs => hs
    | cons c calls ih => exact fun h hs => ih (c.run_invariant h) (c.docsWithinLimits h hs)
  exact key invariant_empty fun q d hd => by simp [EQMem.docAt, EQMem.doc?] at hd

/-! ## The sets that are listed -/

theorem mem_keysFrom {docs : List Doc} (hs : docs.Pairwise fun d d' => d.key ≤ d'.key)
    {last : String} (hl : ∀ d ∈ docs, last ≤ d.key) (key : String) :
    key ∈ keysFrom last docs ↔ key ≠ last ∧ ∃ d ∈ docs, d.key = key := by
  induction docs generalizing last with
  | nil => simp [keysFrom]
  | cons d docs ih =>
    obtain ⟨hd, hs⟩ := List.pairwise_cons.mp hs
    rw [keysFrom]
    split_ifs with hk
    · rw [ih hs fun d' hd' => hl d' (List.mem_cons_of_mem _ hd')]
      refine and_congr_right fun hne => ?_
      simp [hk, hne.symm]
    · rw [List.mem_cons, ih hs hd]
      have hlast : last < d.key := lt_of_le_of_ne (hl d (by simp)) (Ne.symm hk)
      constructor
      · rintro (rfl | ⟨-, d', hd', rfl⟩)
        · exact ⟨hk, d, by simp, rfl⟩
        · exact ⟨(hlast.trans_le (hd d' hd')).ne', d', by simp [hd'], rfl⟩
      · rintro ⟨-, d', hd', rfl⟩
        rcases List.mem_cons.mp hd' with rfl | hd'
        · exact .inl rfl
        · by_cases he : d'.key = d.key
          · exact .inl he
          · exact .inr ⟨he, d', hd', rfl⟩

/-- A listing of a namespace gives its docs in the order of their keys. -/
theorem docs_listed {s : EQMem} (h : s.DocsValid) {name : String} (hn : name ∈ s.namespaces) :
    ∃ found, docs s { ns := name, omitValues := true } = .ok found ∧
      (found.Pairwise fun d d' => d.key ≤ d'.key) ∧
      ∀ key, (∃ d ∈ found, d.key = key) ↔ s.members ⟨name, key⟩ ≠ [] := by
  obtain ⟨n, hn⟩ := Finmap.mem_iff.mp hn
  obtain ⟨hne, -, hv⟩ := h.valid name n hn
  have hall : (n.byKey.toList.filter fun e => inRange { ns := name, omitValues := true } e.key) =
      n.byKey.toList := by
    rw [List.filter_eq_self]
    intro e _
    simp [inRange, DocNamespace.empty_le]
  have hdocs := @docs_by_key s { ns := name, omitValues := true } n hne hn rfl
  rw [hall] at hdocs
  have hkey (e : DocKeyEntry) (he : e ∈ n.byKey.toList) :
      (docsResult { ns := name, omitValues := true } e.doc (n.lock e.doc.key)).key = e.key :=
    hv.doc_key he
  refine ⟨_, hdocs, ?_, ?_⟩
  · apply List.Pairwise.map
    · exact fun e e' he => he
    · apply n.byKey.sorted.imp_of_mem
      intro e e' he he' hless
      rw [hkey e he, hkey e' he']
      exact DocNamespace.key_le_of_less hless
  · intro key
    rw [EQMem.members, hn]
    dsimp only
    rw [hv.members_eq, Ne, List.map_eq_nil_iff, List.filter_eq_nil_iff]
    simp only [not_forall, beq_iff_eq, not_not]
    constructor
    · rintro ⟨d, hd, rfl⟩
      obtain ⟨e, he, rfl⟩ := List.mem_map.mp hd
      exact ⟨e, he, (hkey e he).symm⟩
    · rintro ⟨e, he, hk⟩
      exact ⟨_, List.mem_map_of_mem he, (hkey e he).trans hk⟩

/-- The namespace is due. -/
def DocPass.due (pass : DocPass) (name : String) : Bool :=
  match pass.activation name with
  | some activateAt => !decide (pass.now < activateAt)
  | none => false

theorem mem_dueSets {s : EQMem} (h : s.DocsValid) (pass : DocPass) {names : List String}
    (hn : ∀ name ∈ names, name ∈ s.namespaces) :
    ∃ sets, dueSets s pass names = .ok sets ∧ ∀ g : SetName, g ∈ sets ↔
      g.ns ∈ names ∧ pass.due g.ns = true ∧ g.key ≠ "" ∧ s.members g ≠ [] := by
  induction names with
  | nil => exact ⟨[], rfl, by simp⟩
  | cons name names ih =>
    obtain ⟨sets, hsets, hmem⟩ := ih fun name hname => hn name (List.mem_cons_of_mem _ hname)
    -- a namespace that is not due adds nothing
    have hskip : pass.due name = false → ∀ g : SetName, g ∈ sets ↔
        g.ns ∈ name :: names ∧ pass.due g.ns = true ∧ g.key ≠ "" ∧ s.members g ≠ [] := by
      intro hnot g
      rw [hmem, List.mem_cons]
      refine ⟨fun hg => ⟨.inr hg.1, hg.2⟩, fun hg => ⟨hg.1.resolve_left ?_, hg.2⟩⟩
      intro he
      rw [he, hnot] at hg
      exact absurd hg.2.1 Bool.false_ne_true
    rw [dueSets]
    cases ha : pass.activation name with
    | none => exact ⟨sets, hsets, hskip (by rw [DocPass.due, ha])⟩
    | some activateAt =>
      dsimp only
      split_ifs with hlater
      · exact ⟨sets, hsets, hskip (by simp [DocPass.due, ha, hlater])⟩
      · obtain ⟨found, hfound, hsorted, hkeys⟩ := docs_listed h (hn name (by simp))
        have hdue : pass.due name = true := by simp [DocPass.due, ha, hlater]
        rw [hfound, hsets]
        refine ⟨_, rfl, fun g => ?_⟩
        obtain ⟨ns, key⟩ := g
        rw [List.mem_append, hmem, List.mem_map, List.mem_cons]
        simp only [mem_keysFrom hsorted (fun d _ => DocNamespace.empty_le d.key), hkeys,
          SetName.mk.injEq]
        constructor
        · rintro (⟨key', ⟨hne, hdocs⟩, rfl, rfl⟩ | ⟨hin, hrest⟩)
          · exact ⟨.inl rfl, hdue, hne, hdocs⟩
          · exact ⟨.inr hin, hrest⟩
        · rintro ⟨rfl | hin, hrest⟩
          · exact .inl ⟨key, hrest.2, rfl, rfl⟩
          · exact .inr ⟨hin, hrest⟩

/-! ## One set -/

section Turn
variable {s : EQMem} {g : SetName}

theorem validate_collectClaim (hns : g.ns ≠ "") (hkey : g.key ≠ "")
    (hlen : g.ns.utf8ByteSize ≤ Validate.maxNamespaceBytes ∧
      g.key.utf8ByteSize ≤ Validate.maxDocKeyBytes) :
    Validate.docClaim (collectClaim g) = none := by
  have hquery : Validate.docClaimQuery (collectClaim g) = none := by
    simp [Validate.docClaimQuery, collectClaim, walkUnique, hns, hkey, gcClaimant]
    decide
  have hclaimant : Validate.claimant gcClaimant = none := by decide
  have hdur : defaultClaimDuration ≠ 0 := by decide
  simp only [Validate.docClaim, hquery, Option.orElse_eq_none]
  refine ⟨trivial, ?_, ?_, hclaimant⟩
  · simp [collectClaim, hdur]
  · simp [collectClaim, check_eq_none_iff, hlen]

/-- The collector's claim of a stored set is refused while someone else holds it, and is otherwise
made. -/
theorem claimDocs_collectClaim (h : s.Sound) (hv : Validate.docClaim (collectClaim g) = none)
    (now : Time) :
    ((s.lockOf g).heldByOther gcClaimant now = true ∧
      ∃ e, claimDocs s (collectClaim g) now = (s, .error (.dependency e))) ∨
    (s.lockOf g).heldByOther gcClaimant now = false ∧
      ∃ s' r, claimDocs s (collectClaim g) now = (s', .ok r) ∧
        TookSets s (collectClaim g) now (now + defaultClaimDuration) s' r := by
  have hlease : claimUntil s (collectClaim g) now = .ok (now + defaultClaimDuration) := rfl
  have hdur : (0 : Duration) < defaultClaimDuration := by decide
  rcases claimDocs_cases h (collectClaim g) now with ⟨f, hr, href⟩ | ⟨until_, s', r, hr, ht⟩
  · left
    cases href with
    | invalid e bad => rw [hv] at bad; cases bad
    | unmatched f missing => rw [hlease] at missing; cases missing
    | lapsed f until_ lease past =>
      rw [hlease] at lease
      cases lease
      exact absurd past (not_le.mpr (lt_add_of_pos_right now hdur))
    | held e until_ lease future names =>
      refine ⟨?_, e, hr⟩
      rw [← claim_eq_none_iff _ gcClaimant now until_]
      cases hc : claim (s.lockOf g) gcClaimant now until_ with
      | none => rfl
      | some l => simp [heldAmong, setsOf, collectClaim, hc] at names
  · right
    have hl := ht.lease
    rw [hlease] at hl
    cases hl
    exact ⟨ht.free g (by simp [setsOf, collectClaim]), s', r, hr, ht⟩

theorem validate_collectDeletes {group : DocSet} (hne : group.docs ≠ [])
    (hnd : (group.docs.map fun d => docKey d.ns d.id).Nodup) :
    Validate.modification (collectDeletes group) = none := by
  have hdeps : ∃ r, (collectDeletes group).allDependencies = .ok r := by
    rw [Modification.allDependencies_ok_iff, ← Modification.docKeys_eq]
    refine ⟨List.nodup_nil, ?_⟩
    simpa [collectDeletes, Modification.modDocDeps, Modification.restDocDeps, newDocID,
      Function.comp_def] using hnd
  obtain ⟨r, hr⟩ := hdeps
  have hkeys : (collectDeletes group).ensureModifyKeys = none := by
    simp [Modification.ensureModifyKeys, Modification.isEmpty, collectDeletes, hne, walkUnique]
  have hrefs : Validate.docRefs (collectDeletes group) = none := by
    simp [Validate.docRefs, collectDeletes, Validate.both, newDocID, DocID.isSetRef]
  rw [Validate.modification, hkeys, hrefs, hr]
  rfl

def claimedGroup (s : EQMem) (g : SetName) (now : Time) : DocSet :=
  claimed g (claimedLock (collectClaim g) (now + defaultClaimDuration) (s.lockOf g)) (s.members g)

theorem docKey_id_inj {ns id id' : String} (h : docKey ns id = docKey ns id') : id = id' := by
  unfold docKey at h
  rw [← String.toList_inj] at h ⊢
  simpa using h

theorem claimedGroup_docKeys (h : s.DocsValid) (g : SetName) (now : Time) :
    ((claimedGroup s g now).docs.map fun d => docKey d.ns d.id).Nodup := by
  rw [claimedGroup, claimed, List.map_map]
  apply List.Nodup.map_on _ (h.members_nodup g)
  intro d hd d' hd' he
  rw [h.mem_members] at hd hd'
  have hns := (h.docAt_named hd.1).1
  have hns' := (h.docAt_named hd'.1).1
  simp only [Function.comp_apply, overlay, hns, hns'] at he
  have hid := docKey_id_inj he
  rw [hid, hd'.1] at hd
  exact (Option.some.inj hd.1).symm

def outside (sets : Finset SetName) (o : Option Doc) : Option Doc :=
  o.filter fun d => decide ((⟨d.ns, d.key⟩ : SetName) ∉ sets)

theorem outside_of_mem {sets : Finset SetName} {d : Doc}
    (h : (⟨d.ns, d.key⟩ : SetName) ∈ sets) : outside sets (some d) = none := by
  simp [outside, h]

theorem outside_of_notMem {sets : Finset SetName} {o : Option Doc}
    (h : ∀ d, o = some d → (⟨d.ns, d.key⟩ : SetName) ∉ sets) : outside sets o = o := by
  cases o with
  | none => rfl
  | some d => simp [outside, Option.filter_some, h d rfl]

theorem outside_insert (g : SetName) (sets : Finset SetName) (o : Option Doc) :
    outside {g} (outside sets o) = outside (insert g sets) o := by
  cases o with
  | none => rfl
  | some d =>
    by_cases hd : (⟨d.ns, d.key⟩ : SetName) ∈ sets
    · rw [outside_of_mem hd, outside_of_mem (Finset.mem_insert_of_mem hd)]
      rfl
    · have hself : outside sets (some d) = some d := outside_of_notMem (by simpa using hd)
      rw [hself]
      simp [outside, Option.filter_some, hd]

theorem member_named (h : s.DocsValid) {d : Doc} (hd : d ∈ s.members g) :
    s.docAt (d.ns, d.id) = some d ∧ (⟨d.ns, d.key⟩ : SetName) = g ∧ g.ns ≠ "" := by
  obtain ⟨hat, hkey⟩ := (h.mem_members g d).mp hd
  obtain ⟨hns, -, hnamed⟩ := h.docAt_named hat
  obtain ⟨ns, key⟩ := g
  cases hns
  cases hkey
  exact ⟨hat, rfl, hnamed⟩

theorem mem_members_self (h : s.DocsValid) {q : String × String} {d : Doc}
    (hd : s.docAt q = some d) : q = (d.ns, d.id) ∧ d ∈ s.members ⟨d.ns, d.key⟩ := by
  obtain ⟨hns, hid, -⟩ := h.docAt_named hd
  obtain rfl : (d.ns, d.id) = q := Prod.ext hns hid
  exact ⟨rfl, (h.mem_members _ d).mpr ⟨hd, rfl⟩⟩

theorem TookSets.lockOf_collectClaim {s' : EQMem} {now until_ : Time} {r : DocsClaimed}
    (ht : TookSets s (collectClaim g) now until_ s' r) (g' : SetName) :
    s'.lock? g' = if g' = g then some (claimedLock (collectClaim g) until_ (s.lockOf g))
      else s.lock? g' := by
  rw [ht.lock?, lockEffects_takenLocks ht.valid.once]
  by_cases hg : g' = g
  · simp [hg, setsOf, collectClaim]
  · have hother : g' ∉ setsOf (collectClaim g) := by simpa [setsOf, collectClaim] using hg
    rw [if_neg hg, if_neg hother]

/-- What the collector's delete names is stored, in the set the collector holds. -/
theorem satisfiable_collectDeletes (h : s.DocsValid) {s' : EQMem} {now : Time} {r : DocsClaimed}
    (ht : TookSets s (collectClaim g) now (now + defaultClaimDuration) s' r) (later : Time) :
    Satisfiable s' (collectDeletes (claimedGroup s g now)) later := by
  refine ⟨nofun, nofun, nofun, nofun, nofun, nofun, nofun, ?_, nofun, nofun⟩
  intro r hr
  obtain ⟨d', hd', rfl⟩ := List.mem_map.mp hr
  obtain ⟨d, hd, rfl⟩ := List.mem_map.mp hd'
  obtain ⟨hat, hset, -⟩ := member_named h hd
  have hlock : s'.lockOf g =
      claimedLock (collectClaim g) (now + defaultClaimDuration) (s.lockOf g) := by
    rw [EQMem.lockOf_eq, ht.lockOf_collectClaim, if_pos rfl, Option.getD_some]
  refine ⟨d, ⟨?_, .inr ?_⟩, ?_⟩
  · rw [ht.docAt]
    exact hat
  · rw [hset, hlock]
    rfl
  · rintro ⟨-, -, hother⟩
    rw [hset, hlock] at hother
    exact hother rfl

theorem mem_collectDeletes (now : Time) (id : DocID) :
    id ∈ (collectDeletes (claimedGroup s g now)).docDeletes ↔
      ∃ d ∈ s.members g, newDocID d.ns d.id
        (claimedLock (collectClaim g) (now + defaultClaimDuration) (s.lockOf g)).version = id := by
  simp [collectDeletes, claimedGroup, claimed, overlay]

theorem docsAfter_collectDeletes (h : s.DocsValid) {s' : EQMem} {now later : Time}
    {D : String × String → Option Doc} (hdocs : (modPrep s' (collectDeletes (claimedGroup s g now))
      false).DocsAfter s' later false D) (hsame : s'.docAt = s.docAt) (q : String × String) :
    D q = outside {g} (s.docAt q) := by
  by_cases hq : ∃ d, s.docAt q = some d ∧ (⟨d.ns, d.key⟩ : SetName) = g
  · obtain ⟨d, hd, rfl⟩ := hq
    obtain ⟨rfl, hin⟩ := mem_members_self h hd
    rw [hd, outside_of_mem (Finset.mem_singleton_self _)]
    exact hdocs.deleted _ ((mem_collectDeletes now _).mpr ⟨d, hin, rfl⟩)
  · have hkept : outside {g} (s.docAt q) = s.docAt q := by
      apply outside_of_notMem
      intro d hd
      simpa using fun hset => hq ⟨d, hd, hset⟩
    rw [hkept, ← hsame]
    apply hdocs.others
    · intro hin
      obtain ⟨r, hr, rfl⟩ := List.mem_map.mp hin
      obtain ⟨d, hd, rfl⟩ := (mem_collectDeletes now r).mp hr
      obtain ⟨hat, hset, -⟩ := member_named h hd
      exact hq ⟨d, hat, hset⟩
    · simp [collectDeletes, modPrep]
    · simp [collectDeletes, modPrep]

theorem collectDeletes_writes (h : s.DocsValid) {s' : EQMem} {now later : Time}
    (hpass : (modPrep s' (collectDeletes (claimedGroup s g now)) false).DocsPass s' later)
    (hsame : s'.docAt = s.docAt) {op : DocOp}
    (hop : op ∈ (collectDeletes (claimedGroup s g now)).docOps) {g' : SetName} {byDur : Duration}
    {n : ℤ} (ho : s'.docVerdict (collectDeletes (claimedGroup s g now)) later op =
      .write g' byDur n) : g' = g := by
  have hdelete : ∃ r ∈ (collectDeletes (claimedGroup s g now)).docDeletes,
      DocOp.delete r = op := by
    simpa [Modification.docOps, collectDeletes] using hop
  obtain ⟨r, hr, rfl⟩ := hdelete
  obtain ⟨d', ⟨hd', -⟩, -, hwrite⟩ := hpass.delete hr
  obtain ⟨d, hd, rfl⟩ := (mem_collectDeletes now r).mp hr
  obtain ⟨hat, hset, -⟩ := member_named h hd
  rw [← hsame] at hat
  obtain rfl : d = d' := Option.some.inj (hat.symm.trans hd')
  cases ho.symm.trans hwrite
  exact hset

/-- The collector deletes the docs of a set it has taken, and nothing else. -/
theorem modify_collectDeletes (h : Invariant s) {s' : EQMem} {now : Time} {r : DocsClaimed}
    (ht : TookSets s (collectClaim g) now (now + defaultClaimDuration) s' r)
    (hs' : Invariant s') (hmem : s.members g ≠ []) (later : Time) :
    ∃ s'' m, modify s' (collectDeletes (claimedGroup s g now)) later = (s'', .ok m) ∧
      Invariant s'' ∧ s''.task = s.task ∧ (∀ q, s''.docAt q = outside {g} (s.docAt q)) ∧
      ∀ g', g' ≠ g → s''.lock? g' = s.lock? g' := by
  have hsat := satisfiable_collectDeletes h.docs ht later
  have hne : (claimedGroup s g now).docs ≠ [] := by simpa [claimedGroup, claimed] using hmem
  have hv := validate_collectDeletes hne (claimedGroup_docKeys h.docs g now)
  have hsome : ¬Nowhere (collectDeletes (claimedGroup s g now)) := by
    intro hno
    obtain ⟨d, hd⟩ := List.exists_mem_of_ne_nil _ hmem
    obtain ⟨-, rfl, hns⟩ := member_named h.docs hd
    exact hns (hno.deletes _ ((mem_collectDeletes now _).mpr ⟨d, hd, rfl⟩))
  obtain ⟨hok, hp, hcommit⟩ := modify_commits hs' hv rfl nofun hsome hsat
  have hinv := Call.run_invariant hs' (.modify (collectDeletes (claimedGroup s g now)) later)
  have htasks := hp.tasksAfter later false hs'.indexed hsat.fits
  change Invariant (modify s' (collectDeletes (claimedGroup s g now)) later).1 at hinv
  cases hm : modify s' (collectDeletes (claimedGroup s g now)) later with
  | mk s'' res =>
    rw [hm] at hok hcommit hinv
    cases res with
    | error f => cases hok
    | ok m =>
      refine ⟨s'', m, rfl, hinv, ?_, ?_, ?_⟩
      · funext id
        rw [hcommit.applied.task, ← ht.task]
        apply htasks.others
        · simp [collectDeletes, modPrep]
        · simp [Prepared.origins, collectDeletes, modPrep]
        · simp [collectDeletes, modPrep]
      · intro q
        rw [hcommit.applied.docAt]
        exact docsAfter_collectDeletes h.docs (hp.docsAfter later false) ht.docAt q
      · intro g' hg'
        have hkept : SetKept g' s' s'' := by
          apply hcommit.untouched hs'.toSound hp
          rintro ⟨op, hop, byDur, n, ho⟩
          exact hg' (collectDeletes_writes h.docs hcommit.docsPass ht.docAt hop ho)
        rw [hkept.lock?, ht.lockOf_collectClaim, if_neg hg']

/-- A visit of a stored set passes it over while someone else holds it, and otherwise empties it. -/
theorem collectSet_cases (h : Invariant s) (hv : Validate.docClaim (collectClaim g) = none)
    (pass : DocPass) :
    ((s.lockOf g).heldByOther gcClaimant (pass.claimedAt g) = true ∧
      collectSet s pass g = (s, .ok false)) ∨
    (s.lockOf g).heldByOther gcClaimant (pass.claimedAt g) = false ∧
      ∃ s', collectSet s pass g = (s', .ok (!(s.members g).isEmpty)) ∧ Invariant s' ∧
        s'.task = s.task ∧ (∀ q, s'.docAt q = outside {g} (s.docAt q)) ∧
        ∀ g', g' ≠ g → s'.lock? g' = s.lock? g' := by
  rcases claimDocs_collectClaim h.toSound hv (pass.claimedAt g) with
    ⟨hheld, e, hr⟩ | ⟨hfree, s', r, hr, ht⟩
  · left
    exact ⟨hheld, by rw [collectSet, hr]⟩
  · right
    refine ⟨hfree, ?_⟩
    have hs' : Invariant s' := by
      have hinv := Call.run_invariant h (.claimDocs (collectClaim g) (pass.claimedAt g))
      change Invariant (claimDocs s (collectClaim g) (pass.claimedAt g)).1 at hinv
      rwa [hr] at hinv
    have hsets : r.sets = [claimedGroup s g (pass.claimedAt g)] := by
      rw [ht.sets]
      rfl
    rw [collectSet, hr]
    dsimp only
    rw [hsets]
    dsimp only
    cases hmem : s.members g with
    | nil =>
      have hempty : (claimedGroup s g (pass.claimedAt g)).docs = [] := by
        simp [claimedGroup, claimed, hmem]
      rw [hempty]
      refine ⟨s', rfl, hs', ht.task, ?_, ?_⟩
      · intro q
        rw [ht.docAt, outside_of_notMem]
        intro d hd hg
        obtain rfl := Finset.mem_singleton.mp hg
        obtain ⟨-, hin⟩ := mem_members_self h.docs hd
        rw [hmem] at hin
        cases hin
      · intro g' hg'
        rw [ht.lockOf_collectClaim, if_neg hg']
    | cons d ds =>
      have hne : (claimedGroup s g (pass.claimedAt g)).docs.isEmpty = false := by
        simp [claimedGroup, claimed, hmem]
      obtain ⟨s'', m, hm, hrest⟩ := modify_collectDeletes h ht hs' (by simp [hmem])
        (pass.deletedAt g)
      rw [hne, hm]
      exact ⟨s'', rfl, hrest⟩

end Turn

/-! ## A pass -/

/-- The sets have been emptied, and nothing else has changed. -/
structure Emptied (s : EQMem) (sets : Finset SetName) (s' : EQMem) : Prop where
  invariant : Invariant s'
  task : s'.task = s.task
  docAt : ∀ q, s'.docAt q = outside sets (s.docAt q)
  lock? : ∀ g, g ∉ sets → s'.lock? g = s.lock? g

section Pass
variable {s s' : EQMem} {sets : Finset SetName} {pass : DocPass}

theorem Emptied.members (h : Emptied s sets s') (hs : s.DocsValid) (g : SetName) :
    s'.members g = if g ∈ sets then [] else s.members g := by
  split_ifs with hg
  · rw [List.eq_nil_iff_forall_not_mem]
    intro d hd
    obtain ⟨hat, hset, -⟩ := member_named h.invariant.docs hd
    rw [h.docAt] at hat
    have hin := (Option.filter_eq_some_iff.mp hat).2
    rw [hset] at hin
    exact absurd hg (of_decide_eq_true hin)
  · apply hs.members_eq h.invariant.docs
    intro d hk
    rw [h.docAt]
    constructor
    · intro hd
      exact (Option.filter_eq_some_iff.mp hd).1
    · intro hd
      rw [hd]
      apply outside_of_notMem
      intro d' hd'
      obtain rfl := Option.some.inj hd'
      have hns : d.ns = g.ns := (hs.docAt_named hd).1
      rwa [hns, hk]

theorem Emptied.grown (h : Emptied s sets s') {s'' : EQMem} {g : SetName} (hinv : Invariant s'')
    (htask : s''.task = s'.task) (hdocs : ∀ q, s''.docAt q = outside {g} (s'.docAt q))
    (hlock : ∀ g', g' ≠ g → s''.lock? g' = s'.lock? g') : Emptied s (insert g sets) s'' where
  invariant := hinv
  task := htask.trans h.task
  docAt q := by rw [hdocs, h.docAt, outside_insert]
  lock? g' hg' := by
    rw [Finset.mem_insert, not_or] at hg'
    rw [hlock g' hg'.1, h.lock? g' hg'.2]

/-- The pass empties each set that no one else holds; its batch has room for all of them. -/
theorem Emptied.collectSets (h : Emptied s sets s') (hs : s.DocsValid) {due : List SetName}
    (hdue : ∀ g ∈ due, Validate.docClaim (collectClaim g) = none ∧ s.members g ≠ [])
    (hsets : ∀ g ∈ sets, s.members g ≠ [])
    (hroom : ∀ G : Finset SetName, (∀ g ∈ G, s.members g ≠ []) → G.card ≤ pass.batch) :
    ∃ s'' sets', Eqmem.collectSets pass s' sets.card due = (s'', .ok sets'.card) ∧
      Emptied s sets' s'' ∧ ∀ g, g ∈ sets' ↔ g ∈ sets ∨
        g ∈ due ∧ (s.lockOf g).heldByOther gcClaimant (pass.claimedAt g) = false := by
  induction due generalizing s' sets with
  | nil => exact ⟨s', sets, rfl, h, by simp⟩
  | cons g due ih =>
    have hv := (hdue g (by simp)).1
    have hdocs := (hdue g (by simp)).2
    rw [Eqmem.collectSets]
    split_ifs with hfull
    · -- a full batch leaves no set that has docs
      refine ⟨s', sets, rfl, h, fun g' => ⟨.inl, fun hg' => hg'.elim id fun hg' => ?_⟩⟩
      by_contra hnot
      have hcard := hroom (insert g' sets) (by simpa using ⟨(hdue g' hg'.1).2, hsets⟩)
      rw [Finset.card_insert_of_notMem hnot] at hcard
      omega
    · have hlockOf : g ∉ sets → s'.lockOf g = s.lockOf g := by
        intro hg
        rw [EQMem.lockOf_eq, EQMem.lockOf_eq, h.lock? g hg]
      have hdue' := fun g' hg' => hdue g' (List.mem_cons_of_mem _ hg')
      rcases collectSet_cases h.invariant hv pass with
        ⟨hheld, hr⟩ | ⟨hfree, s₁, hr, hinv, htask, hdocs₁, hlock⟩
      · obtain ⟨s'', sets', hrun, hemptied, hmem⟩ := ih h hdue' hsets
        rw [hr]
        refine ⟨s'', sets', hrun, hemptied, fun g' => ?_⟩
        rw [hmem, List.mem_cons]
        by_cases hg : g ∈ sets
        · grind
        · rw [hlockOf hg] at hheld
          grind
      · have hgrown := h.grown hinv htask hdocs₁ hlock
        rw [hr, h.members hs]
        by_cases hg : g ∈ sets
        · rw [Finset.insert_eq_of_mem hg] at hgrown
          obtain ⟨s'', sets', hrun, hemptied, hmem⟩ := ih hgrown hdue' hsets
          rw [if_pos hg]
          refine ⟨s'', sets', hrun, hemptied, fun g' => ?_⟩
          rw [hmem, List.mem_cons]
          grind
        · obtain ⟨s'', sets', hrun, hemptied, hmem⟩ := ih hgrown hdue'
            (by simpa using ⟨hdocs, hsets⟩)
          rw [hlockOf hg] at hfree
          rw [Finset.card_insert_of_notMem hg] at hrun
          have hsome : (!(s.members g).isEmpty) = true := by simpa using hdocs
          rw [if_neg hg, hsome]
          refine ⟨s'', sets', hrun, hemptied, fun g' => ?_⟩
          rw [hmem, List.mem_cons, Finset.mem_insert]
          grind

def EQMem.places (s : EQMem) : Finset (String × String) :=
  s.namespaces.keys.biUnion fun name =>
    ((s.namespaces.lookup name).elim ∅ fun n => n.byID.keys).image (Prod.mk name)

theorem mem_places {q : String × String} {d : Doc} (hd : s.docAt q = some d) : q ∈ s.places := by
  obtain ⟨n, hn, hd⟩ := Option.bind_eq_some_iff.mp hd
  rw [EQMem.places, Finset.mem_biUnion]
  refine ⟨q.1, Finmap.mem_keys.mpr (Finmap.mem_of_lookup_eq_some hn), ?_⟩
  rw [hn, Finset.mem_image]
  exact ⟨q.2, Finmap.mem_keys.mpr (Finmap.mem_of_lookup_eq_some hd), rfl⟩

theorem card_le_places (h : s.DocsValid) {G : Finset SetName} (hG : ∀ g ∈ G, s.members g ≠ []) :
    G.card ≤ s.places.card := by
  have hdoc (g : SetName) (hg : g ∈ G) : ∃ q, ∃ d, s.docAt q = some d ∧ d ∈ s.members g := by
    obtain ⟨d, hd⟩ := List.exists_mem_of_ne_nil _ (hG g hg)
    exact ⟨_, d, (member_named h hd).1, hd⟩
  choose! place doc hdoc using hdoc
  apply Finset.card_le_card_of_injOn place
  · intro g hg
    exact mem_places (hdoc g hg).1
  · intro g hg g' hg' he
    obtain ⟨hd, hm⟩ := hdoc g hg
    obtain ⟨hd', hm'⟩ := hdoc g' hg'
    rw [he, hd'] at hd
    rw [← (member_named h hm).2.1, ← (member_named h hm').2.1, Option.some.inj hd]

/-- A pass with room for every doc empties the sets of the namespaces that are due, except those
that someone else holds and those under the empty key. -/
theorem collectDocsOnce_emptied (hr : Reachable s) (hnames : ∀ k, k ∈ pass.names ↔ k ∈ s.namespaces)
    (hbatch : s.places.card ≤ pass.batch) :
    ∃ s' sets, collectDocsOnce s pass = (s', .ok sets.card) ∧ Emptied s sets s' ∧
      ∀ g, g ∈ sets ↔ pass.due g.ns = true ∧ g.key ≠ "" ∧ s.members g ≠ [] ∧
        (s.lockOf g).heldByOther gcClaimant (pass.claimedAt g) = false := by
  have h := hr.invariant
  obtain ⟨due, hdue, hmem⟩ := mem_dueSets h.docs pass fun k hk => (hnames k).mp hk
  have hvalid : ∀ g ∈ due, Validate.docClaim (collectClaim g) = none ∧ s.members g ≠ [] := by
    intro g hg
    obtain ⟨-, -, hkey, hdocs⟩ := (hmem g).mp hg
    refine ⟨?_, hdocs⟩
    obtain ⟨d, hd⟩ := List.exists_mem_of_ne_nil _ hdocs
    obtain ⟨hat, rfl, hns⟩ := member_named h.docs hd
    exact validate_collectClaim hns hkey (hr.docsWithinLimits _ d hat)
  have hstart : Emptied s ∅ s :=
    ⟨h, rfl, fun q => (outside_of_notMem (by simp)).symm, fun g _ => rfl⟩
  obtain ⟨s', sets, hrun, hemptied, hsets⟩ := hstart.collectSets h.docs hvalid (by simp)
    fun G hG => (card_le_places h.docs hG).trans hbatch
  refine ⟨s', sets, ?_, hemptied, fun g => ?_⟩
  · rw [collectDocsOnce, hdue]
    exact hrun
  · rw [hsets, hmem]
    have hlisted : s.members g ≠ [] → g.ns ∈ pass.names := by
      intro hdocs
      rw [hnames]
      by_contra hno
      exact hdocs (by rw [EQMem.members, Finmap.lookup_eq_none.mpr hno])
    grind

end Pass

/-! ## Exactness -/

section Exact
variable (rfc3339Nano : GoString → Option Time)

/-- The activation that a namespace's name asks for; a malformed one counts as none. -/
def activationOf (name : String) : Option Time :=
  match gcActivation rfc3339Nano (text name) with
  | .ok activateAt => activateAt
  | .error _ => none

def collectable (s : EQMem) (now : Time) (g : SetName) : Bool :=
  !(s.members g).isEmpty && due rfc3339Nano now (text g.ns) && !(s.lockOf g).held now

/-- The docs of the collectable sets are gone, and nothing else has changed. -/
structure CollectedExactly (s : EQMem) (now : Time) (r : EQMem × Except Fault ℕ) : Prop where
  ends : r.2.isOk = true
  docAt : ∀ q, r.1.docAt q =
    (s.docAt q).filter fun d => !collectable rfc3339Nano s now ⟨d.ns, d.key⟩
  task : r.1.task = s.task
  kept : ∀ g, collectable rfc3339Nano s now g = false → SetKept g s r.1

end Exact

/-- Between the first and the later reading of the clock no set with docs is let go. -/
def DocPass.Steady (pass : DocPass) (s : EQMem) : Prop :=
  ∀ g, s.members g ≠ [] → (s.lockOf g).heldByOther gcClaimant (pass.claimedAt g) =
    (s.lockOf g).heldByOther gcClaimant pass.now

theorem DocPass.due_eq {pass : DocPass} {rfc3339Nano : GoString → Option Time}
    (hact : pass.activation = activationOf rfc3339Nano) (name : String) :
    pass.due name = Queues.due rfc3339Nano pass.now (text name) := by
  rw [DocPass.due, hact, activationOf, Queues.due]
  cases gcActivation rfc3339Nano (text name) with
  | error e => rfl
  | ok a => cases a <;> rfl

/-- A pass is exact unless there is a set under the empty key that no one holds, or a set that is
held by the collector itself. -/
theorem collectDocsOnce_exact_iff {s : EQMem} (hr : Reachable s) {pass : DocPass}
    {rfc3339Nano : GoString → Option Time} (hact : pass.activation = activationOf rfc3339Nano)
    (hnames : ∀ k, k ∈ pass.names ↔ k ∈ s.namespaces) (hsteady : pass.Steady s)
    (hbatch : s.places.card ≤ pass.batch) :
    CollectedExactly rfc3339Nano s pass.now (collectDocsOnce s pass) ↔
      ∀ g, s.members g ≠ [] → due rfc3339Nano pass.now (text g.ns) = true →
        if g.key = "" then (s.lockOf g).held pass.now = true
        else ¬((s.lockOf g).held pass.now = true ∧ (s.lockOf g).claimant = gcClaimant) := by
  have h := hr.invariant
  obtain ⟨s', sets, hrun, hemptied, hsets⟩ := collectDocsOnce_emptied hr hnames hbatch
  rw [hrun]
  -- the sets emptied are the collectable ones exactly under the condition
  have hcond (g : SetName) (hdocs : s.members g ≠ [])
      (hdue : due rfc3339Nano pass.now (text g.ns) = true) :
      (g ∈ sets ↔ collectable rfc3339Nano s pass.now g = true) ↔
        if g.key = "" then (s.lockOf g).held pass.now = true
        else ¬((s.lockOf g).held pass.now = true ∧ (s.lockOf g).claimant = gcClaimant) := by
    have hsome : (s.members g).isEmpty = false := by simpa using hdocs
    rw [hsets, pass.due_eq hact, hsteady g hdocs, collectable, hsome, hdue, Lock.heldByOther]
    by_cases hkey : g.key = "" <;> cases (s.lockOf g).held pass.now <;> simp [hkey, hdocs]
  constructor
  · intro hexact g hdocs hdue
    rw [← hcond g hdocs hdue]
    obtain ⟨d, hd⟩ := List.exists_mem_of_ne_nil _ hdocs
    obtain ⟨hat, hset, -⟩ := member_named h.docs hd
    have hsame := (hemptied.docAt (d.ns, d.id)).symm.trans (hexact.docAt (d.ns, d.id))
    rw [hat, outside, Option.filter_some, Option.filter_some, hset] at hsame
    by_cases hg : g ∈ sets <;>
      cases hc : collectable rfc3339Nano s pass.now g <;> simp [hg, hc] at hsame ⊢
  · intro hall
    have hiff (g : SetName) : g ∈ sets ↔ collectable rfc3339Nano s pass.now g = true := by
      by_cases hg : s.members g ≠ [] ∧ due rfc3339Nano pass.now (text g.ns) = true
      · exact (hcond g hg.1 hg.2).mpr (hall g hg.1 hg.2)
      · rw [hsets, pass.due_eq hact, collectable]
        grind
    refine ⟨rfl, fun q => ?_, hemptied.task, fun g hg => ?_⟩
    · rw [hemptied.docAt, outside]
      congr 1
      funext d
      rw [Bool.eq_iff_iff, decide_eq_true_iff, hiff, Bool.not_eq_true', Bool.not_eq_true]
    · have hnot : g ∉ sets := by
        rw [hiff, hg]
        exact Bool.false_ne_true
      exact ⟨hemptied.lock? g hnot, by rw [hemptied.members h.docs, if_neg hnot]⟩

def storeOf (docs : List (String × String × String)) : EQMem :=
  run {} [.modify { claimant := "w", docInserts := docs.map fun (ns, id, key) => { ns, id, key } } 5]

def passOver (names : List String) (batch : ℕ) : DocPass where
  now := 7
  names := names
  activation := activationOf fun _ => none
  claimedAt := fun _ => 7
  deletedAt := fun _ => 7
  batch := batch

def twoKeys : EQMem := storeOf [("/gc=/n", "d", "k"), ("/n", "e", "k")]

theorem collectDocsOnce_exact_twoKeys :
    CollectedExactly (fun _ => none) twoKeys 7
        (collectDocsOnce twoKeys (passOver ["/gc=/n", "/n"] 2)) ∧
      collectable (fun _ => none) twoKeys 7 ⟨"/gc=/n", "k"⟩ = true := by
  have hkeys : twoKeys.namespaces.keys = {"/gc=/n", "/n"} := by decide
  have hcard : twoKeys.places.card = 2 := by decide
  have hfree : ∀ q ∈ twoKeys.places, (twoKeys.docAt q).all (fun d =>
      d.key ≠ "" && !(twoKeys.lockOf ⟨d.ns, d.key⟩).held 7) = true := by decide
  have hnames : ∀ k, k ∈ (passOver ["/gc=/n", "/n"] 2).names ↔ k ∈ twoKeys.namespaces := by
    intro k
    rw [← Finmap.mem_keys, hkeys]
    simp [passOver]
  have hreach : Reachable twoKeys := ⟨_, rfl⟩
  refine ⟨(collectDocsOnce_exact_iff hreach rfl hnames (fun _ _ => rfl) hcard.le).mpr ?_,
    by decide⟩
  intro g hdocs _
  obtain ⟨d, hd⟩ := List.exists_mem_of_ne_nil _ hdocs
  obtain ⟨hat, rfl, -⟩ := member_named hreach.invariant.docs hd
  have hd := hfree _ (mem_places hat)
  rw [hat, Option.all_some, Bool.and_eq_true, decide_eq_true_iff, Bool.not_eq_true'] at hd
  rw [if_neg hd.1]
  rintro ⟨hheld, -⟩
  exact Bool.false_ne_true (hd.2.symm.trans hheld)

def keyless : EQMem := storeOf [("/gc=/n", "d", "")]

theorem collectDocsOnce_keyless :
    keyless.places.card = 1 ∧ collectable (fun _ => none) keyless 7 ⟨"/gc=/n", ""⟩ = true ∧
      ((collectDocsOnce keyless (passOver ["/gc=/n"] 1)).1.docAt ("/gc=/n", "d")).isSome = true ∧
      ¬CollectedExactly (fun _ => none) keyless 7
        (collectDocsOnce keyless (passOver ["/gc=/n"] 1)) := by
  refine ⟨by decide, by decide, by decide, fun hexact => ?_⟩
  have hdoc := hexact.docAt ("/gc=/n", "d")
  revert hdoc
  decide

end EntroQ.Eqmem
