import EntroQ.Eqmem.Run

/-! # Exactness of `Modify`

A modification is satisfiable if each of its operations is, by the tables alone. `Modify`
commits the satisfiable ones, and of the others it reports exactly the operations that fail. -/

namespace EntroQ.Eqmem
open Foundation Docset

namespace EQMem
variable (s : EQMem)

/-- Someone else holds the set. -/
def SetHeld (claimant : String) (now : Time) (g : SetName) : Prop :=
  (s.lockOf g).claimant ≠ "" ∧ now < (s.lockOf g).atTime ∧ (s.lockOf g).claimant ≠ claimant

theorem heldByOther_iff (claimant : String) (now : Time) (g : SetName) :
    (s.lockOf g).heldByOther claimant now = true ↔ s.SetHeld claimant now g := by
  simp [Lock.heldByOther, Lock.held, SetHeld, and_assoc]

/-- The stored doc that has the ID of the insert, or else the one that has its place. -/
def Collision (d : DocData) (o : Doc) : Prop :=
  s.docAt (d.ns, d.id) = some o ∨
    s.docAt (d.ns, d.id) = none ∧ s.occupant ⟨d.ns, d.key⟩ d.secondaryKey = some o

/-- The doc is stored, in a set at the version named or one the modification names itself. -/
def HasDoc (mod : Modification) (ns id : String) (version : Int32) (d : Doc) : Prop :=
  AtVersion mod (fun ns id => s.docAt (ns, id)) s.lockOf ns id version d

/-- What a doc dependency names is stored at its version. -/
def HasDepend (mod : Modification) (r : DocID) : Prop :=
  DependHolds mod (fun ns id => s.docAt (ns, id)) s.lockOf r

end EQMem

/-- Every operation can be made, judged by itself. -/
structure Satisfiable (s : EQMem) (mod : Modification) (now : Time) : Prop where
  inserts : ∀ ins ∈ mod.inserts, s.task ins.id = none
  changes : ∀ c ∈ mod.changes, s.HasTask c.origin ∧ ¬s.HeldByOther mod.claimant now c.origin
  deletes : ∀ r ∈ mod.deletes, s.HasTask r ∧ ¬s.HeldByOther mod.claimant now r
  arrives : ∀ a ∈ mod.arrives, s.HasTask a.taskID ∧ ¬s.HeldByOther mod.claimant now a.taskID
  depends : ∀ r ∈ mod.depends, s.HasTask r
  docInserts : ∀ d ∈ mod.docInserts,
    (∀ o, ¬s.Collision d o) ∧ ¬s.SetHeld mod.claimant now ⟨d.ns, d.key⟩
  docChanges : ∀ c ∈ mod.docChanges, ∃ d, s.HasDoc mod c.doc.ns c.doc.id c.doc.version d ∧
    ¬s.SetHeld mod.claimant now ⟨d.ns, d.key⟩
  docDeletes : ∀ r ∈ mod.docDeletes, ∃ d, s.HasDoc mod r.ns r.id r.version d ∧
    ¬s.SetHeld mod.claimant now ⟨d.ns, d.key⟩
  docDepends : ∀ r ∈ mod.docDepends, s.HasDepend mod r
  docArrives : ∀ a ∈ mod.docArrives, AtLock s.lockOf a.docID ∧
    ¬s.SetHeld mod.claimant now ⟨a.docID.ns, a.docID.key⟩

/-! ## Doc operations -/

section Docs
variable {s : EQMem} {mod : Modification} {now : Time}

theorem docVerdict_insert (h : Invariant s) {d : DocData} (hid : d.id ≠ "") :
    (∃ o, s.Collision d o ∧ ∃ v, s.docVerdict mod now (.insert d) =
      .collides (newDocID o.ns o.id v)) ∨
    (∀ o, ¬s.Collision d o) ∧ s.docVerdict mod now (.insert d) =
      if (s.lockOf ⟨d.ns, d.key⟩).heldByOther mod.claimant now then
        .heldByOther ⟨d.ns, d.key⟩ (some (newDocID d.ns d.id (s.lockOf ⟨d.ns, d.key⟩).version))
      else .write ⟨d.ns, d.key⟩ d.byDur 1 := by
  rw [EQMem.docVerdict, outcome, insertOutcome]
  cases ho : s.docAt (d.ns, d.id) with
  | some o =>
    obtain ⟨h1, h2, -⟩ := h.docs.docAt_named ho
    refine .inl ⟨o, .inl ho, 0, ?_⟩
    rw [if_pos (by simp [hid]), h1, h2]
  | none =>
    rw [if_neg (by simp)]
    -- a set that its lock says is empty has no one in any place
    have hocc : (if (s.lockOf ⟨d.ns, d.key⟩).numDocs > 0 then
        s.occupant ⟨d.ns, d.key⟩ d.secondaryKey else none) =
        s.occupant ⟨d.ns, d.key⟩ d.secondaryKey := by
      split_ifs with hn
      · rfl
      · rw [h.counted, EQMem.count_eq_members] at hn
        have hnil : s.members ⟨d.ns, d.key⟩ = [] := by
          rw [← List.length_eq_zero_iff]
          omega
        rw [EQMem.occupant_eq, hnil]
        rfl
    rw [hocc]
    cases hc : s.occupant ⟨d.ns, d.key⟩ d.secondaryKey with
    | some o => exact .inl ⟨o, .inr ⟨ho, hc⟩, _, rfl⟩
    | none =>
      refine .inr ⟨?_, rfl⟩
      rintro o (hx | ⟨-, hx⟩)
      · rw [ho] at hx
        cases hx
      · rw [hc] at hx
        cases hx

theorem insert_passes_iff (h : Invariant s) {d : DocData} (hid : d.id ≠ "") :
    (s.docVerdict mod now (.insert d)).passes = true ↔
      (∀ o, ¬s.Collision d o) ∧ ¬s.SetHeld mod.claimant now ⟨d.ns, d.key⟩ := by
  rw [← s.heldByOther_iff]
  rcases @docVerdict_insert s mod now h d hid with ⟨o, ho, v, he⟩ | ⟨hno, he⟩
  · rw [he]
    exact ⟨(by cases ·), fun hx => absurd ho (hx.1 o)⟩
  · rw [he]
    split_ifs with hh
    · exact ⟨(by cases ·), fun hx => absurd hh hx.2⟩
    · exact ⟨fun _ => ⟨hno, hh⟩, fun _ => rfl⟩

theorem memberWrite_passes_iff {ns id : String} {version : Int32} {o missing : Outcome}
    {held written : Doc → Outcome} (hmissing : missing.passes = false)
    (hheld : ∀ d, (held d).passes = false) (hwritten : ∀ d, (written d).passes = true)
    (h : (∃ d, s.HasDoc mod ns id version d ∧
        o = if (s.lockOf ⟨d.ns, d.key⟩).heldByOther mod.claimant now then held d else written d) ∨
      (∀ d, ¬s.HasDoc mod ns id version d) ∧ o = missing) :
    o.passes = true ↔ ∃ d, s.HasDoc mod ns id version d ∧
      ¬s.SetHeld mod.claimant now ⟨d.ns, d.key⟩ := by
  rcases h with ⟨d, hd, he⟩ | ⟨hno, he⟩
  · have hone : ∀ d', s.HasDoc mod ns id version d' → d' = d :=
      fun d' hd' => Option.some.inj (hd'.1.symm.trans hd.1)
    rw [he]
    split_ifs with hh
    · rw [hheld]
      refine ⟨(by cases ·), fun ⟨d', hd', hf⟩ => absurd ((s.heldByOther_iff _ _ _).mp hh) ?_⟩
      rw [hone d' hd'] at hf
      exact hf
    · exact ⟨fun _ => ⟨d, hd, fun hx => hh ((s.heldByOther_iff _ _ _).mpr hx)⟩,
        fun _ => hwritten d⟩
  · rw [he, hmissing]
    exact ⟨(by cases ·), fun ⟨d, hd, _⟩ => absurd hd (hno d)⟩

theorem change_passes_iff (c : DocChange) :
    (s.docVerdict mod now (.change c)).passes = true ↔
      ∃ d, s.HasDoc mod c.doc.ns c.doc.id c.doc.version d ∧
        ¬s.SetHeld mod.claimant now ⟨d.ns, d.key⟩ :=
  memberWrite_passes_iff rfl (fun _ => rfl) (fun _ => rfl)
    (@changeOutcome_cases mod now (fun ns id => s.docAt (ns, id)) s.lockOf c)

theorem delete_passes_iff (r : DocID) :
    (s.docVerdict mod now (.delete r)).passes = true ↔
      ∃ d, s.HasDoc mod r.ns r.id r.version d ∧ ¬s.SetHeld mod.claimant now ⟨d.ns, d.key⟩ :=
  memberWrite_passes_iff rfl (fun _ => rfl) (fun _ => rfl)
    (@deleteOutcome_cases mod now (fun ns id => s.docAt (ns, id)) s.lockOf r)

theorem depend_passes_iff (r : DocID) :
    (s.docVerdict mod now (.depend r)).passes = true ↔ s.HasDepend mod r := by
  rw [EQMem.docVerdict, outcome]
  rcases @dependOutcome_cases mod (fun ns id => s.docAt (ns, id)) s.lockOf r with
    ⟨hd, he⟩ | ⟨hno, he⟩
  · rw [he]
    exact ⟨fun _ => hd, fun _ => rfl⟩
  · rw [he]
    exact ⟨(by cases ·), fun hd => absurd hd hno⟩

theorem arrive_passes_iff (a : DocArrival) :
    (s.docVerdict mod now (.arrive a)).passes = true ↔ AtLock s.lockOf a.docID ∧
      ¬s.SetHeld mod.claimant now ⟨a.docID.ns, a.docID.key⟩ := by
  rw [EQMem.docVerdict, outcome, ← s.heldByOther_iff]
  rcases @arriveOutcome_cases mod now s.lockOf a with ⟨hd, he⟩ | ⟨hno, he⟩
  · rw [he]
    split_ifs with hh
    · exact ⟨(by cases ·), fun hx => absurd hh hx.2⟩
    · exact ⟨fun _ => ⟨hd, hh⟩, fun _ => rfl⟩
  · rw [he]
    exact ⟨(by cases ·), fun hx => absurd hx.1 hno⟩

theorem forall_docOps {P : DocOp → Prop} :
    (∀ op ∈ mod.docOps, P op) ↔ (∀ d ∈ mod.docInserts, P (.insert d)) ∧
      (∀ c ∈ mod.docChanges, P (.change c)) ∧ (∀ r ∈ mod.docDeletes, P (.delete r)) ∧
      (∀ r ∈ mod.docDepends, P (.depend r)) ∧ ∀ a ∈ mod.docArrives, P (.arrive a) := by
  simp only [Modification.docOps, List.forall_mem_append, List.forall_mem_map, and_assoc]

theorem docsPass_iff (h : Invariant s) (hids : ∀ d ∈ mod.docInserts, d.id ≠ "") :
    (∀ op ∈ mod.docOps, (s.docVerdict mod now op).passes = true) ↔
      (∀ d ∈ mod.docInserts, (∀ o, ¬s.Collision d o) ∧
        ¬s.SetHeld mod.claimant now ⟨d.ns, d.key⟩) ∧
      (∀ c ∈ mod.docChanges, ∃ d, s.HasDoc mod c.doc.ns c.doc.id c.doc.version d ∧
        ¬s.SetHeld mod.claimant now ⟨d.ns, d.key⟩) ∧
      (∀ r ∈ mod.docDeletes, ∃ d, s.HasDoc mod r.ns r.id r.version d ∧
        ¬s.SetHeld mod.claimant now ⟨d.ns, d.key⟩) ∧
      (∀ r ∈ mod.docDepends, s.HasDepend mod r) ∧
      ∀ a ∈ mod.docArrives, AtLock s.lockOf a.docID ∧
        ¬s.SetHeld mod.claimant now ⟨a.docID.ns, a.docID.key⟩ := by
  rw [forall_docOps]
  refine and_congr (forall₂_congr fun d hd => insert_passes_iff h (hids d hd)) ?_
  refine and_congr (forall₂_congr fun c _ => change_passes_iff c) ?_
  refine and_congr (forall₂_congr fun r _ => delete_passes_iff r) ?_
  exact and_congr (forall₂_congr fun r _ => depend_passes_iff r)
    (forall₂_congr fun a _ => arrive_passes_iff a)

end Docs

/-! ## Task operations -/

section Tasks
variable {s : EQMem} {mod : Modification} {now : Time}

theorem modPrep_mod : (modPrep s mod false).mod = mod := rfl

/-- The queue check finds only operations whose task is not where they say. -/
theorem not_hasTask_of_wrong (h : s.Indexed) {r : TaskID}
    (hw : (r.queue == "" || r.queue != queueOf s.qByID r.id) = true) : ¬s.HasTask r := by
  rintro ⟨t, ht, hq, -⟩
  obtain ⟨-, hqn, -⟩ := h.task_named ht
  have : queueOf s.qByID r.id = r.queue := by
    rw [queueOf, h.qByID_eq, ht, ← hq]
    rfl
  rw [this, ← hq] at hw
  simp [hqn] at hw

theorem queueDeps_tasks (c : TaskClass) (r : TaskID)
    (hr : r ∈ ((modPrep s mod false).queueDeps.getD {}).tasks c) :
    (r.queue == "" || r.queue != queueOf s.qByID r.id) = true ∧
      match c with
      | .deletes => r ∈ mod.deletes
      | .depends => r ∈ mod.depends
      | .changes => r ∈ mod.changes.map TaskChange.origin
      | _ => False := by
  change r ∈ ((ensureModQueues s.qByID mod).getD {}).tasks c at hr
  unfold ensureModQueues at hr
  rw [DependencyError.reported_tasks] at hr
  cases c with
  | deletes => exact (List.mem_filter.mp hr).symm
  | depends => exact (List.mem_filter.mp hr).symm
  | changes => exact (List.mem_filter.mp hr).symm
  | inserts => cases hr
  | claims => cases hr
  | arrives => cases hr

theorem queueDeps_docs (c : DocClass) :
    ((modPrep s mod false).queueDeps.getD {}).docs c = [] := by
  change ((ensureModQueues s.qByID mod).getD {}).docs c = []
  unfold ensureModQueues
  rw [DependencyError.reported_docs]
  cases c <;> rfl

theorem docFailures_tasks (h : s.Sound) (hp : (modPrep s mod false).Proper) (c : TaskClass) :
    ((modPrep s mod false).docFailures s now false).tasks c = [] := by
  unfold Prepared.docFailures
  rw [hp.docPlan_eq now h.docs h.docIDs, evaluate_err_eq, DependencyError.reported_tasks]
  exact recordAll_tasks now s.lockOf _ c

theorem claims_nil_iff (h : s.Indexed) {p : Prepared} (hp : p.Proper) :
    (p.taskFailures s now).claims = [] ↔
      (∀ r ∈ p.mod.deletes, ¬s.HeldByOther p.mod.claimant now r) ∧
        ∀ o ∈ p.origins, ¬s.HeldByOther p.mod.claimant now o := by
  rw [List.eq_nil_iff_forall_not_mem]
  constructor
  · intro hno
    refine ⟨fun r hr hh => ?_, fun o ho hh => ?_⟩
    · exact hno r ((hp.covers.taskFailures_claims now h hp.once r).mpr (.inl ⟨hr, hh⟩))
    · exact hno _ ((hp.covers.taskFailures_claims now h hp.once _).mpr (.inr ⟨o, ho, rfl, hh⟩))
  · rintro ⟨hdel, horig⟩ r hr
    rcases (hp.covers.taskFailures_claims now h hp.once r).mp hr with ⟨hm, hh⟩ | ⟨o, ho, -, hh⟩
    · exact hdel r hm hh
    · exact horig o ho hh

theorem mem_origins {p : Prepared} (r : TaskID) :
    r ∈ p.origins ↔ (∃ c ∈ p.mod.changes, c.origin = r) ∨ ∃ a ∈ p.mod.arrives, a.taskID = r := by
  simp [Prepared.origins]

theorem Satisfiable.fits (hs : Satisfiable s mod now) : (modPrep s mod false).Fits s where
  deletes r hr := (hs.deletes r hr).1
  depends := hs.depends
  changes r hr := by
    rcases (mem_origins r).mp hr with ⟨c, hc, rfl⟩ | ⟨a, ha, rfl⟩
    · exact (hs.changes c hc).1
    · exact (hs.arrives a ha).1
  inserts ins hi t ht := by
    rw [hs.inserts ins hi] at ht
    cases ht

/-- The checks find nothing exactly if every operation can be made. -/
theorem passes_iff_satisfiable (h : Invariant s) (hp : (modPrep s mod false).Proper) :
    (modPrep s mod false).Passes s now false ↔ Satisfiable s mod now := by
  have hdocs := @docsPass_iff s mod now h (fun d hd => (hp.docInserts d hd).1)
  constructor
  · intro hpass
    have hfits := hpass.fits hp h.indexed
    have hany := hpass ((modPrep s mod false).taskFailures s now) (by simp [Prepared.failures])
    obtain ⟨c1, c2⟩ := (claims_nil_iff h.indexed hp).mp
      (((DependencyError.hasAny_eq_false_iff _).mp hany).1 .claims)
    obtain ⟨d1, d2, d3, d4, d5⟩ := hdocs.mp (hpass.docsPass hp h.toSound)
    have hchg : ∀ c ∈ mod.changes, c.origin ∈ (modPrep s mod false).origins :=
      fun c hc => (mem_origins _).mpr (.inl ⟨c, hc, rfl⟩)
    have harr : ∀ a ∈ mod.arrives, a.taskID ∈ (modPrep s mod false).origins :=
      fun a ha => (mem_origins _).mpr (.inr ⟨a, ha, rfl⟩)
    exact
      { inserts := Prepared.fresh_of_fits h.indexed hp hfits
        changes := fun c hc => ⟨hfits.changes _ (hchg c hc), c2 _ (hchg c hc)⟩
        deletes := fun r hr => ⟨hfits.deletes r hr, c1 r hr⟩
        arrives := fun a ha => ⟨hfits.changes _ (harr a ha), c2 _ (harr a ha)⟩
        depends := hfits.depends
        docInserts := d1
        docChanges := d2
        docDeletes := d3
        docDepends := d4
        docArrives := d5 }
  · intro hs x hx
    change x.hasAny = false
    simp only [Prepared.failures, List.mem_cons, List.not_mem_nil, or_false] at hx
    rcases hx with rfl | rfl | rfl
    · rw [DependencyError.hasAny_eq_false_iff]
      refine ⟨fun c => List.eq_nil_iff_forall_not_mem.mpr fun r hr => ?_, queueDeps_docs⟩
      obtain ⟨hw, hm⟩ := queueDeps_tasks c r hr
      apply not_hasTask_of_wrong h.indexed hw
      cases c with
      | deletes => exact (hs.deletes r hm).1
      | depends => exact hs.depends r hm
      | changes =>
        obtain ⟨c, hc, rfl⟩ := List.mem_map.mp hm
        exact (hs.changes c hc).1
      | inserts => exact hm.elim
      | claims => exact hm.elim
      | arrives => exact hm.elim
    · have honly := (DependencyError.onlyClaims_iff _).mp
        ((hp.covers.fits_iff now h.indexed hp.once).mpr hs.fits)
      rw [DependencyError.hasAny_eq_false_iff]
      refine ⟨fun c => ?_, fun c => Prepared.taskFailures_docs now c⟩
      by_cases hc : c = .claims
      · subst hc
        refine (claims_nil_iff h.indexed hp).mpr ⟨fun r hr => (hs.deletes r hr).2, fun o ho => ?_⟩
        rcases (mem_origins o).mp ho with ⟨c, hc, rfl⟩ | ⟨a, ha, rfl⟩
        · exact (hs.changes c hc).2
        · exact (hs.arrives a ha).2
      · exact honly.1 c hc
    · exact (hp.docFailures_hasAny now h.docs h.docIDs).mpr (hdocs.mpr
        ⟨hs.docInserts, hs.docChanges, hs.docDeletes, hs.docDepends, hs.docArrives⟩)

end Tasks
end EntroQ.Eqmem
