import EntroQ.Eqmem.Exact

/-! # What a failed `Modify` reports

The error of a modification that fails names, class by class, the operations that fail: no
others, and none of them is left out. -/

namespace EntroQ

def Modification.written (mod : Modification) : List TaskID :=
  mod.deletes ++ mod.changes.map TaskChange.origin ++ mod.arrives.map TaskArrival.taskID

/-- The tasks that are changed, arrivals among them. -/
def Modification.moved (mod : Modification) : List TaskID :=
  mod.changes.map TaskChange.origin ++ mod.arrives.map TaskArrival.taskID

namespace Eqmem
open Foundation Docset

/-- An operation that nothing but the holder of its set stops: the set, and the doc it names. -/
inductive Stops (s : EQMem) (mod : Modification) (now : Time) :
    SetName → Option (String × String) → Prop
  | insert (d : DocData) (hd : d ∈ mod.docInserts) (free : ∀ o, ¬s.Collision d o)
      (held : s.SetHeld mod.claimant now ⟨d.ns, d.key⟩) :
      Stops s mod now ⟨d.ns, d.key⟩ (some (d.ns, d.id))
  | change (c : DocChange) (hc : c ∈ mod.docChanges) (d : Doc)
      (has : s.HasDoc mod c.doc.ns c.doc.id c.doc.version d)
      (held : s.SetHeld mod.claimant now ⟨d.ns, d.key⟩) :
      Stops s mod now ⟨d.ns, d.key⟩ (some (c.doc.ns, c.doc.id))
  | delete (r : DocID) (hr : r ∈ mod.docDeletes) (d : Doc)
      (has : s.HasDoc mod r.ns r.id r.version d)
      (held : s.SetHeld mod.claimant now ⟨d.ns, d.key⟩) :
      Stops s mod now ⟨d.ns, d.key⟩ (some (r.ns, r.id))
  | arrive (a : DocArrival) (ha : a ∈ mod.docArrives) (has : AtLock s.lockOf a.docID)
      (held : s.SetHeld mod.claimant now ⟨a.docID.ns, a.docID.key⟩) :
      Stops s mod now ⟨a.docID.ns, a.docID.key⟩ none

/-- The error names exactly the operations that fail. Tasks to be written are named by ID and
version, and arrivals of tasks among the changes they become; a doc in the way of an insert is named
itself; a set someone else holds is named by a set reference, beside the docs of the operations it
stops. -/
structure Reports (s : EQMem) (mod : Modification) (now : Time) (e : DependencyError) :
    Prop where
  inserts : ∀ r, r ∈ e.inserts ↔ ∃ ins ∈ mod.inserts, ∃ t, s.task ins.id = some t ∧ t.idVersion = r
  deletes : ∀ r, r ∈ e.deletes ↔ r ∈ mod.deletes ∧ ¬s.HasTask r
  depends : ∀ r, r ∈ e.depends ↔ r ∈ mod.depends ∧ ¬s.HasTask r
  changes : ∀ id version, (∃ r ∈ e.changes, r.id = id ∧ r.version = version) ↔
    ∃ r ∈ mod.moved, r.id = id ∧ r.version = version ∧ ¬s.HasTask r
  arrives : e.arrives = []
  claims : ∀ id version, (∃ r ∈ e.claims, r.id = id ∧ r.version = version) ↔
    ∃ r ∈ mod.written, r.id = id ∧ r.version = version ∧ s.HeldByOther mod.claimant now r
  docInserts : ∀ name, (∃ r ∈ e.docInserts, r.name = name) ↔
    ∃ d ∈ mod.docInserts, ∃ o, s.Collision d o ∧ (o.ns, o.id, "") = name
  docChanges : ∀ r, r ∈ e.docChanges ↔ ∃ c ∈ mod.docChanges,
    newDocID c.doc.ns c.doc.id c.doc.version = r ∧
      ∀ d, ¬s.HasDoc mod c.doc.ns c.doc.id c.doc.version d
  docDeletes : ∀ r, r ∈ e.docDeletes ↔
    r ∈ mod.docDeletes ∧ ∀ d, ¬s.HasDoc mod r.ns r.id r.version d
  docDepends : ∀ r, r ∈ e.docDepends ↔ r ∈ mod.docDepends ∧ ¬s.HasDepend mod r
  docArrives : ∀ r, r ∈ e.docArrives ↔ ∃ a ∈ mod.docArrives,
    ref ⟨a.docID.ns, a.docID.key⟩ (s.lockOf ⟨a.docID.ns, a.docID.key⟩) = r ∧
      ¬AtLock s.lockOf a.docID
  docClaims : ∀ name, (∃ r ∈ e.docClaims, r.name = name) ↔ ∃ g own, Stops s mod now g own ∧
    (name = (g.ns, "", g.key) ∨ ∃ q, own = some q ∧ name = (q.1, q.2, ""))

section Docs
variable {s : EQMem} {mod : Modification} {now : Time}

theorem Collision.unique {d : DocData} {o o' : Doc} (h : s.Collision d o) (h' : s.Collision d o') :
    o = o' := by
  rcases h with h | ⟨h, h1⟩ <;> rcases h' with h' | ⟨h', h1'⟩
  · exact Option.some.inj (h.symm.trans h')
  · rw [h] at h'
    cases h'
  · rw [h] at h'
    cases h'
  · exact Option.some.inj (h1.symm.trans h1')

/-- What an error may name among the failures of docs, by the tables. -/
def DocFailure (s : EQMem) (mod : Modification) (now : Time) : DocClass → DocID → Prop
  | .inserts, r => ∃ d ∈ mod.docInserts, ∃ o, s.Collision d o ∧ (o.ns, o.id, "") = r.name
  | .changes, r => ∃ c ∈ mod.docChanges, newDocID c.doc.ns c.doc.id c.doc.version = r ∧
      ∀ d, ¬s.HasDoc mod c.doc.ns c.doc.id c.doc.version d
  | .deletes, r => r ∈ mod.docDeletes ∧ ∀ d, ¬s.HasDoc mod r.ns r.id r.version d
  | .depends, r => r ∈ mod.docDepends ∧ ¬s.HasDepend mod r
  | .arrives, r => ∃ a ∈ mod.docArrives,
      ref ⟨a.docID.ns, a.docID.key⟩ (s.lockOf ⟨a.docID.ns, a.docID.key⟩) = r ∧
        ¬AtLock s.lockOf a.docID
  | .claims, r => ∃ g own, Stops s mod now g own ∧
      (r.name = (g.ns, "", g.key) ∨ ∃ q, own = some q ∧ r.name = (q.1, q.2, ""))

theorem Stops.docFailure {g : SetName} {named : Option DocID} {c : DocClass} {r : DocID}
    (hs : Stops s mod now g (named.map fun r => (r.ns, r.id)))
    (hkey : ∀ r, named = some r → r.key = "")
    (hf : (Outcome.heldByOther g named).Fails s.lockOf c r) : DocFailure s mod now c r := by
  cases c with
  | claims =>
    refine ⟨g, _, hs, ?_⟩
    rcases hf with rfl | rfl
    · exact .inl rfl
    · exact .inr ⟨(r.ns, r.id), rfl, by rw [DocID.name, hkey r rfl]⟩
  | _ => exact hf.elim

/-- What becomes of each doc operation, by the tables. -/
theorem docFailure_of_fails (h : Invariant s) (hids : ∀ d ∈ mod.docInserts, d.id ≠ "")
    (hkeys : ∀ r ∈ mod.docDeletes, r.key = "") {op : DocOp} (hop : op ∈ mod.docOps) {c : DocClass}
    {r : DocID} (hf : (s.docVerdict mod now op).Fails s.lockOf c r) :
    DocFailure s mod now c r := by
  simp only [Modification.docOps, List.mem_append, List.mem_map] at hop
  rcases hop with (((⟨d, hd, rfl⟩ | ⟨ch, hc, rfl⟩) | ⟨r', hr, rfl⟩) | ⟨r', hr, rfl⟩) | ⟨a, ha, rfl⟩
  · rcases @docVerdict_insert s mod now h d (hids d hd) with ⟨o, ho, v, he⟩ | ⟨hno, he⟩ <;>
      rw [he] at hf
    · cases c <;> cases hf
      exact ⟨d, hd, o, ho, rfl⟩
    · split_ifs at hf with hh
      · exact Stops.docFailure (.insert d hd hno ((s.heldByOther_iff _ _ _).mp hh))
          (fun r hr => by cases hr; rfl) hf
      · exact hf.elim
  · rw [EQMem.docVerdict, outcome] at hf
    rcases @changeOutcome_cases mod now (fun ns id => s.docAt (ns, id)) s.lockOf ch with
      ⟨d, hd, he⟩ | ⟨hno, he⟩ <;> rw [he] at hf
    · split_ifs at hf with hh
      · exact Stops.docFailure (.change ch hc d hd ((s.heldByOther_iff _ _ _).mp hh))
          (fun r hr => by cases hr; rfl) hf
      · exact hf.elim
    · cases c <;> cases hf
      exact ⟨ch, hc, rfl, hno⟩
  · rw [EQMem.docVerdict, outcome] at hf
    rcases @deleteOutcome_cases mod now (fun ns id => s.docAt (ns, id)) s.lockOf r' with
      ⟨d, hd, he⟩ | ⟨hno, he⟩ <;> rw [he] at hf
    · split_ifs at hf with hh
      · exact Stops.docFailure (.delete r' hr d hd ((s.heldByOther_iff _ _ _).mp hh))
          (fun r hr' => by cases hr'; exact hkeys _ hr) hf
      · exact hf.elim
    · cases c <;> cases hf
      exact ⟨hr, hno⟩
  · rw [EQMem.docVerdict, outcome] at hf
    rcases @dependOutcome_cases mod (fun ns id => s.docAt (ns, id)) s.lockOf r' with
      ⟨hd, he⟩ | ⟨hno, he⟩ <;> rw [he] at hf
    · exact hf.elim
    · cases c <;> cases hf
      exact ⟨hr, hno⟩
  · rw [EQMem.docVerdict, outcome] at hf
    rcases @arriveOutcome_cases mod now s.lockOf a with ⟨hd, he⟩ | ⟨hno, he⟩ <;> rw [he] at hf
    · split_ifs at hf with hh
      · exact Stops.docFailure (.arrive a ha hd ((s.heldByOther_iff _ _ _).mp hh))
          (fun r hr => by cases hr) hf
      · exact hf.elim
    · cases c <;> cases hf
      exact ⟨a, ha, rfl, hno⟩

theorem docVerdict_of_stops (h : Invariant s) (hids : ∀ d ∈ mod.docInserts, d.id ≠ "")
    (hkeys : ∀ r ∈ mod.docDeletes, r.key = "") {g : SetName} {own : Option (String × String)}
    (hs : Stops s mod now g own) :
    ∃ op ∈ mod.docOps, ∃ named, s.docVerdict mod now op = .heldByOther g named ∧
      named.map (fun r => (r.ns, r.id)) = own ∧ ∀ r, named = some r → r.key = "" := by
  cases hs with
  | insert d hd free held =>
    refine ⟨.insert d, by simp [Modification.docOps, hd], ?_⟩
    rcases @docVerdict_insert s mod now h d (hids d hd) with ⟨o, ho, -⟩ | ⟨-, he⟩
    · exact absurd ho (free o)
    · rw [if_pos ((s.heldByOther_iff _ _ _).mpr held)] at he
      exact ⟨_, he, rfl, fun r hr => by cases hr; rfl⟩
  | change c hc d has held =>
    refine ⟨.change c, by simp [Modification.docOps, hc], ?_⟩
    rw [EQMem.docVerdict, outcome]
    rcases @changeOutcome_cases mod now (fun ns id => s.docAt (ns, id)) s.lockOf c with
      ⟨d', hd', he⟩ | ⟨hno, -⟩
    · rw [Option.some.inj (hd'.1.symm.trans has.1),
        if_pos ((s.heldByOther_iff _ _ _).mpr held)] at he
      exact ⟨_, he, rfl, fun r hr => by cases hr; rfl⟩
    · exact absurd has (hno d)
  | delete r hr d has held =>
    refine ⟨.delete r, by simp [Modification.docOps, hr], ?_⟩
    rw [EQMem.docVerdict, outcome]
    rcases @deleteOutcome_cases mod now (fun ns id => s.docAt (ns, id)) s.lockOf r with
      ⟨d', hd', he⟩ | ⟨hno, -⟩
    · rw [Option.some.inj (hd'.1.symm.trans has.1),
        if_pos ((s.heldByOther_iff _ _ _).mpr held)] at he
      exact ⟨_, he, rfl, fun r' hr' => by cases hr'; exact hkeys r hr⟩
    · exact absurd has (hno d)
  | arrive a ha has held =>
    refine ⟨.arrive a, by simp [Modification.docOps, ha], ?_⟩
    rw [EQMem.docVerdict, outcome]
    rcases @arriveOutcome_cases mod now s.lockOf a with ⟨-, he⟩ | ⟨hno, -⟩
    · rw [if_pos ((s.heldByOther_iff _ _ _).mpr held)] at he
      exact ⟨_, he, rfl, fun r hr => by cases hr⟩
    · exact absurd has hno

def docWalk (s : EQMem) (mod : Modification) (now : Time) : DependencyError :=
  (recordAll now s.lockOf (mod.docOps.map (s.docVerdict mod now))).depErr

theorem mem_docWalk (c : DocClass) (r : DocID) : r ∈ (docWalk s mod now).docs c ↔
    ∃ op ∈ mod.docOps, (s.docVerdict mod now op).Fails s.lockOf c r := by
  rw [docWalk, mem_recordAll_docs]
  simp

section Walk
variable (h : Invariant s) (hids : ∀ d ∈ mod.docInserts, d.id ≠ "")
  (hkeys : ∀ r ∈ mod.docDeletes, r.key = "")
include h hids hkeys

theorem docFailure_of_walk {c : DocClass} {r : DocID} (hr : r ∈ (docWalk s mod now).docs c) :
    DocFailure s mod now c r := by
  obtain ⟨op, hop, hf⟩ := (mem_docWalk c r).mp hr
  exact docFailure_of_fails h hids hkeys hop hf

theorem docWalk_inserts (name : String × String × String) :
    (∃ r ∈ (docWalk s mod now).docInserts, r.name = name) ↔
      ∃ d ∈ mod.docInserts, ∃ o, s.Collision d o ∧ (o.ns, o.id, "") = name := by
  constructor
  · rintro ⟨r, hr, rfl⟩
    exact docFailure_of_walk h hids hkeys (c := .inserts) hr
  · rintro ⟨d, hd, o, ho, rfl⟩
    rcases @docVerdict_insert s mod now h d (hids d hd) with ⟨o', ho', v, he⟩ | ⟨hno, -⟩
    · refine ⟨newDocID o'.ns o'.id v, ?_, by rw [Collision.unique ho ho']; rfl⟩
      apply (mem_docWalk .inserts _).mpr
      exact ⟨.insert d, by simp [Modification.docOps, hd], by rw [he]; rfl⟩
    · exact absurd ho (hno o)

theorem docWalk_changes (r : DocID) :
    r ∈ (docWalk s mod now).docChanges ↔ ∃ c ∈ mod.docChanges,
      newDocID c.doc.ns c.doc.id c.doc.version = r ∧
        ∀ d, ¬s.HasDoc mod c.doc.ns c.doc.id c.doc.version d := by
  refine ⟨docFailure_of_walk h hids hkeys (c := .changes), ?_⟩
  rintro ⟨c, hc, rfl, hno⟩
  refine (mem_docWalk .changes _).mpr ⟨.change c, by simp [Modification.docOps, hc], ?_⟩
  rw [EQMem.docVerdict, outcome]
  rcases @changeOutcome_cases mod now (fun ns id => s.docAt (ns, id)) s.lockOf c with
    ⟨d, hd, -⟩ | ⟨-, he⟩
  · exact absurd hd (hno d)
  · rw [he]
    rfl

theorem docWalk_deletes (r : DocID) :
    r ∈ (docWalk s mod now).docDeletes ↔
      r ∈ mod.docDeletes ∧ ∀ d, ¬s.HasDoc mod r.ns r.id r.version d := by
  refine ⟨docFailure_of_walk h hids hkeys (c := .deletes), ?_⟩
  rintro ⟨hr, hno⟩
  refine (mem_docWalk .deletes r).mpr ⟨.delete r, by simp [Modification.docOps, hr], ?_⟩
  rw [EQMem.docVerdict, outcome]
  rcases @deleteOutcome_cases mod now (fun ns id => s.docAt (ns, id)) s.lockOf r with
    ⟨d, hd, -⟩ | ⟨-, he⟩
  · exact absurd hd (hno d)
  · rw [he]
    rfl

theorem docWalk_depends (r : DocID) :
    r ∈ (docWalk s mod now).docDepends ↔ r ∈ mod.docDepends ∧ ¬s.HasDepend mod r := by
  refine ⟨docFailure_of_walk h hids hkeys (c := .depends), ?_⟩
  rintro ⟨hr, hno⟩
  refine (mem_docWalk .depends r).mpr ⟨.depend r, by simp [Modification.docOps, hr], ?_⟩
  rw [EQMem.docVerdict, outcome]
  rcases @dependOutcome_cases mod (fun ns id => s.docAt (ns, id)) s.lockOf r with
    ⟨hd, -⟩ | ⟨-, he⟩
  · exact absurd hd hno
  · rw [he]
    rfl

theorem docWalk_arrives (r : DocID) :
    r ∈ (docWalk s mod now).docArrives ↔ ∃ a ∈ mod.docArrives,
      ref ⟨a.docID.ns, a.docID.key⟩ (s.lockOf ⟨a.docID.ns, a.docID.key⟩) = r ∧
        ¬AtLock s.lockOf a.docID := by
  refine ⟨docFailure_of_walk h hids hkeys (c := .arrives), ?_⟩
  rintro ⟨a, ha, rfl, hno⟩
  refine (mem_docWalk .arrives _).mpr ⟨.arrive a, by simp [Modification.docOps, ha], ?_⟩
  rw [EQMem.docVerdict, outcome]
  rcases @arriveOutcome_cases mod now s.lockOf a with ⟨hd, -⟩ | ⟨-, he⟩
  · exact absurd hd hno
  · rw [he]
    rfl

theorem docWalk_claims (name : String × String × String) :
    (∃ r ∈ (docWalk s mod now).docClaims, r.name = name) ↔ ∃ g own, Stops s mod now g own ∧
      (name = (g.ns, "", g.key) ∨ ∃ q, own = some q ∧ name = (q.1, q.2, "")) := by
  constructor
  · rintro ⟨r, hr, rfl⟩
    exact docFailure_of_walk h hids hkeys (c := .claims) hr
  · rintro ⟨g, own, hs, hor⟩
    obtain ⟨op, hop, named, hv, hown, hkey⟩ := docVerdict_of_stops h hids hkeys hs
    have hmem (r : DocID) (hr : r = ref g (s.lockOf g) ∨ named = some r) :
        r ∈ (docWalk s mod now).docClaims :=
      (mem_docWalk .claims r).mpr ⟨op, hop, by rw [hv]; exact hr⟩
    rcases hor with rfl | ⟨q, hq, rfl⟩
    · exact ⟨_, hmem _ (.inl rfl), rfl⟩
    · rw [hq, Option.map_eq_some_iff] at hown
      obtain ⟨r, hr, rfl⟩ := hown
      exact ⟨r, hmem r (.inr hr), by rw [DocID.name, hkey r hr]⟩

end Walk
end Docs
/-! ## The whole error -/

section Whole
variable {s : EQMem} {mod : Modification} {now : Time}

theorem failures_docs (h : Invariant s) (hp : (modPrep s mod false).Proper) (c : DocClass)
    (r : DocID) :
    (∃ x ∈ (modPrep s mod false).failures s now false, r ∈ x.docs c) ↔
      r ∈ (docWalk s mod now).docs c := by
  have hwalk : ((modPrep s mod false).docFailures s now false).docs c =
      (docWalk s mod now).docs c := by
    unfold Prepared.docFailures
    rw [hp.docPlan_eq now h.docs h.docIDs, evaluate_err_eq, DependencyError.reported_docs]
    rfl
  simp only [Prepared.failures, List.mem_cons, List.not_mem_nil, or_false, exists_eq_or_imp,
    exists_eq_left, hwalk, queueDeps_docs, Prepared.taskFailures_docs, false_or]

theorem failures_tasks (h : Invariant s) (hp : (modPrep s mod false).Proper) (c : TaskClass)
    (r : TaskID) :
    (∃ x ∈ (modPrep s mod false).failures s now false, r ∈ x.tasks c) ↔
      r ∈ ((modPrep s mod false).queueDeps.getD {}).tasks c ∨
        r ∈ ((modPrep s mod false).taskFailures s now).tasks c := by
  simp only [Prepared.failures, List.mem_cons, List.not_mem_nil, or_false, exists_eq_or_imp,
    exists_eq_left, docFailures_tasks h.toSound hp]

theorem written_nodup (hp : (modPrep s mod false).Proper) :
    (mod.written.map TaskID.id).Nodup := by
  refine List.Nodup.sublist ?_ hp.once
  simp only [Modification.written, Prepared.taskIDs, List.map_append, List.map_map,
    List.append_assoc, modPrep_mod]
  apply List.Sublist.append_left
  refine List.Sublist.trans ?_ (List.sublist_append_right _ _)
  rw [← List.append_assoc]
  exact List.sublist_append_left _ _

theorem origins_nodup (hp : (modPrep s mod false).Proper) :
    ((modPrep s mod false).origins.map TaskID.id).Nodup := by
  have h := written_nodup hp
  rw [Modification.written, List.append_assoc, List.map_append] at h
  exact h.of_append_right

section Tasks
variable {e : DependencyError} (h : Invariant s) (hp : (modPrep s mod false).Proper)
  (hcol : e.Collects ((modPrep s mod false).failures s now false))
include h hp hcol

theorem reports_inserts (r : TaskID) : r ∈ e.inserts ↔
    ∃ ins ∈ mod.inserts, ∃ t, s.task ins.id = some t ∧ t.idVersion = r := by
  refine hcol.mem_tasks (c := .inserts)
    (P := fun r => ∃ ins ∈ mod.inserts, ∃ t, s.task ins.id = some t ∧ t.idVersion = r)
    (fun r => ?_) ?_ r
  · rw [failures_tasks h hp]
    constructor
    · rintro (hr | hr)
      · exact (queueDeps_tasks .inserts r hr).2.elim
      · obtain ⟨ins, hi, t, ht, -, rfl⟩ :=
          (hp.covers.taskFailures_inserts now h.indexed hp.once r).mp hr
        exact ⟨ins, hi, t, ht, rfl⟩
    · rintro ⟨ins, hi, t, ht, rfl⟩
      exact .inr ((hp.covers.taskFailures_inserts now h.indexed hp.once _).mpr
        ⟨ins, hi, t, ht, Prepared.modPrep_seen h.indexed hp ins hi t ht, rfl⟩)
  · rintro r r' ⟨ins, -, t, ht, rfl⟩ ⟨ins', -, t', ht', rfl⟩ hid
    change t.id = t'.id at hid
    rw [(h.indexed.task_named ht).1, (h.indexed.task_named ht').1] at hid
    rw [hid, ht'] at ht
    cases ht
    rfl

/-- Deletes and dependencies are reported as they are named. -/
theorem reports_named {c : TaskClass} {l : List TaskID} (hn : (l.map TaskID.id).Nodup)
    (hqueue : ∀ r ∈ ((modPrep s mod false).queueDeps.getD {}).tasks c, r ∈ l)
    (hfail : ∀ r, r ∈ ((modPrep s mod false).taskFailures s now).tasks c ↔ r ∈ l ∧ ¬s.HasTask r)
    (r : TaskID) : r ∈ e.tasks c ↔ r ∈ l ∧ ¬s.HasTask r := by
  refine hcol.mem_tasks (P := fun r => r ∈ l ∧ ¬s.HasTask r) (fun r => ?_)
    (fun r r' hr hr' hid => List.inj_on_of_nodup_map hn hr.1 hr'.1 hid) r
  rw [failures_tasks h hp, hfail, or_iff_right_iff_imp]
  intro hr
  exact ⟨hqueue r hr, not_hasTask_of_wrong h.indexed (queueDeps_tasks c r hr).1⟩

theorem reports_deletes (r : TaskID) : r ∈ e.deletes ↔ r ∈ mod.deletes ∧ ¬s.HasTask r := by
  have hn := written_nodup hp
  rw [Modification.written, List.append_assoc, List.map_append] at hn
  exact reports_named h hp hcol (c := .deletes) hn.of_append_left
    (fun r hr => (queueDeps_tasks .deletes r hr).2)
    (hp.covers.taskFailures_deletes now h.indexed hp.once) r

theorem reports_depends (r : TaskID) : r ∈ e.depends ↔ r ∈ mod.depends ∧ ¬s.HasTask r := by
  have hn := hp.once
  simp only [Prepared.taskIDs, List.append_assoc, modPrep_mod] at hn
  exact reports_named h hp hcol (c := .depends) hn.of_append_right.of_append_left
    (fun r hr => (queueDeps_tasks .depends r hr).2)
    (hp.covers.taskFailures_depends now h.indexed hp.once) r

/-- Changes and arrivals are reported together. -/
theorem reports_origins (id : String) (version : Int32) :
    (∃ r ∈ e.changes, r.id = id ∧ r.version = version) ↔
      ∃ r ∈ mod.moved, r.id = id ∧ r.version = version ∧ ¬s.HasTask r := by
  refine hcol.named_tasks (c := .changes) (origins_nodup hp) (fun r hr => ?_)
    (fun o ho hbad => ?_) id version
  · rcases (failures_tasks h hp .changes r).mp hr with hr | hr
    · obtain ⟨hw, hm⟩ := queueDeps_tasks .changes r hr
      exact ⟨r, List.mem_append_left _ hm, rfl, rfl, not_hasTask_of_wrong h.indexed hw⟩
    · obtain ⟨o, ho, rfl, hbad⟩ := (hp.covers.taskFailures_changes now h.indexed hp.once r).mp hr
      exact ⟨o, ho, rfl, rfl, hbad⟩
  · refine ⟨(modPrep s mod false).taskFailures s now, by simp [Prepared.failures],
      Prepared.unplaced o, ?_, rfl⟩
    exact (hp.covers.taskFailures_changes now h.indexed hp.once _).mpr ⟨o, ho, rfl, hbad⟩

theorem reports_claims (id : String) (version : Int32) :
    (∃ r ∈ e.claims, r.id = id ∧ r.version = version) ↔
      ∃ r ∈ mod.written, r.id = id ∧ r.version = version ∧
        s.HeldByOther mod.claimant now r := by
  have hclaims := hp.covers.taskFailures_claims now h.indexed hp.once
  have hmem : ∀ o, o ∈ mod.written ↔ o ∈ mod.deletes ∨ o ∈ (modPrep s mod false).origins := by
    intro o
    rw [Modification.written, List.append_assoc, List.mem_append]
    rfl
  refine hcol.named_tasks (c := .claims) (written_nodup hp) (fun r hr => ?_)
    (fun o ho hbad => ?_) id version
  · rcases (failures_tasks h hp .claims r).mp hr with hr | hr
    · exact (queueDeps_tasks .claims r hr).2.elim
    · rcases (hclaims r).mp hr with ⟨hm, hheld⟩ | ⟨o, ho, rfl, hheld⟩
      · exact ⟨r, (hmem r).mpr (.inl hm), rfl, rfl, hheld⟩
      · exact ⟨o, (hmem o).mpr (.inr ho), rfl, rfl, hheld⟩
  · refine ⟨(modPrep s mod false).taskFailures s now, by simp [Prepared.failures], ?_⟩
    rcases (hmem o).mp ho with hm | hm
    · exact ⟨o, (hclaims o).mpr (.inl ⟨hm, hbad⟩), rfl⟩
    · exact ⟨Prepared.unplaced o, (hclaims _).mpr (.inr ⟨o, hm, rfl, hbad⟩), rfl⟩

theorem reports_noArrives : e.arrives = [] := by
  refine List.eq_nil_iff_forall_not_mem.mpr fun r hr => ?_
  rcases (failures_tasks h hp .arrives r).mp (hcol.tasks .arrives r hr) with hr | hr
  · exact (queueDeps_tasks .arrives r hr).2
  · cases hr

end Tasks

/-- Doc operations of one kind that are named alike are one operation. -/
theorem docRefs_inj (hp : (modPrep s mod false).Proper) {α : Type} {l : List α}
    {f : α → String × String} (hl : (l.map f).Sublist (modPrep s mod false).docRefs) {x y : α}
    (hx : x ∈ l) (hy : y ∈ l) (h1 : (f x).1 = (f y).1) (h2 : (f x).2 = (f y).2) : x = y := by
  have hn := List.Nodup.sublist (hl.map (fun r => docKey r.1 r.2)) hp.docOnce
  rw [List.map_map] at hn
  refine List.inj_on_of_nodup_map hn hx hy ?_
  change docKey (f x).1 (f x).2 = docKey (f y).1 (f y).2
  rw [h1, h2]

section Docs
variable {e : DependencyError} (h : Invariant s) (hp : (modPrep s mod false).Proper)
  (hcol : e.Collects ((modPrep s mod false).failures s now false))
include h hp hcol

theorem reports_names (c : DocClass) (name : String × String × String) :
    (∃ r ∈ e.docs c, r.name = name) ↔ ∃ r ∈ (docWalk s mod now).docs c, r.name = name := by
  refine (hcol.names_docs c name).trans ?_
  constructor
  · rintro ⟨x, hx, r, hr, hn⟩
    exact ⟨r, (failures_docs h hp c r).mp ⟨x, hx, hr⟩, hn⟩
  · rintro ⟨r, hr, hn⟩
    obtain ⟨x, hx, hr⟩ := (failures_docs h hp c r).mpr hr
    exact ⟨x, hx, r, hr, hn⟩

theorem reports_refs {c : DocClass} {l : List DocID} {P : DocID → Prop}
    (hl : (l.map fun r => (r.ns, r.id)).Sublist (modPrep s mod false).docRefs)
    (hwalk : ∀ r, r ∈ (docWalk s mod now).docs c ↔ r ∈ l ∧ P r) (r : DocID) :
    r ∈ e.docs c ↔ r ∈ l ∧ P r := by
  refine hcol.mem_docs (fun r => (failures_docs h hp c r).trans (hwalk r)) ?_ r
  rintro r r' ⟨hr, -⟩ ⟨hr', -⟩ hn
  exact docRefs_inj hp hl hr hr' (DocID.name_inj hn).1 (DocID.name_inj hn).2.1

variable (hids : ∀ d ∈ mod.docInserts, d.id ≠ "") (hkeys : ∀ r ∈ mod.docDeletes, r.key = "")
include hids hkeys

theorem reports_docChanges (r : DocID) : r ∈ e.docChanges ↔ ∃ c ∈ mod.docChanges,
    newDocID c.doc.ns c.doc.id c.doc.version = r ∧
      ∀ d, ¬s.HasDoc mod c.doc.ns c.doc.id c.doc.version d := by
  refine hcol.mem_docs (c := .changes) (fun r => (failures_docs h hp .changes r).trans
    (docWalk_changes h hids hkeys r)) ?_ r
  rintro r r' ⟨c, hc, rfl, -⟩ ⟨c', hc', rfl, -⟩ hn
  have : c = c' := docRefs_inj hp (f := fun c => (c.doc.ns, c.doc.id))
    ((List.sublist_append_right _ _).trans (List.sublist_append_left _ _)) hc hc'
    (DocID.name_inj hn).1 (DocID.name_inj hn).2.1
  rw [this]

theorem reports_docDeletes (r : DocID) : r ∈ e.docDeletes ↔
    r ∈ mod.docDeletes ∧ ∀ d, ¬s.HasDoc mod r.ns r.id r.version d :=
  reports_refs h hp hcol (c := .deletes)
    (((List.sublist_append_left _ _).trans (List.sublist_append_left _ _)).trans
      (List.sublist_append_left _ _)) (docWalk_deletes h hids hkeys) r

theorem reports_docDepends (r : DocID) :
    r ∈ e.docDepends ↔ r ∈ mod.docDepends ∧ ¬s.HasDepend mod r :=
  reports_refs h hp hcol (c := .depends)
    (((List.sublist_append_right _ _).trans (List.sublist_append_left _ _)).trans
      (List.sublist_append_left _ _)) (docWalk_depends h hids hkeys) r

theorem reports_docArrives (r : DocID) : r ∈ e.docArrives ↔ ∃ a ∈ mod.docArrives,
    ref ⟨a.docID.ns, a.docID.key⟩ (s.lockOf ⟨a.docID.ns, a.docID.key⟩) = r ∧
      ¬AtLock s.lockOf a.docID := by
  refine hcol.mem_docs (c := .arrives) (fun r => (failures_docs h hp .arrives r).trans
    (docWalk_arrives h hids hkeys r)) ?_ r
  rintro r r' ⟨a, -, rfl, -⟩ ⟨a', -, rfl, -⟩ hn
  have hset : (⟨a.docID.ns, a.docID.key⟩ : SetName) = ⟨a'.docID.ns, a'.docID.key⟩ := by
    rw [SetName.mk.injEq]
    exact ⟨(DocID.name_inj hn).1, (DocID.name_inj hn).2.2⟩
  rw [hset]

end Docs

theorem reports_of_depErr (h : Invariant s) (hp : (modPrep s mod false).Proper)
    (hkeys : ∀ r ∈ mod.docDeletes, r.key = "") {e : DependencyError}
    (he : (modPrep s mod false).depErr s now false = some e) : Reports s mod now e := by
  have hcol : e.Collects ((modPrep s mod false).failures s now false) := by
    have := (modPrep s mod false).depErr_collects s now false
    rwa [he] at this
  have hids : ∀ d ∈ mod.docInserts, d.id ≠ "" := fun d hd => (hp.docInserts d hd).1
  exact
    { inserts := reports_inserts h hp hcol
      deletes := reports_deletes h hp hcol
      depends := reports_depends h hp hcol
      changes := reports_origins h hp hcol
      arrives := reports_noArrives h hp hcol
      claims := reports_claims h hp hcol
      docInserts := fun name => (reports_names h hp hcol .inserts name).trans
        (docWalk_inserts h hids hkeys name)
      docChanges := reports_docChanges h hp hcol hids hkeys
      docDeletes := reports_docDeletes h hp hcol hids hkeys
      docDepends := reports_docDepends h hp hcol hids hkeys
      docArrives := reports_docArrives h hp hcol hids hkeys
      docClaims := fun name => (reports_names h hp hcol .claims name).trans
        (docWalk_claims h hids hkeys name) }

end Whole

/-! ## Where the verdict is exact -/

/-- The answer is the right one: success for what is satisfiable, and else an error that reports
just what fails, with the store as it was. -/
def Exact (s : EQMem) (mod : Modification) (now : Time) : Prop :=
  match modify s mod now with
  | (_, .ok _) => Satisfiable s mod now
  | (s', .error (.dependency e)) =>
      ¬Satisfiable s mod now ∧ Reports s mod now e ∧ s' = s
  | (_, .error _) => False

/-- Every operation looks for a doc or a set in the namespace without a name. -/
structure Nowhere (mod : Modification) : Prop where
  tasks : mod.inserts = [] ∧ mod.changes = [] ∧ mod.deletes = [] ∧ mod.depends = [] ∧
    mod.arrives = []
  writes : mod.docInserts = [] ∧ mod.docArrives = []
  changes : ∀ c ∈ mod.docChanges, c.doc.ns = ""
  deletes : ∀ r ∈ mod.docDeletes, r.ns = ""
  depends : ∀ r ∈ mod.docDepends, r.ns = ""

section Nowhere
variable {s : EQMem} {mod : Modification} {now : Time}

theorem Nowhere.shortCircuits (h : Nowhere mod) : (modPrep s mod false).shortCircuits = true := by
  obtain ⟨h1, h2, h3, h4, h5⟩ := h.tasks
  have hns : prepNamespaces mod = [] := by
    refine List.eq_nil_iff_forall_not_mem.mpr fun ns hns => ?_
    rw [mem_prepNamespaces, h.writes.1, h.writes.2] at hns
    rcases hns with ⟨hne, ⟨d, hd, -⟩ | ⟨c, hc, rfl⟩ | ⟨r, hr, rfl⟩ | ⟨r, hr, rfl⟩ | ⟨a, ha, -⟩⟩
    · cases hd
    · exact hne (h.changes c hc)
    · exact hne (h.deletes r hr)
    · exact hne (h.depends r hr)
    · cases ha
  have hdeps : ensureModQueues s.qByID mod = none := by
    rw [ensureModQueues, h2, h3, h4]
    rfl
  simp [Prepared.shortCircuits, modPrep, hns, hdeps, prepQueues, h1, h2, h3, h4, h5]

theorem nowhere_of_shortCircuits (hv : mod.Validated)
    (h : (modPrep s mod false).shortCircuits = true) : Nowhere mod := by
  simp only [Prepared.shortCircuits, modPrep, Bool.false_eq_true, if_false, Bool.and_eq_true,
    List.isEmpty_iff] at h
  obtain ⟨⟨⟨⟨-, hq⟩, hns⟩, hdel⟩, hdep⟩ := h
  have hqueue : ∀ q, q ∉ prepQueues s.qByID mod := fun q => by rw [hq]; simp
  simp only [mem_prepQueues, not_and] at hqueue
  have hname : ∀ ns, ns ∉ prepNamespaces mod := fun ns => by rw [hns]; simp
  simp only [mem_prepNamespaces, not_and] at hname
  refine ⟨⟨?_, ?_, hdel, hdep, ?_⟩, ⟨?_, ?_⟩, fun c hc => ?_, fun r hr => ?_, fun r hr => ?_⟩
  · refine List.eq_nil_iff_forall_not_mem.mpr fun t ht => ?_
    exact hqueue t.queue (hv.insertQueue t ht) (.inl ⟨t, ht, .inr rfl⟩)
  · refine List.eq_nil_iff_forall_not_mem.mpr fun c hc => ?_
    exact hqueue c.task.queue (hv.changeQueue c hc) (.inr (.inl ⟨c, hc, .inr rfl⟩))
  · refine List.eq_nil_iff_forall_not_mem.mpr fun a ha => ?_
    exact hqueue a.taskID.queue (hv.arriveQueue a ha) (.inr (.inr (.inr (.inr ⟨a, ha, rfl⟩))))
  · refine List.eq_nil_iff_forall_not_mem.mpr fun d hd => ?_
    exact hname d.ns (hv.docInsertNs d hd) (.inl ⟨d, hd, rfl⟩)
  · refine List.eq_nil_iff_forall_not_mem.mpr fun a ha => ?_
    exact hname a.docID.ns (hv.docArriveSet a ha).2 (.inr (.inr (.inr (.inr ⟨a, ha, rfl⟩))))
  · by_contra hne
    exact hname _ hne (.inr (.inl ⟨c, hc, rfl⟩))
  · by_contra hne
    exact hname _ hne (.inr (.inr (.inl ⟨r, hr, rfl⟩)))
  · by_contra hne
    exact hname _ hne (.inr (.inr (.inr (.inl ⟨r, hr, rfl⟩))))

theorem unlockedSet_iff (hv : mod.Validated) :
    (modPrep s mod false).unlockedSet = true ↔
      ∃ r ∈ mod.docDepends, r.isSetRef = true ∧ r.ns = "" := by
  have hmem : ∀ ns, ns ∈ (modPrep s mod false).namespaces ↔ ns ∈ prepNamespaces mod :=
    fun _ => Iff.rfl
  simp only [Prepared.unlockedSet, Prepared.namedSets, List.any_eq_true, decide_eq_true_eq,
    List.mem_append, List.mem_map, List.mem_filter, hmem, mem_prepNamespaces, modPrep_mod]
  constructor
  · rintro ⟨g, (⟨d, hd, rfl⟩ | ⟨r, ⟨hr, hset⟩, rfl⟩) | ⟨a, ha, rfl⟩, hno⟩
    · exact absurd ⟨hv.docInsertNs d hd, .inl ⟨d, hd, rfl⟩⟩ hno
    · refine ⟨r, hr, hset, ?_⟩
      by_contra hne
      exact hno ⟨hne, .inr (.inr (.inr (.inl ⟨r, hr, rfl⟩)))⟩
    · exact absurd ⟨(hv.docArriveSet a ha).2, .inr (.inr (.inr (.inr ⟨a, ha, rfl⟩)))⟩ hno
  · rintro ⟨r, hr, hset, hns⟩
    exact ⟨⟨r.ns, r.key⟩, .inl (.inr ⟨r, ⟨hr, hset⟩, rfl⟩), fun h => h.1 hns⟩

/-- Nothing is stored in the namespace without a name, so such a modification cannot be made. -/
theorem Nowhere.not_satisfiable (h : Invariant s) (hv : mod.Validated) (hno : Nowhere mod) :
    ¬Satisfiable s mod now := by
  intro hs
  have hdoc : ∀ {ns id version d}, ns = "" → ¬s.HasDoc mod ns id version d :=
    fun hns hd => (h.docs.docAt_named hd.1).2.2 hns
  have hempty := hv.nonempty
  obtain ⟨h1, h2, h3, h4, h5⟩ := hno.tasks
  simp only [Modification.isEmpty, h1, h2, h3, h4, h5, hno.writes.1, hno.writes.2,
    List.isEmpty_nil, Bool.true_and, Bool.and_true, Bool.and_eq_false_iff] at hempty
  rcases hempty with (hne | hne) | hne
  · obtain ⟨c, hc⟩ := List.exists_mem_of_ne_nil _ (by simpa using hne)
    obtain ⟨d, hd, -⟩ := hs.docChanges c hc
    exact hdoc (hno.changes c hc) hd
  · obtain ⟨r, hr⟩ := List.exists_mem_of_ne_nil _ (by simpa using hne)
    obtain ⟨d, hd, -⟩ := hs.docDeletes r hr
    exact hdoc (hno.deletes r hr) hd
  · obtain ⟨r, hr⟩ := List.exists_mem_of_ne_nil _ (by simpa using hne)
    have hd := hs.docDepends r hr
    unfold EQMem.HasDepend DependHolds at hd
    split_ifs at hd
    · have hstored := hd.1
      rw [hno.depends r hr, h.docs.lockOf_nameless] at hstored
      cases hstored
    · obtain ⟨d, hd⟩ := hd
      exact hdoc (hno.depends r hr) hd

theorem modify_commits (h : Invariant s) (hv : Validate.modification mod = none)
    (hid : missingInsertID mod = none)
    (hsets : ∀ r ∈ mod.docDepends, r.isSetRef = true → r.ns ≠ "") (hno : ¬Nowhere mod)
    (hs : Satisfiable s mod now) :
    (modify s mod now).2.isOk = true ∧ (modPrep s mod false).Proper ∧
      Committed (modPrep s mod false) s now (modify s mod now).1 := by
  have hval := Validate.modification_none mod hv
  have hp := Validated.proper hval hid s
  rw [modify_eq hv hid]
  rcases modApply_cases h.toSound hp (Prepared.fresh_of_fits h.indexed hp) now with
    ⟨hshort, -⟩ | ⟨-, hu, -⟩ | ⟨-, -, e, he, -⟩ | ⟨-, -, s', hm, hc⟩
  · exact absurd (nowhere_of_shortCircuits hval hshort) hno
  · obtain ⟨r, hr, hset, hns⟩ := (unlockedSet_iff hval).mp hu
    exact absurd hns (hsets r hr hset)
  · have := ((modPrep s mod false).passes_iff s now false).mpr
      ((passes_iff_satisfiable h hp).mpr hs)
    rw [he] at this
    cases this
  · rw [hm]
    exact ⟨rfl, hp, hc⟩

end Nowhere

/-- `Modify` is exact but for three kinds of modification that the validation lets through: one
with an insert without an ID, which is refused; one that depends on a set of the namespace without
a name, which panics; and one that only looks into that namespace, which succeeds. -/
theorem modify_exact_iff {s : EQMem} (hr : Reachable s) {mod : Modification}
    (hv : Validate.modification mod = none) (now : Time) :
    Exact s mod now ↔ missingInsertID mod = none ∧
      (∀ r ∈ mod.docDepends, r.isSetRef = true → r.ns ≠ "") ∧ ¬Nowhere mod := by
  have h := hr.invariant
  have hval := Validate.modification_none mod hv
  unfold Exact
  cases hid : missingInsertID mod with
  | some f =>
    rw [modify, hv]
    dsimp only
    rw [modifyImpl, hid]
    unfold missingInsertID at hid
    split_ifs at hid <;> cases hid <;> simp
  | none =>
    have hp := Validated.proper hval hid s
    have hnone : (∀ r ∈ mod.docDepends, r.isSetRef = true → r.ns ≠ "") ↔
        (modPrep s mod false).unlockedSet = false := by
      rw [← Bool.not_eq_true, unlockedSet_iff hval]
      push Not
      rfl
    rw [modify_eq hv hid, hnone]
    rcases modApply_cases h.toSound hp (Prepared.fresh_of_fits h.indexed hp) now with
      ⟨hs, hm⟩ | ⟨hs, hu, hm⟩ | ⟨hs, hu, e, he, hm⟩ | ⟨hs, hu, s', hm, hc⟩
    · have hno := nowhere_of_shortCircuits hval hs
      rw [hm]
      exact ⟨fun hsat => absurd hsat (hno.not_satisfiable h hval), fun hx => absurd hno hx.2.2⟩
    · rw [hm, hu]
      simp
    · rw [hm]
      have hno : ¬Nowhere mod := fun hno => by rw [hno.shortCircuits] at hs; cases hs
      refine ⟨fun _ => ⟨rfl, hu, hno⟩, fun _ => ⟨fun hsat => ?_, ?_, rfl⟩⟩
      · have := ((modPrep s mod false).passes_iff s now false).mpr
          ((passes_iff_satisfiable h hp).mpr hsat)
        rw [he] at this
        cases this
      · exact reports_of_depErr h hp hval.docDeleteRef he
    · rw [hm]
      have hno : ¬Nowhere mod := fun hno => by rw [hno.shortCircuits] at hs; cases hs
      exact ⟨fun _ => ⟨rfl, hu, hno⟩, fun _ => (passes_iff_satisfiable h hp).mp hc.passes⟩

/-- The dependency error of a `Modify` reports just what fails. -/
theorem modify_reports {s : EQMem} (h : Invariant s) {mod : Modification} {now : Time}
    {e : DependencyError} (he : (modify s mod now).2 = .error (.dependency e)) :
    Reports s mod now e := by
  cases hv : Validate.modification mod with
  | some e =>
    rw [modify, hv] at he
    cases he
  | none =>
    cases hid : missingInsertID mod with
    | some f =>
      rw [modify, hv] at he
      dsimp only at he
      rw [modifyImpl, hid] at he
      unfold missingInsertID at hid
      split_ifs at hid <;> cases hid <;> cases he
    | none =>
      have hval := Validate.modification_none mod hv
      have hp := Validated.proper hval hid s
      rw [modify_eq hv hid] at he
      rcases modApply_cases h.toSound hp (Prepared.fresh_of_fits h.indexed hp) now with
        ⟨-, hm⟩ | ⟨-, -, hm⟩ | ⟨-, -, e', he', hm⟩ | ⟨-, -, s', hm, -⟩
      all_goals rw [hm] at he; cases he
      exact reports_of_depErr h hp hval.docDeleteRef he'

def deleteNowhere : Modification := { claimant := "w", docDeletes := [newDocID "" "d" 3] }

def dependNowhere : Modification :=
  { claimant := "w", inserts := [{ queue := "q", id := "t" }], docDepends := [newDocSetRef "" "k" 1] }

theorem modify_nowhere :
    (Validate.modification deleteNowhere = none ∧ (modify {} deleteNowhere 5).2 = .ok {} ∧
      ¬Satisfiable {} deleteNowhere 5) ∧
    Validate.modification dependNowhere = none ∧ ¬Satisfiable {} dependNowhere 5 ∧
      (modify {} dependNowhere 5).2 =
        .error (.panic "invalid memory address or nil pointer dereference") := by
  refine ⟨⟨by decide, by decide, fun hs => ?_⟩, by decide, fun hs => ?_,
    by decide⟩
  · obtain ⟨d, hd, -⟩ := hs.docDeletes (newDocID "" "d" 3) (by simp [deleteNowhere])
    cases hd.1
  · have hd := hs.docDepends (newDocSetRef "" "k" 1) (by simp [dependNowhere])
    cases (show AtLock _ _ from hd).1

def insertOne : Modification := { claimant := "w", inserts := [{ queue := "q", id := "t" }] }

/-- An insert whose ID is taken, with an arrival of a task that is not there. -/
def insertAgain : Modification :=
  { claimant := "w"
    inserts := [{ queue := "q", id := "t" }]
    arrives := [{ taskID := ⟨"b", 1, "q"⟩ }]
    docDeletes := [newDocID "n" "d" 3] }

theorem modify_exact_again :
    Validate.modification insertAgain = none ∧
      Exact (run {} [.modify insertOne 5]) insertAgain 6 :=
  have hv : Validate.modification insertAgain = none := by decide
  ⟨hv, (modify_exact_iff ⟨[.modify insertOne 5], rfl⟩ hv 6).mpr
    ⟨by decide, nofun, fun h => by simpa [insertAgain] using h.tasks.1⟩⟩

end Eqmem
end EntroQ
