import EntroQ.Eqmem.DocCollector
import EntroQ.Eqmem.Report

/-! # The history of a doc set

A set that someone holds keeps its lock and its members, in whatever way a call of someone else
would reach them: by the set's name, by a doc's ID, or by its place. A doc claim gets all sets it
names or changes nothing. -/

namespace EntroQ.Eqmem
open Foundation Docset

structure SetKept (g : SetName) (s s' : EQMem) : Prop where
  lock? : s'.lock? g = s.lock? g
  members : s'.members g = s.members g

theorem SetKept.refl (g : SetName) (s : EQMem) : SetKept g s s := ⟨rfl, rfl⟩

theorem SetKept.trans {g : SetName} {s s' s'' : EQMem} (h : SetKept g s s')
    (h' : SetKept g s' s'') : SetKept g s s'' :=
  ⟨h'.lock?.trans h.lock?, h'.members.trans h.members⟩

theorem SetKept.lockOf {g : SetName} {s s' : EQMem} (h : SetKept g s s') :
    s'.lockOf g = s.lockOf g := by
  rw [EQMem.lockOf_eq, EQMem.lockOf_eq, h.lock?]

/-- Docs stay what they are, and so do the sets they make up. -/
theorem setKept_of_docAt {s s' : EQMem} (h : s.Sound) (h' : s'.Sound) {g : SetName}
    (hl : s'.lock? g = s.lock? g) (hd : s'.docAt = s.docAt) : SetKept g s s' :=
  ⟨hl, congrFun (h.docs.members_congr h'.docs hd) g⟩

namespace Prepared
variable {p : Prepared} {s : EQMem} {now : Time}

/-- A set is written only if no one else holds it. -/
theorem DocsPass.free (hd : p.DocsPass s now) {op : DocOp} (hop : op ∈ p.mod.docOps) {g : SetName}
    {byDur : Duration} {n : ℤ} (ho : s.docVerdict p.mod now op = .write g byDur n) :
    (s.lockOf g).heldByOther p.mod.claimant now = false := by
  simp only [Modification.docOps, List.mem_append, List.mem_map] at hop
  rcases hop with (((⟨d, hm, rfl⟩ | ⟨c, hm, rfl⟩) | ⟨r, hm, rfl⟩) | ⟨r, hm, rfl⟩) | ⟨a, hm, rfl⟩
  · obtain ⟨-, -, hfree, hw⟩ := hd.insert hm
    rw [hw] at ho
    cases ho
    exact hfree
  · obtain ⟨old, -, hfree, hw⟩ := hd.change hm
    rw [hw] at ho
    cases ho
    exact hfree
  · obtain ⟨old, -, hfree, hw⟩ := hd.delete hm
    rw [hw] at ho
    cases ho
    exact hfree
  · change dependOutcome _ _ _ r = _ at ho
    unfold dependOutcome at ho
    split_ifs at ho
  · obtain ⟨-, hfree, hw⟩ := hd.arrive hm
    rw [hw] at ho
    cases ho
    exact hfree

/-- A doc that is written was in a set that an operation writes, and is put into one. -/
theorem DocsPass.write_op (hd : p.DocsPass s now) (hp : p.Proper) (h : s.Sound) {w : DocWrite}
    (hw : w ∈ p.docWrites s now false) {g : SetName}
    (hg : (∃ d, s.docAt w.place = some d ∧ (⟨d.ns, d.key⟩ : SetName) = g) ∨
      ∃ d, w.result = some d ∧ (⟨d.ns, d.key⟩ : SetName) = g) :
    ∃ op ∈ p.mod.docOps, ∃ byDur n, s.docVerdict p.mod now op = .write g byDur n := by
  simp only [docWrites, List.mem_append, List.mem_map] at hw
  rcases hw with (⟨r, hm, rfl⟩ | ⟨c, hm, rfl⟩) | ⟨d, hm, rfl⟩
  · obtain ⟨old, ⟨hold, -⟩, -, hv⟩ := hd.delete hm
    rcases hg with ⟨d, hd', rfl⟩ | ⟨d, hd', -⟩
    · cases hold.symm.trans hd'
      exact ⟨.delete r, by simp [Modification.docOps, hm], 0, -1, hv⟩
    · cases hd'
  · obtain ⟨old, ⟨hold, -⟩, -, hv⟩ := hd.change hm
    change s.docAt (c.doc.ns, c.doc.id) = some old at hold
    have hns : old.ns = c.doc.ns := (h.docs.docAt_named hold).1
    have hop : DocOp.change c ∈ p.mod.docOps := by simp [Modification.docOps, hm]
    rcases hg with ⟨d, hd', rfl⟩ | ⟨d, hd', rfl⟩
    · rw [DocWrite.place, changedDoc_ns, changedDoc_id] at hd'
      cases hold.symm.trans hd'
      exact ⟨_, hop, _, _, hv⟩
    · cases hd'
      have hfound : (p.foundDocs s).lookup (docKey c.doc.ns c.doc.id) = some old := by
        rw [hp.foundDocs_eq h.docs h.docIDs (r := (c.doc.ns, c.doc.id))]
        · exact hold
        · simp only [docRefs, List.mem_append, List.mem_map]
          exact .inl (.inr ⟨c, hm, rfl⟩)
      rw [changedDoc_ns, changedDoc_key, hfound, Option.getD_some, ← hns]
      exact ⟨_, hop, _, _, hv⟩
  · obtain ⟨hnone, -, -, hv⟩ := hd.insert hm
    rcases hg with ⟨d', hd', -⟩ | ⟨d', hd', rfl⟩
    · rw [DocWrite.place, insertedDoc_ns, insertedDoc_id, hnone (hp.docInserts d hm).1] at hd'
      cases hd'
    · cases hd'
      rw [insertedDoc_ns, insertedDoc_key]
      exact ⟨.insert d, by simp [Modification.docOps, hm], _, _, hv⟩

theorem DocsPass.planned_iff (hd : p.DocsPass s now) (hp : p.Proper) (h : s.Sound) (g : SetName) :
    (∃ l, (p.docPlan s now false).locks.lookup g = some l) ↔
      ∃ op ∈ p.mod.docOps, ∃ byDur n, s.docVerdict p.mod now op = .write g byDur n := by
  have herr : (p.docPlan s now false).err = none := by
    rw [hp.docPlan_eq now h.docs h.docIDs, evaluate_err_none_iff]
    exact hd
  rw [hp.docPlan_eq now h.docs h.docIDs] at herr ⊢
  constructor
  · rintro ⟨l, hl⟩
    obtain ⟨-, -, -, -, op, hop, byDur, n, ho⟩ := evaluate_locks _ _ _ _ _ herr g l hl
    exact ⟨op, hop, byDur, n, ho⟩
  · rintro ⟨op, hop, byDur, n, ho⟩
    exact evaluate_locks_mem _ _ _ _ _ herr op hop g byDur n ho

end Prepared

section Step
variable {s s' : EQMem} {g : SetName}

/-- A modification does not touch a set that none of its operations writes. -/
theorem Committed.untouched {p : Prepared} {now : Time} (h : s.Sound) (hp : p.Proper)
    (hc : Committed p s now s')
    (hno : ¬∃ op ∈ p.mod.docOps, ∃ byDur n, s.docVerdict p.mod now op = .write g byDur n) :
    SetKept g s s' := by
  constructor
  · have hnone : (p.docPlan s now false).locks.lookup g = none := by
      by_contra hsome
      exact hno ((hc.docsPass.planned_iff hp h g).mp (Option.ne_none_iff_exists'.mp hsome))
    rw [hc.applied.lock?, Prepared.lockEffects_lockWrites, hnone, Option.none_or]
  · apply h.docs.members_eq hc.applied.sound.docs
    intro d hk
    rw [hc.applied.docAt]
    by_cases hw : (g.ns, d.id) ∈ (p.docWrites s now false).map DocWrite.place
    · obtain ⟨w, hw, hplace⟩ := List.mem_map.mp hw
      have hfree := fun hg => hno (hc.docsPass.write_op hp h hw hg)
      rw [← hplace, docEffects_of_mem _ _ (hp.docWrites_nodup now false) w hw]
      have hset : d.ns = w.place.1 → (⟨d.ns, d.key⟩ : SetName) = g := by
        intro hns
        rw [hns.trans (congrArg Prod.fst hplace), hk]
      constructor
      · intro hr
        have hns : d.ns = w.place.1 := by
          cases w with
          | delete ns id => cases hr
          | set d' => cases hr; rfl
        exact absurd (.inr ⟨d, hr, hset hns⟩) hfree
      · intro hd
        exact absurd (.inl ⟨d, hd, hset (h.docs.docAt_named hd).1⟩) hfree
    · rw [docEffects_of_notMem _ _ _ hw]

/-- A modification does not touch a set that someone else holds. -/
theorem Committed.setKept {p : Prepared} {now : Time} (h : s.Sound) (hp : p.Proper)
    (hc : Committed p s now s') (hheld : (s.lockOf g).heldByOther p.mod.claimant now = true) :
    SetKept g s s' := by
  apply hc.untouched h hp
  rintro ⟨op, hop, byDur, n, ho⟩
  rw [hc.docsPass.free hop ho] at hheld
  cases hheld

variable {A : String}

/-- A call that the holder of a set does not make leaves the set alone. -/
theorem Call.keeps_set (h : Invariant s) (hA : A ≠ "") (hholder : (s.lockOf g).claimant = A)
    (call : Call) (hother : call.actor ≠ some A)
    (hclock : ∀ now ∈ call.clock, now < (s.lockOf g).atTime) : SetKept g s (call.run s).1 := by
  have hheld : ∀ {now claimant}, now ∈ call.clock → claimant ≠ A →
      (s.lockOf g).heldByOther claimant now = true := by
    intro now claimant hn hc
    rw [s.heldByOther_iff]
    exact ⟨hholder ▸ hA, hclock now hn, hholder ▸ hc.symm⟩
  have he := call.effect h.toSound
  generalize (call.run s).1 = s' at he ⊢
  cases he with
  | kept => exact .refl g s
  | @committed mod now _ _ _ hp hc =>
    exact hc.setKept h.toSound hp (hheld (List.mem_singleton_self now) fun he => hother (by
      rw [← he]; rfl))
  | claimed _ ht =>
    exact setKept_of_docAt h.toSound ht.sound (congrFun ht.docs.lock? g) ht.docs.docAt
  | @took cq now _ _ _ ht =>
    have hnot : g ∉ setsOf cq := by
      intro hg
      have hfree := ht.free g hg
      rw [hheld (List.mem_singleton_self now) fun he => hother (by rw [← he]; rfl)] at hfree
      cases hfree
    refine setKept_of_docAt h.toSound ht.sound ?_ ht.docAt
    rw [ht.lock?, lockEffects_takenLocks ht.valid.once, if_neg hnot]
  | @collected _ now _ _ new hc =>
    have hnot : g ∉ new.map Prod.fst := by
      intro hg
      obtain ⟨gl, hgl, rfl⟩ := List.mem_map.mp hg
      obtain ⟨hl, hidle, -⟩ := hc.idle gl hgl
      have hlock : s.lockOf gl.1 = gl.2 := by rw [EQMem.lockOf_eq, hl]; rfl
      rw [hlock] at hholder hclock
      have hnow := hclock now (List.mem_singleton_self now)
      simp [Lock.held, hholder, hA, hnow] at hidle
    refine setKept_of_docAt h.toSound hc.sound ?_ hc.docAt
    rw [hc.lock?, if_neg hnot]

theorem run_keeps_set (h : Invariant s) (hA : A ≠ "") (hholder : (s.lockOf g).claimant = A)
    (calls : List Call) (hother : ∀ c ∈ calls, c.actor ≠ some A)
    (hclock : ∀ c ∈ calls, ∀ now ∈ c.clock, now < (s.lockOf g).atTime) :
    SetKept g s (run s calls) := by
  induction calls generalizing s with
  | nil => exact .refl g s
  | cons c calls ih =>
    have hstep := c.keeps_set h hA hholder (hother c List.mem_cons_self)
      (hclock c List.mem_cons_self)
    refine hstep.trans (ih (c.run_invariant h) (by rw [hstep.lockOf, hholder])
      (fun c hc => hother c (List.mem_cons_of_mem _ hc)) fun c hc => ?_)
    rw [hstep.lockOf]
    exact hclock c (List.mem_cons_of_mem _ hc)

end Step

/-! ## Runs with the collector -/

inductive DocStep
  | call (c : Call)
  | collectDocs (pass : DocPass)

namespace DocStep

def run (s : EQMem) : DocStep → EQMem
  | .call c => (c.run s).1
  | .collectDocs pass => (collectDocsOnce s pass).1

/-- Who takes the step, if it can write docs or locks. -/
def actor : DocStep → Option String
  | .call c => c.actor
  | .collectDocs _ => some gcClaimant

def Reads : DocStep → Time → Prop
  | .call c, now => now ∈ c.clock
  | .collectDocs pass, now => pass.Reads now

end DocStep

def runSteps (s : EQMem) (steps : List DocStep) : EQMem := steps.foldl DocStep.run s

theorem runSteps_eq_run (s : EQMem) (steps : List DocStep) :
    ∃ calls, runSteps s steps = run s calls ∧ ∀ c ∈ calls, ∃ st ∈ steps,
      st.actor = c.actor ∧ ∀ now ∈ c.clock, st.Reads now := by
  induction steps generalizing s with
  | nil => exact ⟨[], rfl, by simp⟩
  | cons st steps ih =>
    obtain ⟨first, hfirst, hf⟩ : ∃ calls, st.run s = run s calls ∧ ∀ c ∈ calls,
        st.actor = c.actor ∧ ∀ now ∈ c.clock, st.Reads now := by
      cases st with
      | call c => exact ⟨[c], rfl, fun c' hc => by rw [List.mem_singleton.mp hc]; exact ⟨rfl, fun _ h => h⟩⟩
      | collectDocs pass =>
        obtain ⟨calls, hcalls, hc⟩ := collectDocsOnce_run s pass
        exact ⟨calls, hcalls, fun c hm => ⟨(hc c hm).1.symm, (hc c hm).2⟩⟩
    obtain ⟨rest, hrest, hr⟩ := ih (st.run s)
    refine ⟨first ++ rest, ?_, fun c hm => ?_⟩
    · rw [run_append, ← hfirst, ← hrest]
      rfl
    · rcases List.mem_append.mp hm with hm | hm
      · exact ⟨st, List.mem_cons_self, hf c hm⟩
      · obtain ⟨st', hst', h'⟩ := hr c hm
        exact ⟨st', List.mem_cons_of_mem _ hst', h'⟩

theorem runSteps_append (s : EQMem) (l l' : List DocStep) :
    runSteps s (l ++ l') = runSteps (runSteps s l) l' :=
  List.foldl_append

theorem runSteps_invariant (steps : List DocStep) : Invariant (runSteps {} steps) := by
  obtain ⟨calls, hcalls, -⟩ := runSteps_eq_run {} steps
  rw [hcalls]
  exact run_invariant invariant_empty calls

/-! ## All or none -/

def NamesHeld (s : EQMem) (cq : DocClaim) (now : Time) (e : DependencyError) : Prop :=
  ∀ g ∈ setsOf cq, s.SetHeld cq.claimant now g → ∃ r ∈ e.docClaims, r.name = (g.ns, "", g.key)

/-- All or none: a claim that fails changes nothing and, unless it is refused for its arguments,
the task it is to match or a lease that is over, names every set that someone else holds; one that
succeeds leaves each set at its next version, held by the caller until the time asked for. -/
def AllOrNone (s : EQMem) (cq : DocClaim) (now : Time) : Prop :=
  match claimDocs s cq now with
  | (s', .error f) => s' = s ∧ ∀ until_, Validate.docClaim cq = none →
      claimUntil s cq now = .ok until_ → now < until_ → ∃ e, f = .dependency e ∧ NamesHeld s cq now e
  | (s', .ok _) => ∃ until_, claimUntil s cq now = .ok until_ ∧ ∀ g ∈ setsOf cq,
      s'.lock? g = some (claimedLock cq until_ (s.lockOf g)) ∧
        (claimedLock cq until_ (s.lockOf g)).version =
          ((s.lock? g).elim 1 fun l => l.version + 1)

theorem claimDocs_allOrNone {s : EQMem} (h : s.Sound) (cq : DocClaim) (now : Time) :
    AllOrNone s cq now := by
  unfold AllOrNone
  rcases claimDocs_cases h cq now with ⟨f, hr, hf⟩ | ⟨until_, s', r, hr, ht⟩
  · rw [hr]
    refine ⟨rfl, fun until_ hv hu hfuture => ?_⟩
    cases hf with
    | invalid e bad =>
      rw [hv] at bad
      cases bad
    | unmatched f missing =>
      rw [hu] at missing
      cases missing
    | lapsed f until' lease past =>
      rw [hu] at lease
      cases lease
      exact absurd hfuture (not_lt.mpr past)
    | held e until' lease future names =>
      refine ⟨e, rfl, fun g hg hset => ?_⟩
      exact heldAmong_names cq now until' s.lockOf s.members _ e names g hg
        ((s.heldByOther_iff _ _ _).mpr hset)
  · rw [hr]
    refine ⟨until_, ht.lease, fun g hg => ⟨?_, ?_⟩⟩
    · rw [ht.lock?, lockEffects_takenLocks ht.valid.once, if_pos hg]
    · change (s.lockOf g).version + 1 = _
      rw [EQMem.lockOf_eq]
      cases s.lock? g <;> rfl

/-- While a claimant holds a set, steps of others (calls, passes of the doc collector, and lock
collections, at whatever clock readings before the lock's arrival) change neither its lock nor its
members; and every doc claim gets all its sets or none. -/
theorem docSets_exclusive (before : List DocStep) :
    (∀ (g : SetName) (A : String) (during : List DocStep), A ≠ "" →
      ((runSteps {} before).lockOf g).claimant = A → (∀ st ∈ during, st.actor ≠ some A) →
      (∀ st ∈ during, ∀ now, st.Reads now → now < ((runSteps {} before).lockOf g).atTime) →
      SetKept g (runSteps {} before) (runSteps {} (before ++ during))) ∧
    ∀ cq now, AllOrNone (runSteps {} before) cq now := by
  constructor
  · intro g A during hA hholder hother hclock
    obtain ⟨calls, hcalls, hc⟩ := runSteps_eq_run (runSteps {} before) during
    rw [runSteps_append, hcalls]
    refine run_keeps_set (runSteps_invariant before) hA hholder calls (fun c hm => ?_) fun c hm => ?_
    · obtain ⟨st, hst, hact, -⟩ := hc c hm
      rw [← hact]
      exact hother st hst
    · obtain ⟨st, hst, -, hreads⟩ := hc c hm
      exact fun now hn => hclock st hst now (hreads now hn)
  · exact fun cq now => claimDocs_allOrNone (runSteps_invariant _).toSound cq now

def holdSet : DocClaim := { sets := [{ ns := "n", key := "k" }], claimant := "w", duration := 10 }

/-- Another worker's claim of the set, for as long as it has a task that is not there. -/
def matchNothing : DocClaim :=
  { sets := [{ ns := "n", key := "k" }], claimant := "v", taskToMatch := some ⟨"t", 0, "q"⟩ }

theorem docSets_exclusive_held :
    SetKept ⟨"n", "k"⟩ (runSteps {} [.call (.claimDocs holdSet 5)])
      (runSteps {} ([.call (.claimDocs holdSet 5)] ++
        [.call (.claimDocs matchNothing 6), .call (.collectLocks ["n"] 7 10)])) := by
  have hat : ((runSteps {} [.call (.claimDocs holdSet 5)]).lockOf ⟨"n", "k"⟩).atTime = 15 := by
    decide
  refine (docSets_exclusive [.call (.claimDocs holdSet 5)]).1 _ "w" _ (by decide)
    (by decide) (fun st hst => ?_) fun st hst now hnow => ?_
  · rcases List.mem_pair.mp hst with rfl | rfl <;> decide
  · rw [hat]
    rcases List.mem_pair.mp hst with rfl | rfl <;> rw [List.mem_singleton.mp hnow] <;> decide

theorem claimDocs_unmatched :
    (run {} [.claimDocs holdSet 5]).SetHeld "v" 6 ⟨"n", "k"⟩ ∧ ⟨"n", "k"⟩ ∈ setsOf matchNothing ∧
      ∃ e, (claimDocs (run {} [.claimDocs holdSet 5]) matchNothing 6).2 = .error (.dependency e) ∧
        e.docClaims = [] := by
  refine ⟨⟨by decide, by decide, by decide⟩, by decide,
    missingTaskError ⟨"t", 0, "q"⟩ "eqmem claim docs" [], by decide, rfl⟩

end EntroQ.Eqmem
