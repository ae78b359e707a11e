import EntroQ.Eqmem.Found

/-! # The verdict on a modification

Three checks find failures: that each operation names the queue its task is in, that the tasks
found are as the operations say, and that the docs are. A modification goes ahead if none of
them finds any; on replay, if none of them finds any but claims. -/

namespace EntroQ.Eqmem
open Foundation Docset

def EQMem.HasTask (s : EQMem) (r : TaskID) : Prop :=
  ∃ t, s.task r.id = some t ∧ t.queue = r.queue ∧ t.version = r.version

/-- The task is there as named, and someone else holds it. -/
def EQMem.HeldByOther (s : EQMem) (claimant : String) (now : Time) (r : TaskID) : Prop :=
  ∃ t, s.task r.id = some t ∧ t.queue = r.queue ∧ t.version = r.version ∧
    now < t.atTime ∧ t.claimant ≠ "" ∧ t.claimant ≠ claimant

namespace Prepared
variable (p : Prepared) (s : EQMem) (now : Time) (replay : Bool)

def taskFailures : DependencyError := (p.taskMod s).failures (p.found s) ∅ now

def docFailures : DependencyError := (p.docPlan s now replay).err.getD {}

/-- What the three checks find. -/
def failures : List DependencyError :=
  [p.queueDeps.getD {}, p.taskFailures s now, p.docFailures s now replay]

theorem foundDeps_collects :
    ((p.foundDeps s now replay).getD {}).Collects
      [p.taskFailures s now, p.docFailures s now replay] := by
  have htask : (((p.taskMod s).dependencyError (p.found s) ∅ now).getD {}).Collects
      [p.taskFailures s now] := (DependencyError.Collects.self _).reported
  unfold foundDeps docFailures
  cases he : (p.docPlan s now replay).err with
  | some e => exact (htask.merged (DependencyError.Collects.self e)).reported
  | none =>
    refine ⟨fun c r hr => ?_, fun c r hr => ?_, fun c x hx r hr => ?_, fun c x hx r hr => ?_⟩
    · obtain ⟨x, hx, hrx⟩ := htask.tasks c r hr
      exact ⟨x, List.mem_cons.mpr (.inl (List.mem_singleton.mp hx)), hrx⟩
    · obtain ⟨x, hx, hrx⟩ := htask.docs c r hr
      exact ⟨x, List.mem_cons.mpr (.inl (List.mem_singleton.mp hx)), hrx⟩
    · rcases List.mem_cons.mp hx with rfl | hx
      · exact htask.tasks_named c _ (by simp) r hr
      · rw [List.mem_singleton.mp hx] at hr
        cases c <;> simp [DependencyError.tasks] at hr
    · rcases List.mem_cons.mp hx with rfl | hx
      · exact htask.docs_named c _ (by simp) r hr
      · rw [List.mem_singleton.mp hx] at hr
        cases c <;> simp [DependencyError.docs] at hr

/-- The error reports what the checks find. -/
theorem depErr_collects : ((p.depErr s now replay).getD {}).Collects (p.failures s now replay) := by
  have hm := ((DependencyError.Collects.self (p.queueDeps.getD {})).merged
    (p.foundDeps_collects s now replay)).reported
  unfold depErr
  split_ifs with h
  · exact hm
  · rw [Bool.or_eq_true, not_or, Option.not_isSome_iff_eq_none, Option.not_isSome_iff_eq_none] at h
    unfold failures
    rw [h.1]
    rw [h.1, h.2] at hm
    exact hm

theorem hasAny_of_depErr {e : DependencyError} (h : p.depErr s now replay = some e) :
    e.hasAny = true := by
  unfold depErr at h
  split_ifs at h
  have := DependencyError.eq_of_reported h
  rw [this.1]
  exact this.2

/-- A modification goes ahead: live, if no check finds a failure; on replay, if none finds any
but claims. -/
def Passes : Prop :=
  ∀ x ∈ p.failures s now replay, if replay then x.onlyClaims = true else x.hasAny = false

theorem passes_iff :
    (p.depErr s now replay).filter (fun e => !replay || !e.onlyClaims) = none ↔
      p.Passes s now replay := by
  have hc := p.depErr_collects s now replay
  unfold Passes
  cases replay with
  | false =>
    simp only [Bool.false_eq_true, if_false, Bool.not_false, Bool.true_or]
    rw [← hc.hasAny_eq_false]
    cases h : p.depErr s now false with
    | none => simp only [Option.filter_none, Option.getD_none, true_iff]; rfl
    | some e => simp [Option.filter, p.hasAny_of_depErr s now false h]
  | true =>
    simp only [if_true, Bool.not_true, Bool.false_or]
    rw [← hc.onlyClaims]
    cases h : p.depErr s now true with
    | none => simp only [Option.filter_none, Option.getD_none, true_iff]; rfl
    | some e => cases ho : e.onlyClaims <;> simp [Option.filter, ho]

/-! ## The checks on tasks -/

section Tasks
variable {p s}

theorem mem_changed (c : TaskChange) :
    c ∈ (p.changed s).changes ↔ c ∈ p.mod.changes ∨
      ∃ a ∈ p.mod.arrives, a.change ((p.found s).lookup a.taskID.id) = c := by
  simp [changed, arrivalChanges]

theorem Covers.changed_origins (hc : p.Covers) (h : s.Indexed) :
    (p.changed s).changes.map TaskChange.origin =
      p.mod.changes.map TaskChange.origin ++ p.mod.arrives.map TaskArrival.taskID :=
  arrivalChanges_origins p.mod fun _ _ hf => (h.task_named ((hc.found_iff h _ _).mp hf).1).1

theorem mem_storedRefs (r : TaskID) :
    r ∈ p.mod.deletes ∨ r ∈ p.mod.depends ∨
      r ∈ p.mod.changes.map TaskChange.origin ++ p.mod.arrives.map TaskArrival.taskID →
    (r.queue, r.id) ∈ p.storedRefs := by
  unfold storedRefs
  simp only [List.mem_append, List.mem_map]
  rintro (h | h | ⟨c, hc, rfl⟩ | ⟨a, ha, rfl⟩)
  · exact .inl (.inl (.inl ⟨r, h, rfl⟩))
  · exact .inl (.inl (.inr ⟨r, h, rfl⟩))
  · exact .inl (.inr ⟨c, hc, rfl⟩)
  · exact .inr ⟨a, ha, rfl⟩

/-- An operation on a stored task sees it if it is as named. -/
theorem Covers.atVersion_eq (hc : p.Covers) (h : s.Indexed) (hn : p.taskIDs.Nodup) {r : TaskID}
    (hr : (r.queue, r.id) ∈ p.storedRefs) (t : Task) :
    Modification.atVersion (p.found s) r.id r.version = some t ↔
      s.task r.id = some t ∧ t.queue = r.queue ∧ t.version = r.version := by
  unfold Modification.atVersion
  rw [Option.filter_eq_some_iff, hc.found_stored h hn hr, beq_iff_eq, and_assoc]

theorem Covers.atVersion_isNone (hc : p.Covers) (h : s.Indexed) (hn : p.taskIDs.Nodup)
    {r : TaskID} (hr : (r.queue, r.id) ∈ p.storedRefs) :
    (Modification.atVersion (p.found s) r.id r.version).isNone = true ↔ ¬s.HasTask r := by
  rw [Option.isNone_iff_eq_none, Option.eq_none_iff_forall_ne_some]
  unfold EQMem.HasTask
  simp only [ne_eq, hc.atVersion_eq h hn hr, not_exists]

theorem Covers.atVersion_claimed (hc : p.Covers) (h : s.Indexed) (hn : p.taskIDs.Nodup)
    {r : TaskID} (hr : (r.queue, r.id) ∈ p.storedRefs) (m : Modification) :
    (Modification.atVersion (p.found s) r.id r.version).any (fun t => m.otherwiseClaimed t now) =
      true ↔ s.HeldByOther m.claimant now r := by
  rw [Option.any_eq_true]
  unfold EQMem.HeldByOther
  simp only [hc.atVersion_eq h hn hr, and_assoc, Modification.otherwiseClaimed, Bool.and_eq_true,
    decide_eq_true_eq, bne_iff_ne, ne_eq]

theorem Covers.taskFailures_deletes (hc : p.Covers) (h : s.Indexed) (hn : p.taskIDs.Nodup)
    (r : TaskID) :
    r ∈ (p.taskFailures s now).deletes ↔ r ∈ p.mod.deletes ∧ ¬s.HasTask r := by
  change r ∈ p.mod.deletes.filter _ ↔ _
  rw [List.mem_filter]
  exact and_congr_right fun hr => hc.atVersion_isNone h hn (mem_storedRefs r (.inl hr))

theorem Covers.taskFailures_depends (hc : p.Covers) (h : s.Indexed) (hn : p.taskIDs.Nodup)
    (r : TaskID) :
    r ∈ (p.taskFailures s now).depends ↔ r ∈ p.mod.depends ∧ ¬s.HasTask r := by
  change r ∈ p.mod.depends.filter _ ↔ _
  rw [List.mem_filter]
  exact and_congr_right fun hr => hc.atVersion_isNone h hn (mem_storedRefs r (.inr (.inl hr)))

def origins (p : Prepared) : List TaskID :=
  p.mod.changes.map TaskChange.origin ++ p.mod.arrives.map TaskArrival.taskID

/-- A change is reported without its queue. -/
def unplaced (r : TaskID) : TaskID := { id := r.id, version := r.version }

theorem Covers.mem_filter_changed (hc : p.Covers) (h : s.Indexed) (f : TaskID → Bool) (r : TaskID) :
    r ∈ ((p.changed s).changes.filter (fun c => f c.origin)).map
        (fun c => ({ id := c.task.id, version := c.task.version } : TaskID)) ↔
      ∃ o ∈ p.origins, unplaced o = r ∧ f o = true := by
  unfold origins
  rw [← hc.changed_origins h]
  simp only [List.mem_map, List.mem_filter]
  constructor
  · rintro ⟨c, ⟨hm, hf⟩, rfl⟩
    exact ⟨c.origin, ⟨c, hm, rfl⟩, rfl, hf⟩
  · rintro ⟨o, ⟨c, hm, rfl⟩, rfl, hf⟩
    exact ⟨c, ⟨hm, hf⟩, rfl⟩

theorem Covers.taskFailures_changes (hc : p.Covers) (h : s.Indexed) (hn : p.taskIDs.Nodup)
    (r : TaskID) :
    r ∈ (p.taskFailures s now).changes ↔ ∃ o ∈ p.origins, unplaced o = r ∧ ¬s.HasTask o := by
  refine (hc.mem_filter_changed h
    (fun o => (Modification.atVersion (p.found s) o.id o.version).isNone) r).trans ?_
  refine exists_congr fun o => and_congr_right fun ho => and_congr_right fun _ => ?_
  exact hc.atVersion_isNone h hn (mem_storedRefs o (.inr (.inr ho)))

theorem Covers.taskFailures_claims (hc : p.Covers) (h : s.Indexed) (hn : p.taskIDs.Nodup)
    (r : TaskID) :
    r ∈ (p.taskFailures s now).claims ↔
      (r ∈ p.mod.deletes ∧ s.HeldByOther p.mod.claimant now r) ∨
        ∃ o ∈ p.origins, unplaced o = r ∧ s.HeldByOther p.mod.claimant now o := by
  change r ∈ p.mod.deletes.filter _ ++ _ ↔ _
  rw [List.mem_append, List.mem_filter]
  refine or_congr (and_congr_right fun hr => ?_) ?_
  · exact hc.atVersion_claimed now h hn (mem_storedRefs r (.inl hr)) (p.taskMod s)
  · refine (hc.mem_filter_changed h (fun o => (Modification.atVersion (p.found s) o.id
      o.version).any (fun t => (p.taskMod s).otherwiseClaimed t now)) r).trans ?_
    refine exists_congr fun o => and_congr_right fun ho => and_congr_right fun _ => ?_
    exact hc.atVersion_claimed now h hn (mem_storedRefs o (.inr (.inr ho))) (p.taskMod s)

theorem Covers.taskFailures_inserts (hc : p.Covers) (h : s.Indexed) (hn : p.taskIDs.Nodup)
    (r : TaskID) :
    r ∈ (p.taskFailures s now).inserts ↔ ∃ ins ∈ p.mod.inserts, ∃ t,
      s.task ins.id = some t ∧
        (t.queue = ins.queue ∨ p.misplaced.lookup ins.id = some t.queue) ∧ t.idVersion = r := by
  change r ∈ p.mod.inserts.filterMap _ ↔ _
  rw [List.mem_filterMap]
  refine exists_congr fun ins => and_congr_right fun hi => ?_
  rw [Option.map_eq_some_iff]
  refine exists_congr fun t => ?_
  rw [hc.found_insert h hn hi, and_assoc]

theorem taskFailures_docs (c : DocClass) : (p.taskFailures s now).docs c = [] := by
  cases c <;> rfl

/-- The operations on tasks are as the table has it, whoever holds the tasks. -/
structure Fits (p : Prepared) (s : EQMem) : Prop where
  deletes : ∀ r ∈ p.mod.deletes, s.HasTask r
  depends : ∀ r ∈ p.mod.depends, s.HasTask r
  changes : ∀ r ∈ p.origins, s.HasTask r
  inserts : ∀ ins ∈ p.mod.inserts, ∀ t, s.task ins.id = some t →
    t.queue ≠ ins.queue ∧ p.misplaced.lookup ins.id ≠ some t.queue

theorem Covers.fits_iff (hc : p.Covers) (h : s.Indexed) (hn : p.taskIDs.Nodup) :
    (p.taskFailures s now).onlyClaims = true ↔ p.Fits s := by
  rw [DependencyError.onlyClaims_iff]
  constructor
  · rintro ⟨ht, -⟩
    have hdel := List.eq_nil_iff_forall_not_mem.mp (ht .deletes nofun)
    have hdep := List.eq_nil_iff_forall_not_mem.mp (ht .depends nofun)
    have hchg := List.eq_nil_iff_forall_not_mem.mp (ht .changes nofun)
    have hins := List.eq_nil_iff_forall_not_mem.mp (ht .inserts nofun)
    constructor
    · intro r hr
      by_contra hno
      exact hdel r ((hc.taskFailures_deletes now h hn r).mpr ⟨hr, hno⟩)
    · intro r hr
      by_contra hno
      exact hdep r ((hc.taskFailures_depends now h hn r).mpr ⟨hr, hno⟩)
    · intro r hr
      by_contra hno
      exact hchg _ ((hc.taskFailures_changes now h hn _).mpr ⟨r, hr, rfl, hno⟩)
    · intro ins hi t hst
      have hno := fun hq => hins _ ((hc.taskFailures_inserts now h hn _).mpr
        ⟨ins, hi, t, hst, hq, rfl⟩)
      exact ⟨fun he => hno (.inl he), fun he => hno (.inr he)⟩
  · intro hf
    refine ⟨fun c hne => List.eq_nil_iff_forall_not_mem.mpr fun r hr => ?_,
      fun c _ => taskFailures_docs now c⟩
    cases c with
    | claims => exact hne rfl
    | arrives => cases hr
    | deletes =>
      have := (hc.taskFailures_deletes now h hn r).mp hr
      exact this.2 (hf.deletes r this.1)
    | depends =>
      have := (hc.taskFailures_depends now h hn r).mp hr
      exact this.2 (hf.depends r this.1)
    | changes =>
      obtain ⟨o, ho, -, hno⟩ := (hc.taskFailures_changes now h hn r).mp hr
      exact hno (hf.changes o ho)
    | inserts =>
      obtain ⟨ins, hi, t, hst, hq, -⟩ := (hc.taskFailures_inserts now h hn r).mp hr
      rcases hq with hq | hq
      · exact (hf.inserts ins hi t hst).1 hq
      · exact (hf.inserts ins hi t hst).2 hq

end Tasks
end Prepared
end EntroQ.Eqmem
