import EntroQ.Eqmem.Report

/-! # The history of a task

What a call can do to the task of an ID: nothing, insert it where there is none, claim it once it
has arrived, or change or delete it at the version it has. From this one step come the two
guarantees a claimant relies on: no one else touches a task while it is claimed, and of all
modifications that name one version of it only one can succeed. -/

namespace EntroQ.Eqmem
open Foundation Docset

namespace Call
variable (s : EQMem) (id : String)

/-- A `Modify` that succeeds, and changes, deletes or rearrives the task. -/
def modifies : Call → Bool
  | .modify mod now => (Eqmem.modify s mod now).2.isOk && id ∈ mod.written.map TaskID.id
  | _ => false

/-- A `Modify` that succeeds, and deletes the task. -/
def deletes : Call → Bool
  | .modify mod now => (Eqmem.modify s mod now).2.isOk && id ∈ mod.deletes.map TaskID.id
  | _ => false

/-- A `Modify` that succeeds, and inserts the task. -/
def inserts : Call → Bool
  | .modify mod now => (Eqmem.modify s mod now).2.isOk && id ∈ mod.inserts.map TaskData.id
  | _ => false

/-- A `TryClaim` that returns the task. -/
def claims : Call → Bool
  | .tryClaim cq attempts =>
    match (Eqmem.tryClaim s cq attempts).2 with
    | .ok (some c) => c.task.id = id
    | _ => false
  | _ => false

end Call

inductive TaskEvent (s : EQMem) (id : String) (call : Call) (s' : EQMem) : Prop
  | kept (same : s'.task id = s.task id) (unmodified : call.modifies s id = false)
      (unclaimed : call.claims s id = false)
  | inserted (t : Task) (before : s.task id = none) (after : s'.task id = some t)
      (call_inserts : call.inserts s id = true)
  | claimed (cq : ClaimQuery) (attempts : List Attempt) (a : Attempt) (c : Claimed) (t : Task)
      (call_eq : call = .tryClaim cq attempts) (visit : a ∈ attempts)
      (returned : (tryClaim s cq attempts).2 = .ok (some c))
      (before : s.task id = some t) (arrived : t.atTime ≤ a.now)
      (task : c.task = claimedTask cq.claimant (a.now + cq.duration) a.now t)
      (after : s'.task id = some c.task)
  | modified (mod : Modification) (now : Time) (r : TaskID) (t : Task)
      (call_eq : call = .modify mod now) (names : r ∈ mod.written) (named : r.id = id)
      (before : s.task id = some t) (queue : t.queue = r.queue) (version : t.version = r.version)
      (free : ¬s.HeldByOther mod.claimant now r)
      (call_modifies : call.modifies s id = true)
      (after : (s'.task id = none ∧ call.deletes s id = true) ∨
        ∃ t', s'.task id = some t' ∧ t'.version = t.version + 1)

section Step
variable {s s' : EQMem} {mod : Modification} {now : Time}

theorem Committed.written (h : Invariant s) (hp : (modPrep s mod false).Proper)
    (hc : Committed (modPrep s mod false) s now s') {r : TaskID} (hr : r ∈ mod.written) :
    s.HasTask r ∧ ¬s.HeldByOther mod.claimant now r := by
  have hs := (passes_iff_satisfiable h hp).mp hc.passes
  simp only [Modification.written, List.mem_append, List.mem_map] at hr
  rcases hr with (hr | ⟨c, hc, rfl⟩) | ⟨a, ha, rfl⟩
  · exact hs.deletes r hr
  · exact hs.changes c hc
  · exact hs.arrives a ha

/-- A change or an arrival stores the task at its next version. -/
theorem Committed.task_changed (h : Invariant s) (hp : (modPrep s mod false).Proper)
    (hc : Committed (modPrep s mod false) s now s') {r : TaskID}
    (hr : r ∈ (modPrep s mod false).origins) :
    ∃ t', s'.task r.id = some t' ∧ t'.version = r.version + 1 := by
  have hafter := hp.tasksAfter now false h.indexed (hc.passes.fits hp h.indexed)
  rw [Prepared.origins, ← hp.covers.changed_origins h.indexed] at hr
  obtain ⟨c, hc', rfl⟩ := List.mem_map.mp hr
  refine ⟨_, (congrFun hc.applied.task _).trans (hafter.changed c hc'), ?_⟩
  exact Prepared.changedTask_version _ _ _ _ c

theorem Committed.task_kept (h : Invariant s) (hp : (modPrep s mod false).Proper)
    (hc : Committed (modPrep s mod false) s now s') {id : String}
    (hw : id ∉ mod.written.map TaskID.id) (hi : id ∉ mod.inserts.map TaskData.id) :
    s'.task id = s.task id := by
  have hafter := hp.tasksAfter now false h.indexed (hc.passes.fits hp h.indexed)
  rw [Modification.written, List.append_assoc, List.map_append, List.mem_append, not_or] at hw
  exact (congrFun hc.applied.task id).trans (hafter.others id hw.1 hw.2 hi)

/-- A `Modify` that succeeds names no task and writes nothing, or commits. -/
theorem modify_ok_cases (h : Invariant s) (hok : (modify s mod now).2.isOk = true) :
    (Nowhere mod ∧ modify s mod now = (s, .ok {})) ∨
    ∃ s', (modPrep s mod false).Proper ∧
      modify s mod now =
        (s', .ok { resp := (modPrep s mod false).response s now false
                   entry := some ((modPrep s mod false).journalEntry s now false) }) ∧
      Committed (modPrep s mod false) s now s' := by
  rcases modify_cases h.toSound mod now with ⟨f, -, hr⟩ | ⟨⟨hv, hp⟩, ⟨hs, hr⟩ | ⟨s', hr, hc⟩⟩
  · rw [hr] at hok
    cases hok
  · exact .inl ⟨nowhere_of_shortCircuits hv hs, hr⟩
  · exact .inr ⟨s', hp, hr, hc⟩

theorem modify_taskEvent (h : Invariant s) (mod : Modification) (now : Time) (id : String) :
    TaskEvent s id (.modify mod now) (modify s mod now).1 := by
  rcases modify_cases h.toSound mod now with ⟨f, -, hr⟩ | ⟨⟨hv, hp⟩, ⟨hs, hr⟩ | ⟨s', hr, hc⟩⟩
  · refine .kept (by rw [hr]) ?_ rfl
    simp [Call.modifies, hr, Except.isOk, Except.toBool]
  · obtain ⟨-, h2, h3, -, h5⟩ := (nowhere_of_shortCircuits hv hs).tasks
    refine .kept (by rw [hr]) ?_ rfl
    simp [Call.modifies, Modification.written, h2, h3, h5]
  · have hok : (modify s mod now).2.isOk = true := by rw [hr]; rfl
    rw [hr]
    by_cases hw : id ∈ mod.written.map TaskID.id
    · obtain ⟨r, hrw, rfl⟩ := List.mem_map.mp hw
      obtain ⟨⟨t, ht, hq, hver⟩, hfree⟩ := hc.written h hp hrw
      refine .modified mod now r t rfl hrw rfl ht hq hver hfree
        (by simp [Call.modifies, hok, hw]) ?_
      rw [Modification.written, List.append_assoc, List.mem_append] at hrw
      rcases hrw with hdel | hchg
      · have hafter := hp.tasksAfter now false h.indexed (hc.passes.fits hp h.indexed)
        refine .inl ⟨(congrFun hc.applied.task _).trans (hafter.deleted r hdel), ?_⟩
        simp only [Call.deletes, hok, Bool.true_and, decide_eq_true_eq]
        exact List.mem_map_of_mem hdel
      · obtain ⟨t', ht', hver'⟩ := hc.task_changed h hp hchg
        exact .inr ⟨t', ht', by rw [hver', hver]⟩
    · by_cases hi : id ∈ mod.inserts.map TaskData.id
      · obtain ⟨ins, hins, rfl⟩ := List.mem_map.mp hi
        have hafter := hp.tasksAfter now false h.indexed (hc.passes.fits hp h.indexed)
        refine .inserted _ (hc.fresh ins hins)
          ((congrFun hc.applied.task _).trans (hafter.inserted ins hins)) ?_
        simp only [Call.inserts, hok, Bool.true_and, decide_eq_true_eq]
        exact hi
      · refine .kept (hc.task_kept h hp hw hi) ?_ rfl
        simp only [Call.modifies, hw, decide_false, Bool.and_false]

theorem tryClaim_taskEvent (h : Invariant s) (cq : ClaimQuery) (attempts : List Attempt)
    (id : String) : TaskEvent s id (.tryClaim cq attempts) (tryClaim s cq attempts).1 := by
  rcases tryClaim_cases h.toSound cq attempts with ⟨e, hr⟩ | hr | ⟨a, ha, s', c, t, hr, -, ht⟩
  · exact .kept (by rw [hr]) rfl (by simp [Call.claims, hr])
  · exact .kept (by rw [hr]) rfl (by simp [Call.claims, hr])
  · have hid : c.task.id = t.id := by rw [ht.task]; rfl
    by_cases he : t.id = id
    · subst he
      refine .claimed cq attempts a c t rfl ha (by rw [hr]) ht.stored ht.available ht.task ?_
      rw [hr, ht.table, Function.update_self]
    · refine .kept ?_ rfl (by simp [Call.claims, hr, hid, he])
      rw [hr, ht.table, Function.update_of_ne (Ne.symm he)]

/-- A call keeps a task, inserts it, claims it after its arrival, or writes it at its version. -/
theorem Call.taskEvent (h : Invariant s) (call : Call) (id : String) :
    TaskEvent s id call (call.run s).1 := by
  cases call with
  | modify mod now => exact modify_taskEvent h mod now id
  | tryClaim cq attempts => exact tryClaim_taskEvent h cq attempts id
  | claimDocs cq now =>
    refine .kept ?_ rfl rfl
    rcases claimDocs_cases h.toSound cq now with ⟨f, hr, -⟩ | ⟨until_, s', r, hr, ht⟩
    · change (Eqmem.claimDocs s cq now).1.task id = _
      rw [hr]
    · change (Eqmem.claimDocs s cq now).1.task id = _
      rw [hr, ht.task]
  | docs rq => exact .kept rfl rfl rfl
  | tasks tq now order => exact .kept rfl rfl rfl
  | collectLocks names now batch =>
    refine .kept ?_ rfl rfl
    obtain ⟨new, -, hc⟩ := collectLocksOnce_spec h.toSound names now batch
    exact congrFun hc.task id

end Step

/-! ## Exclusive claims -/

section Exclusive
variable {s : EQMem} {id : String} {t : Task}

/-- While a task is held, a call that its holder does not write it with leaves it alone. -/
theorem Call.keeps_held (h : Invariant s) (ht : s.task id = some t) (hheld : t.claimant ≠ "")
    (call : Call) (hclock : ∀ now ∈ call.clock, now < t.atTime)
    (hown : ∀ mod now, call = .modify mod now → mod.claimant = t.claimant →
      call.modifies s id = false) :
    call.modifies s id = false ∧ call.claims s id = false ∧ (call.run s).1.task id = some t := by
  cases call.taskEvent h id with
  | kept same unmodified unclaimed => exact ⟨unmodified, unclaimed, same.trans ht⟩
  | inserted t' before after call_inserts =>
    rw [ht] at before
    cases before
  | claimed cq attempts a c t' call_eq visit returned before arrived task after =>
    rw [ht] at before
    cases before
    subst call_eq
    have := hclock a.now (List.mem_map_of_mem visit)
    exact absurd arrived (not_le.mpr this)
  | modified mod now r t' call_eq names named before queue version free call_modifies after =>
    rw [ht] at before
    cases before
    have hother : mod.claimant ≠ t.claimant := by
      intro he
      rw [hown mod now call_eq he] at call_modifies
      cases call_modifies
    have hnow := hclock now (by rw [call_eq]; exact List.mem_singleton_self now)
    subst named
    exact absurd ⟨t, ht, queue, version, hnow, hheld, hother.symm⟩ free

theorem run_keeps_held (h : Invariant s) (ht : s.task id = some t) (hheld : t.claimant ≠ "")
    (calls : List Call) (hclock : ∀ now ∈ calls.flatMap Call.clock, now < t.atTime)
    (hown : ∀ pre mod now post, calls = pre ++ .modify mod now :: post →
      mod.claimant = t.claimant → (Call.modify mod now).modifies (run s pre) id = false) :
    (run s calls).task id = some t := by
  induction calls generalizing s with
  | nil => exact ht
  | cons c calls ih =>
    rw [List.flatMap_cons] at hclock
    obtain ⟨-, -, ht'⟩ := c.keeps_held h ht hheld (fun now hn => hclock now (List.mem_append_left _ hn))
      (fun mod now hc hm => by subst hc; exact hown [] mod now calls rfl hm)
    refine ih (c.run_invariant h) ht' (fun now hn => hclock now (List.mem_append_right _ hn)) ?_
    intro pre mod now post hcalls hm
    exact hown (c :: pre) mod now post (by rw [hcalls]; rfl) hm

theorem tryClaim_holds (h : Invariant s) {cq : ClaimQuery} {attempts : List Attempt} {c : Claimed}
    (hc : (tryClaim s cq attempts).2 = .ok (some c)) :
    (tryClaim s cq attempts).1.task c.task.id = some c.task ∧ c.task.claimant = cq.claimant ∧
      cq.claimant ≠ "" := by
  rcases tryClaim_cases h.toSound cq attempts with ⟨e, hr⟩ | hr | ⟨a, -, s', c', t, hr, hv, ht⟩
  · rw [hr] at hc
    cases hc
  · rw [hr] at hc
    cases hc
  · rw [hr] at hc
    cases hc
    rw [hr, ht.table, ht.task]
    refine ⟨Function.update_self _ _ _, rfl, fun he => ?_⟩
    unfold Validate.claim at hv
    split_ifs at hv

theorem ClockForward.append {calls : List Call} {call : Call}
    (h : ClockForward (calls ++ [call])) {now now' : Time} (hn : now ∈ calls.flatMap Call.clock)
    (hn' : now' ∈ call.clock) : now ≤ now' := by
  rw [ClockForward, List.flatMap_append, List.flatMap_singleton, List.pairwise_append] at h
  exact h.2.2 now hn now' hn'

end Exclusive

/-- Once `TryClaim` gives a task to a claimant, and until a `Modify` of that claimant writes it, a
`TryClaim` that returns the task to anyone and a `Modify` of another claimant that writes it read
the clock at the task's arrival or later. A claim stamps the task with the time it read. -/
theorem claim_exclusive (before during : List Call) (cq : ClaimQuery) (attempts : List Attempt)
    (c : Claimed) (hclaim : (tryClaim (run {} before) cq attempts).2 = .ok (some c))
    (hown : ∀ pre mod now post, during = pre ++ .modify mod now :: post →
      mod.claimant = cq.claimant →
      (Call.modify mod now).modifies (run {} (before ++ .tryClaim cq attempts :: pre))
        c.task.id = false) :
    (∀ cq' attempts' c', ClockForward (during ++ [.tryClaim cq' attempts']) →
      (tryClaim (run {} (before ++ .tryClaim cq attempts :: during)) cq' attempts').2 =
        .ok (some c') → c'.task.id = c.task.id → c.task.atTime ≤ c'.task.modified) ∧
    ∀ mod now, ClockForward (during ++ [.modify mod now]) → mod.claimant ≠ cq.claimant →
      (Call.modify mod now).modifies (run {} (before ++ .tryClaim cq attempts :: during))
        c.task.id = true → c.task.atTime ≤ now := by
  have h := run_invariant invariant_empty before
  obtain ⟨ht, hc, hne⟩ := tryClaim_holds h hclaim
  have hrun : ∀ calls, run {} (before ++ .tryClaim cq attempts :: calls) =
      run (tryClaim (run {} before) cq attempts).1 calls := fun calls => run_append {} before _
  have h' : Invariant (tryClaim (run {} before) cq attempts).1 :=
    (Call.tryClaim cq attempts).run_invariant h
  simp only [hrun] at hown ⊢
  have hheld : ∀ now, (∀ x ∈ during.flatMap Call.clock, x ≤ now) → now < c.task.atTime →
      (run (tryClaim (run {} before) cq attempts).1 during).task c.task.id = some c.task :=
    fun now hle hlt => run_keeps_held h' ht (hc ▸ hne) during
      (fun x hx => lt_of_le_of_lt (hle x hx) hlt) (hc ▸ hown)
  have hlast := run_invariant h' during
  constructor
  · intro cq' attempts' c' hclock hret hid
    by_contra hlt
    rw [not_le] at hlt
    cases tryClaim_taskEvent hlast cq' attempts' c.task.id with
    | kept same unmodified unclaimed => simp [Call.claims, hret, hid] at unclaimed
    | inserted t before after call_inserts => cases call_inserts
    | modified mod now r t call_eq names named before queue version free call_modifies after =>
      cases call_eq
    | claimed cq₁ attempts₁ a c₁ t call_eq visit returned before arrived task after =>
      cases call_eq
      rw [hret] at returned
      cases returned
      rw [task] at hlt
      rw [hheld a.now (fun x hx => hclock.append hx (List.mem_map_of_mem visit)) hlt] at before
      cases before
      exact absurd arrived (not_le.mpr hlt)
  · intro mod now hclock hother hmod
    by_contra hlt
    rw [not_le] at hlt
    have hstill := hheld now (fun x hx => hclock.append hx (List.mem_singleton_self now)) hlt
    obtain ⟨hno, -⟩ := (Call.modify mod now).keeps_held hlast hstill (hc ▸ hne)
      (fun x hx => by rw [List.mem_singleton.mp hx]; exact hlt)
      (fun mod' now' he hm => by cases he; exact absurd (hm.trans hc) hother)
    rw [hno] at hmod
    cases hmod

def workerClaim : ClaimQuery := { queues := ["q"], claimant := "w", duration := 10 }

def firstVisit (now : Time) : List Attempt := [{ q := "q", now, draws := fun _ => 0 }]

def claimedOne : Task :=
  { queue := "q", id := "t", version := 1, atTime := 16, claimant := "w", claims := 1
    created := 5, modified := 6 }

/-- Another worker's delete of the claimed task. -/
def deleteClaimed : Modification := { claimant := "v", deletes := [⟨"t", 1, "q"⟩] }

theorem claim_exclusive_worker :
    (tryClaim (run {} [.modify insertOne 5]) workerClaim (firstVisit 6)).2 =
      .ok (some ⟨claimedOne, claimEntry "w" claimedOne⟩) ∧
    ∀ now, 9 ≤ now → (Call.modify deleteClaimed now).modifies
      (run {} ([.modify insertOne 5] ++ .tryClaim workerClaim (firstVisit 6) ::
        [.modify deleteClaimed 9])) "t" = true → 16 ≤ now := by
  have hclaim : (tryClaim (run {} [.modify insertOne 5]) workerClaim (firstVisit 6)).2 =
      .ok (some ⟨claimedOne, claimEntry "w" claimedOne⟩) := by decide
  refine ⟨hclaim, fun now hnow hmod => ?_⟩
  refine (claim_exclusive [.modify insertOne 5] [.modify deleteClaimed 9] workerClaim
    (firstVisit 6) _ hclaim ?_).2 deleteClaimed now ?_ (by decide) hmod
  · intro pre mod now' post hduring hown
    cases pre with
    | nil =>
      cases hduring
      exact absurd hown (by decide)
    | cons c pre => simp at hduring
  · simpa [ClockForward, Call.clock] using hnow

/-! ## One write for each version -/

section Versions

/-- A claim, change, deletion or arrival of the task. -/
def Call.writes (s : EQMem) (id : String) (c : Call) : Bool := c.modifies s id || c.claims s id

def writeCount (s : EQMem) (id : String) : List Call → ℕ
  | [] => 0
  | c :: calls => (if c.writes s id then 1 else 0) + writeCount (c.run s).1 id calls

def NoReinsert (s : EQMem) (id : String) (calls : List Call) : Prop :=
  ∀ pre c mid c' post, calls = pre ++ c :: (mid ++ c' :: post) →
    c.deletes (run s pre) id = true → c'.inserts (run s (pre ++ c :: mid)) id = false

variable {s : EQMem} {id : String} {t t' : Task}

theorem Call.version_step (h : Invariant s) (call : Call) (ht : s.task id = some t)
    (ht' : (call.run s).1.task id = some t') :
    t'.version = if call.writes s id then t.version + 1 else t.version := by
  cases call.taskEvent h id with
  | kept same unmodified unclaimed =>
    rw [same, ht] at ht'
    cases ht'
    simp [Call.writes, unmodified, unclaimed]
  | inserted t₁ before after call_inserts =>
    rw [ht] at before
    cases before
  | claimed cq attempts a c t₁ call_eq visit returned before arrived task after =>
    rw [ht] at before
    cases before
    rw [after] at ht'
    cases ht'
    subst call_eq
    have hid : c.task.id = id := by
      rw [task]
      exact (h.indexed.task_named ht).1
    rw [if_pos (by simp [Call.writes, Call.claims, returned, hid]), task]
    rfl
  | modified mod now r t₁ call_eq names named before queue version free call_modifies after =>
    rw [ht] at before
    cases before
    rw [if_pos (by simp [Call.writes, call_modifies])]
    rcases after with ⟨hnone, -⟩ | ⟨t₂, ht₂, hver⟩
    · rw [hnone] at ht'
      cases ht'
    · rw [ht₂] at ht'
      cases ht'
      exact hver

/-- Only an insert brings a task back. -/
theorem Call.gone_step (h : Invariant s) (ht : s.task id = none) {c : Call}
    (hno : c.inserts s id = false) : (c.run s).1.task id = none := by
  cases c.taskEvent h id with
  | kept same unmodified unclaimed => exact same.trans ht
  | inserted t before after call_inserts => cases hno.symm.trans call_inserts
  | claimed cq attempts a c t call_eq visit returned before => cases ht.symm.trans before
  | modified mod now r t call_eq names named before => cases ht.symm.trans before

/-- Only a deletion takes a task away. -/
theorem Call.stays_step (h : Invariant s) (ht : s.task id ≠ none) {c : Call}
    (hno : c.deletes s id = false) : (c.run s).1.task id ≠ none := by
  cases c.taskEvent h id with
  | kept same unmodified unclaimed => rwa [same]
  | inserted t before after => simp [after]
  | claimed cq attempts a c t call_eq visit returned before arrived task after => simp [after]
  | modified mod now r t call_eq names named before queue version free call_modifies after =>
    rcases after with ⟨-, hd⟩ | ⟨t', after, -⟩
    · cases hno.symm.trans hd
    · simp [after]

/-- A task that is gone stays away until it is inserted. -/
theorem run_gone (h : Invariant s) (ht : s.task id = none) (calls : List Call)
    (hno : ∀ pre c post, calls = pre ++ c :: post → c.inserts (run s pre) id = false) :
    (run s calls).task id = none := by
  induction calls generalizing s with
  | nil => exact ht
  | cons c calls ih =>
    refine ih (c.run_invariant h) (Call.gone_step h ht (hno [] c calls rfl))
      fun pre c' post hcalls => ?_
    exact hno (c :: pre) c' post (by rw [hcalls]; rfl)

theorem version_run (h : Invariant s) (ht : s.task id = some t) (calls : List Call)
    (hno : NoReinsert s id calls) :
    (run s calls).task id = none ∨ ∃ t', (run s calls).task id = some t' ∧
      t'.version = t.version + Int32.ofNat (writeCount s id calls) := by
  induction calls generalizing s t with
  | nil => exact .inr ⟨t, ht, by simp [writeCount]⟩
  | cons c calls ih =>
    cases ht₁ : (c.run s).1.task id with
    | some t₁ =>
      have hver := c.version_step h ht ht₁
      rcases ih (c.run_invariant h) ht₁ (fun pre c₁ mid c₂ post hcalls =>
          hno (c :: pre) c₁ mid c₂ post (by rw [hcalls]; rfl)) with hgone | ⟨t', ht', hv'⟩
      · exact .inl hgone
      · refine .inr ⟨t', ht', ?_⟩
        rw [hv', hver, writeCount]
        split_ifs
        · rw [Int32.ofNat_add, ← Int32.add_assoc]
          rfl
        · rw [Nat.zero_add]
    | none =>
      have hdel : c.deletes s id = true := by
        by_contra hdel
        exact Call.stays_step h (by simp [ht]) (Bool.eq_false_iff.mpr hdel) ht₁
      refine .inl (run_gone (c.run_invariant h) ht₁ calls fun pre c' post hcalls => ?_)
      exact hno [] c pre c' post (by rw [hcalls]; rfl) hdel

/-- What a successful `Modify` writes is stored as it names it. -/
theorem modify_written (h : Invariant s) {mod : Modification} {now : Time}
    (hok : (modify s mod now).2.isOk = true) {r : TaskID} (hr : r ∈ mod.written) :
    s.HasTask r := by
  rcases modify_ok_cases h hok with ⟨hno, -⟩ | ⟨s', hp, -, hc⟩
  · obtain ⟨-, h2, h3, -, h5⟩ := hno.tasks
    simp [Modification.written, h2, h3, h5] at hr
  · exact (hc.written h hp hr).1

theorem add_ofNat_ne (v : Int32) {n : ℕ} (h0 : 0 < n) (hn : n < 2 ^ 32) :
    v + Int32.ofNat n ≠ v := by
  intro he
  have hz : Int32.ofNat n = 0 := by
    have := congrArg (fun x => -v + x) he
    simpa [← Int32.add_assoc, Int32.add_left_neg] using this
  have hmod := congrArg (fun x => x.toBitVec.toNat) hz
  rw [Int32.toBitVec_ofNat', BitVec.toNat_ofNat] at hmod
  change n % 2 ^ 32 = 0 at hmod
  omega

end Versions

/-- Over a run that does not insert the ID of a deleted task again, a claim, a change or an arrival
of a stored task moves its version by 1, in 32 bits, and nothing else moves it; and from one
successful modification that writes the task at a version to the next one that names the same
version there are at least 2^32 writes of the task. -/
theorem version_history (calls : List Call) (id : String) (hno : NoReinsert {} id calls) :
    (∀ pre c post t t', calls = pre ++ c :: post → (run {} pre).task id = some t →
      (run {} (pre ++ [c])).task id = some t' →
      t'.version = if c.writes (run {} pre) id then t.version + 1 else t.version) ∧
    ∀ pre mod now mid mod' now' post r r',
      calls = pre ++ .modify mod now :: (mid ++ .modify mod' now' :: post) →
      (modify (run {} pre) mod now).2.isOk = true → r ∈ mod.written → r.id = id →
      (modify (run {} (pre ++ .modify mod now :: mid)) mod' now').2.isOk = true →
      r' ∈ mod'.written → r'.id = id → r'.version = r.version →
      2 ^ 32 ≤ writeCount (run {} pre) id (.modify mod now :: mid) := by
  constructor
  · intro pre c post t t' hcalls ht ht'
    have h := run_invariant invariant_empty pre
    rw [run_append] at ht'
    exact c.version_step h ht ht'
  · intro pre mod now mid mod' now' post r r' hcalls hok hr hid hok' hr' hid' hver
    have h := run_invariant invariant_empty pre
    have h' := run_invariant invariant_empty (pre ++ .modify mod now :: mid)
    obtain ⟨t, ht, -, hv⟩ := modify_written h hok hr
    obtain ⟨t', ht', -, hv'⟩ := modify_written h' hok' hr'
    rw [hid] at ht
    rw [hid', run_append] at ht'
    by_contra hlt
    rw [not_le] at hlt
    have hcount : 0 < writeCount (run {} pre) id (.modify mod now :: mid) := by
      have hmod : (Call.modify mod now).writes (run {} pre) id = true := by
        simp only [Call.writes, Call.modifies, hok, Bool.true_and, Bool.or_eq_true,
          decide_eq_true_eq]
        exact .inl (hid ▸ List.mem_map_of_mem hr)
      rw [writeCount, if_pos hmod]
      omega
    have hpart : NoReinsert (run {} pre) id (.modify mod now :: mid) := by
      intro pre' c₁ mid' c₂ post' hsplit
      rw [← run_append, ← run_append, ← List.append_assoc]
      refine hno (pre ++ pre') c₁ mid' c₂ (post' ++ .modify mod' now' :: post) ?_
      rw [hcalls, ← List.cons_append, hsplit]
      simp only [List.append_assoc, List.cons_append]
    rcases version_run h ht (.modify mod now :: mid) hpart with hgone | ⟨t₂, ht₂, hv₂⟩
    · rw [ht'] at hgone
      cases hgone
    · rw [ht'] at ht₂
      cases ht₂
      exact add_ofNat_ne t.version hcount hlt (by rw [← hv₂, hv', hver, hv])

theorem noReinsert_of_keeps {s : EQMem} {id : String} {calls : List Call}
    (h : ∀ c ∈ calls, ∀ s, c.deletes s id = false) : NoReinsert s id calls := by
  intro pre c mid c' post hcalls hdel
  rw [h c (by rw [hcalls]; simp)] at hdel
  cases hdel

theorem version_history_worker :
    NoReinsert {} "t" [.modify insertOne 5, .tryClaim workerClaim (firstVisit 6)] ∧
      ∀ t t', (run {} [.modify insertOne 5]).task "t" = some t →
        (run {} [.modify insertOne 5, .tryClaim workerClaim (firstVisit 6)]).task "t" = some t' →
        t'.version = t.version + 1 := by
  have hno : NoReinsert {} "t" [.modify insertOne 5, .tryClaim workerClaim (firstVisit 6)] := by
    apply noReinsert_of_keeps
    intro c hc s
    rcases List.mem_pair.mp hc with rfl | rfl
    · simp [Call.deletes, insertOne]
    · rfl
  refine ⟨hno, fun t t' ht ht' => ?_⟩
  have hw : (Call.tryClaim workerClaim (firstVisit 6)).writes (run {} [.modify insertOne 5]) "t" =
      true := by decide
  rw [(version_history _ "t" hno).1 [.modify insertOne 5] _ [] t t' rfl ht ht', if_pos hw]

/-! Versions come around again: a task that is changed often enough is stored once more at a
version it has had, and a second modification that names this version is made. -/

section Around
variable {s : EQMem}

def touch (v : Int32) : Modification :=
  { claimant := "w", changes := [{ task := { queue := "q", id := "t", version := v, fromQueue := "q" } }] }

def touches (n : ℕ) : List Call :=
  (List.range n).map (fun i => .modify (touch (Int32.ofNat i)) 5)

def Touchable (s : EQMem) (v : Int32) : Prop :=
  ∃ t, s.task "t" = some t ∧ t.queue = "q" ∧ t.version = v ∧ t.claimant = ""

theorem touch_validated (v : Int32) : Validate.modification (touch v) = none := rfl

theorem Touchable.touch (h : Invariant s) {v : Int32} (ht : Touchable s v) (now : Time) :
    (modify s (touch v) now).2.isOk = true ∧ Touchable (modify s (touch v) now).1 (v + 1) := by
  obtain ⟨t, ht, hq, hv, hc⟩ := ht
  have hs : Satisfiable s (Eqmem.touch v) now :=
    { inserts := nofun
      changes := fun c hcm => by
        rw [List.mem_singleton.mp hcm]
        refine ⟨⟨t, ht, hq, hv⟩, ?_⟩
        rintro ⟨t', ht', -, -, -, hne, -⟩
        cases ht.symm.trans ht'
        exact hne hc
      deletes := nofun, arrives := nofun, depends := nofun, docInserts := nofun
      docChanges := nofun, docDeletes := nofun, docDepends := nofun, docArrives := nofun }
  have hno : ¬Nowhere (Eqmem.touch v) := fun hn => by simpa [Eqmem.touch] using hn.tasks.2.1
  obtain ⟨hok, hp, hcom⟩ := modify_commits h (touch_validated v) rfl nofun hno hs
  refine ⟨hok, ?_⟩
  have hafter := hp.tasksAfter now false h.indexed (hcom.passes.fits hp h.indexed)
  refine ⟨_, (congrFun hcom.applied.task "t").trans (hafter.changed _ List.mem_cons_self), rfl, rfl, ?_⟩
  simp [Prepared.changedTask, holder, normalizeArrival]

theorem Touchable.touches (h : Invariant s) (ht : Touchable s 0) (n : ℕ) :
    Touchable (run s (touches n)) (Int32.ofNat n) := by
  induction n with
  | zero => exact ht
  | succ n ih =>
    have hrun : run s (Eqmem.touches (n + 1)) =
        (modify (run s (Eqmem.touches n)) (Eqmem.touch (Int32.ofNat n)) 5).1 := by
      rw [Eqmem.touches, List.range_succ, List.map_append, run_append]
      rfl
    rw [hrun, Int32.ofNat_add]
    exact (ih.touch (run_invariant h _) 5).2

theorem touchable_inserted : Touchable (run {} [.modify insertOne 5]) 0 :=
  ⟨{ queue := "q", id := "t", atTime := 5, created := 5, modified := 5 }, by decide,
    rfl, rfl, rfl⟩

/-- The first of the changes, and all the others. -/
theorem touches_succ (n : ℕ) :
    touches (n + 1) = .modify (touch 0) 5 :: (touches (n + 1)).tail := by
  rw [touches, List.range_succ_eq_map]
  rfl

theorem touches_keep {s : EQMem} {n : ℕ} {c : Call} (hc : c ∈ touches n) :
    c.deletes s "t" = false := by
  obtain ⟨i, -, rfl⟩ := List.mem_map.mp hc
  simp [Call.deletes, touch]

end Around

theorem version_reused : ∃ (mid : List Call) (r : TaskID),
    NoReinsert {} "t" (.modify insertOne 5 :: .modify (touch 0) 5 ::
      (mid ++ [.modify (touch 0) 5])) ∧
    r ∈ (touch 0).written ∧
    (modify (run {} [.modify insertOne 5]) (touch 0) 5).2.isOk = true ∧
    (modify (run {} (.modify insertOne 5 :: .modify (touch 0) 5 :: mid)) (touch 0) 5).2.isOk =
      true := by
  have h := run_invariant invariant_empty [.modify insertOne 5]
  obtain ⟨n, hn⟩ : ∃ n, Int32.ofNat (n + 1) = 0 := ⟨2 ^ 32 - 1, by decide⟩
  refine ⟨(touches (n + 1)).tail, ⟨"t", 0, "q"⟩, ?_, by decide, ?_, ?_⟩
  · apply noReinsert_of_keeps
    intro c hc s
    rw [← List.cons_append, ← touches_succ, List.mem_cons, List.mem_append,
      List.mem_singleton] at hc
    rcases hc with rfl | hc | rfl
    · simp [Call.deletes, insertOne]
    · exact touches_keep hc
    · simp [Call.deletes, touch]
  · exact (touchable_inserted.touch h 5).1
  · rw [← touches_succ]
    have hat := touchable_inserted.touches h (n + 1)
    rw [hn] at hat
    exact (hat.touch (run_invariant h _) 5).1

end EntroQ.Eqmem
