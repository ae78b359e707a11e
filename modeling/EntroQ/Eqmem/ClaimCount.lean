import EntroQ.Eqmem.TaskHistory
import EntroQ.Foundation.Trace

/-! # The claim count of a task

A claim adds one to the count, a change that resets it takes it back to zero, and nothing else
moves it. -/

namespace EntroQ.Eqmem
open Foundation Docset

/-- A `Modify` that succeeds, and writes the task with its claims reset, or inserts it. -/
def Call.resets (s : EQMem) (id : String) : Call → Bool
  | .modify mod now => (Eqmem.modify s mod now).2.isOk &&
      (mod.resetsClaims id && id ∈ mod.written.map TaskID.id || id ∈ mod.inserts.map TaskData.id)
  | _ => false

def claimCount (s : EQMem) (id : String) : List Call → ℕ
  | [] => 0
  | c :: calls => (if c.claims s id then 1 else 0) + claimCount (c.run s).1 id calls

theorem claimCount_append (s : EQMem) (id : String) (cs cs' : List Call) :
    claimCount s id (cs ++ cs') = claimCount s id cs + claimCount (run s cs) id cs' := by
  induction cs generalizing s with
  | nil => exact (Nat.zero_add _).symm
  | cons c cs ih =>
    rw [List.cons_append, claimCount, claimCount, ih, Nat.add_assoc]
    rfl

def NoReset (s : EQMem) (id : String) : List Call → Prop :=
  Along (fun s c => (c.run s).1) (fun s c => c.resets s id = false) s

theorem Call.inserts_of_resets {s : EQMem} {id : String} {c : Call}
    (h : c.resets s id = false) : c.inserts s id = false := by
  cases c with
  | modify mod now =>
    simp only [Call.resets, Call.inserts, Bool.and_eq_false_iff, Bool.or_eq_false_iff] at h ⊢
    exact h.imp_right And.right
  | _ => rfl

section Step
variable {s s' : EQMem} {mod : Modification} {now : Time} {id : String} {t t' : Task}

theorem Committed.changed_task (h : Invariant s) (hp : (modPrep s mod false).Proper)
    (hc : Committed (modPrep s mod false) s now s') {c : TaskChange}
    (hm : c ∈ ((modPrep s mod false).changed s).changes) (ht : s.task c.task.id = some t) :
    ∃ t', s'.task c.task.id = some t' ∧ t'.queue = c.task.queue ∧
      t'.claims = if mod.resetsClaims c.task.id then 0 else t.claims := by
  have hfits := hc.passes.fits hp h.indexed
  have hafter := hp.tasksAfter now false h.indexed hfits
  obtain ⟨⟨t₀, ht₀, hq, -⟩, -⟩ := hp.covers.changed_queue h.indexed hfits hp.targets hm
  obtain rfl : t₀ = t := Option.some.inj (ht₀.symm.trans ht)
  have ho : c.origin ∈ (modPrep s mod false).origins := by
    rw [Prepared.origins, ← hp.covers.changed_origins h.indexed]
    exact List.mem_map_of_mem hm
  have hfound : ((modPrep s mod false).found s).lookup c.task.id = some t₀ := by
    rw [hp.covers.found_iff h.indexed, Prepared.mem_taskRefs, hq]
    exact ⟨ht, .inl (Prepared.mem_storedRefs c.origin (.inr (.inr ho)))⟩
  refine ⟨_, (congrFun hc.applied.task _).trans (hafter.changed c hm),
    Prepared.changedTask_queue _ _ _ _ c, ?_⟩
  simp only [Prepared.changedTask, hfound]
  rfl

/-- What a successful `Modify` writes and does not delete keeps its claim count, or has it reset. -/
theorem modify_claims (h : Invariant s) (hok : (modify s mod now).2.isOk = true)
    (ht : s.task id = some t) (ht' : (modify s mod now).1.task id = some t') :
    t'.claims =
      if mod.resetsClaims id && id ∈ mod.written.map TaskID.id then 0 else t.claims := by
  rcases modify_ok_cases h hok with ⟨hno, hr⟩ | ⟨s', hp, hr, hc⟩
  · obtain ⟨-, h2, h3, -, h5⟩ := hno.tasks
    rw [hr, ht] at ht'
    cases ht'
    simp [Modification.written, h2, h3, h5]
  · rw [hr] at ht'
    by_cases hw : id ∈ mod.written.map TaskID.id
    · obtain ⟨r, hrw, rfl⟩ := List.mem_map.mp hw
      rw [Modification.written, List.append_assoc, List.mem_append] at hrw
      rcases hrw with hdel | hchg
      · have hafter := hp.tasksAfter now false h.indexed (hc.passes.fits hp h.indexed)
        rw [(congrFun hc.applied.task _).trans (hafter.deleted r hdel)] at ht'
        cases ht'
      · change r ∈ (modPrep s mod false).origins at hchg
        rw [Prepared.origins, ← hp.covers.changed_origins h.indexed] at hchg
        obtain ⟨c, hcm, rfl⟩ := List.mem_map.mp hchg
        obtain ⟨t₁, ht₁, -, hclaims⟩ := hc.changed_task h hp hcm ht
        cases ht'.symm.trans ht₁
        rw [hclaims]
        simp only [hw, decide_true, Bool.and_true]
        rfl
    · by_cases hi : id ∈ mod.inserts.map TaskData.id
      · obtain ⟨ins, hins, rfl⟩ := List.mem_map.mp hi
        rw [hc.fresh ins hins] at ht
        cases ht
      · rw [hc.task_kept h hp hw hi, ht] at ht'
        cases ht'
        simp [hw]

theorem modify_changed (h : Invariant s) (hok : (modify s mod now).2.isOk = true) {c : TaskChange}
    (hc : c ∈ mod.changes) (hreset : mod.resetsClaims c.task.id = true) :
    ∃ t', (modify s mod now).1.task c.task.id = some t' ∧ t'.queue = c.task.queue ∧
      t'.claims = 0 := by
  rcases modify_ok_cases h hok with ⟨hno, -⟩ | ⟨s', hp, hr, hcom⟩
  · rw [hno.tasks.2.1] at hc
    cases hc
  · have hw : c.origin ∈ mod.written := by
      simp only [Modification.written, List.mem_append, List.mem_map]
      exact .inl (.inr ⟨c, hc, rfl⟩)
    obtain ⟨⟨t, ht, -⟩, -⟩ := hcom.written h hp hw
    obtain ⟨t', ht', hq, hclaims⟩ :=
      hcom.changed_task h hp ((Prepared.mem_changed c).mpr (.inl hc)) ht
    rw [if_pos hreset] at hclaims
    rw [hr]
    exact ⟨t', ht', hq, hclaims⟩

theorem modify_inserted (h : Invariant s) (hok : (modify s mod now).2.isOk = true) {td : TaskData}
    (htd : td ∈ mod.inserts) :
    ∃ t', (modify s mod now).1.task td.id = some t' ∧ t'.claims = 0 := by
  rcases modify_ok_cases h hok with ⟨hno, -⟩ | ⟨s', hp, hr, hcom⟩
  · rw [hno.tasks.1] at htd
    cases htd
  · have hafter := hp.tasksAfter now false h.indexed (hcom.passes.fits hp h.indexed)
    rw [hr]
    exact ⟨_, (congrFun hcom.applied.task td.id).trans (hafter.inserted td htd), rfl⟩

/-- A claim adds one, a reset takes the count to zero, and any other call keeps it. -/
theorem Call.claims_step (h : Invariant s) (call : Call) (ht : s.task id = some t)
    (ht' : (call.run s).1.task id = some t') (hno : call.resets s id = false) :
    t'.claims = if call.claims s id then t.claims + 1 else t.claims := by
  cases call.taskEvent h id with
  | kept same unmodified unclaimed =>
    rw [same, ht] at ht'
    cases ht'
    rw [if_neg (by simp [unclaimed])]
  | inserted t₁ before after call_inserts =>
    rw [ht] at before
    cases before
  | claimed cq attempts a c t₁ call_eq visit returned before arrived task after =>
    cases ht.symm.trans before
    cases ht'.symm.trans after
    subst call_eq
    have hid : c.task.id = id := by
      rw [task]
      exact (h.indexed.task_named ht).1
    rw [if_pos (by simp [Call.claims, returned, hid]), task]
    rfl
  | modified mod now r t₁ call_eq names named before queue version free call_modifies after =>
    subst call_eq
    have hok : (Eqmem.modify s mod now).2.isOk = true := by
      simp only [Call.modifies, Bool.and_eq_true] at call_modifies
      exact call_modifies.1
    have hkeep := modify_claims h hok ht ht'
    simp only [Call.resets, hok, Bool.true_and, Bool.or_eq_false_iff] at hno
    rw [hno.1] at hkeep
    exact hkeep

theorem Call.claimed_stored (h : Invariant s) {call : Call} (hc : call.claims s id = true) :
    ∃ cq attempts c t, call = .tryClaim cq attempts ∧
      (Eqmem.tryClaim s cq attempts).2 = .ok (some c) ∧ s.task id = some t ∧
      c.task.id = id ∧ c.task.queue = t.queue ∧ c.task.claims = t.claims + 1 ∧
      c.task.attempt = t.attempt ∧ (call.run s).1.task id = some c.task := by
  cases call.taskEvent h id with
  | kept same unmodified unclaimed =>
    rw [unclaimed] at hc
    cases hc
  | claimed cq attempts a c t call_eq visit returned before arrived task after =>
    refine ⟨cq, attempts, c, t, call_eq, returned, before, ?_, ?_, ?_, ?_, after⟩
    · rw [task]
      exact (h.indexed.task_named before).1
    · rw [task]
      rfl
    · rw [task]
      rfl
    · rw [task]
      rfl
  | inserted t before after call_inserts =>
    cases call with
    | tryClaim => cases call_inserts
    | _ => cases hc
  | modified mod now r t call_eq names named before queue version free call_modifies after =>
    subst call_eq
    cases hc

end Step

/-! ## Runs -/

/-- The task, if it is there, has been claimed so often since its count was reset. -/
def CountIs (s : EQMem) (id : String) (k : ℕ) : Prop :=
  ∀ t, s.task id = some t → t.claims = Int32.ofNat k

section Runs
variable {s : EQMem} {id : String} {k : ℕ}

theorem Call.countIs_step (h : Invariant s) (hk : CountIs s id k) {call : Call}
    (hno : call.resets s id = false) :
    CountIs (call.run s).1 id (k + if call.claims s id then 1 else 0) := by
  intro t' ht'
  cases ht : s.task id with
  | some t =>
    rw [call.claims_step h ht ht' hno, hk t ht]
    split_ifs
    · rw [Int32.ofNat_add]
      rfl
    · rfl
  | none =>
    -- only an insert brings the task back, and that is a reset
    cases (Call.gone_step h ht (Call.inserts_of_resets hno)).symm.trans ht'

theorem countIs_run (h : Invariant s) (hk : CountIs s id k) (calls : List Call)
    (hno : NoReset s id calls) :
    CountIs (run s calls) id (k + claimCount s id calls) := by
  induction calls generalizing s k with
  | nil => exact hk
  | cons c calls ih =>
    rw [claimCount, ← Nat.add_assoc]
    exact ih (c.run_invariant h) (c.countIs_step h hk hno.1) hno.2

theorem Call.countIs_reset (h : Invariant s) {call : Call} (hr : call.resets s id = true) :
    CountIs (call.run s).1 id 0 := by
  intro t' ht'
  cases call with
  | modify mod now =>
    simp only [Call.resets, Bool.and_eq_true, Bool.or_eq_true] at hr
    obtain ⟨hok, hr⟩ := hr
    change (Eqmem.modify s mod now).1.task id = some t' at ht'
    rcases hr with hr | hins
    · obtain ⟨r, hrw, rfl⟩ := List.mem_map.mp (of_decide_eq_true hr.2)
      cases ht : s.task r.id with
      | some t =>
        rw [modify_claims h hok ht ht', if_pos (by simpa using hr)]
        rfl
      | none =>
        obtain ⟨t, ht₁, -⟩ := (modify_written h hok hrw)
        rw [ht] at ht₁
        cases ht₁
    · obtain ⟨td, htd, rfl⟩ := List.mem_map.mp (of_decide_eq_true hins)
      obtain ⟨t₁, ht₁, hclaims⟩ := modify_inserted h hok htd
      cases ht'.symm.trans ht₁
      exact hclaims
  | _ => cases hr

end Runs

end EntroQ.Eqmem
