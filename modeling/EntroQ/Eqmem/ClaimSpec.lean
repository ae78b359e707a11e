import EntroQ.Eqmem.Apply
import EntroQ.Eqmem.Claim

/-! # What a task claim does

A claim finds nothing and changes nothing, or takes one task that was available: the task is
stored again with its new lease, and everything else stays. -/

namespace EntroQ.Eqmem
open Foundation Docset

theorem QLock.Valid.claimItem {ql : QLock} (hv : ql.Valid) {now : Time} {draws : ℕ → ℕ} {p : ℕ}
    (hr : ql.heap.randomAvailable now draws = some p) (claimant : String) (newAt : Time) :
    ∃ old ql', ql.task old.id = some old ∧ old.atTime ≤ now ∧
      ql.claimItem p claimant newAt now = some (ql', claimedTask claimant newAt now old) ∧
      ql'.Valid ∧ ql'.queue = ql.queue ∧
      ∀ id, ql'.task id =
        if id = old.id then some (claimedTask claimant newAt now old) else ql.task id := by
  obtain ⟨at_, hp, ha, hle⟩ := hv.holds.randomAvailable hr
  obtain ⟨old, hold, rfl⟩ := Option.map_eq_some_iff.mp ha
  obtain ⟨hid, hq⟩ := hv.named _ _ hold
  let t' := claimedTask claimant newAt now old
  let tasks' : TaskQueue := { ql.tasks with byID := ql.tasks.byID.insert (ql.heap.cell p).id t' }
  let ql' : QLock := { ql with heap := ql.heap.updateItem p newAt, tasks := tasks' }
  have htask : ∀ id, ql'.task id = if id = old.id then some t' else ql.task id := by
    intro id
    rw [hid]
    exact FMap.lookup_insert _ _ _ _
  refine ⟨old, ql', hid.symm ▸ hold, hle, ?_, ⟨?_, ?_, ?_⟩, rfl, htask⟩
  · have hlook : ql.tasks.byID.lookup (ql.heap.cell p).id = some old := hold
    simp [QLock.claimItem, QLock.task, TaskQueue.update, hlook, ql', tasks', t']
  · intro id t h
    rw [htask] at h
    split_ifs at h with he
    · cases h
      exact ⟨he.symm, hq⟩
    · exact hv.named id t h
  · change ql.tasks.size = ((ql.tasks.byID.insert (ql.heap.cell p).id t').keys.card : ℤ)
    rw [FMap.card_keys_insert_of_mem _ _ _ _ hold]
    exact hv.size
  · rw [QLock.arrivals_insert ql ql' t' htask]
    change ClaimHeap.Holds (ql.heap.updateItem p newAt)
      (Function.update ql.arrivals old.id (some newAt))
    rw [hid]
    exact hv.holds.updateItem hp newAt

structure TookTask (s : EQMem) (cq : ClaimQuery) (a : Attempt) (s' : EQMem) (c : Claimed)
    (old : Task) : Prop where
  stored : s.task old.id = some old
  queue : old.queue = a.q
  available : old.atTime ≤ a.now
  task : c.task = claimedTask cq.claimant (a.now + cq.duration) a.now old
  entry : c.entry = claimEntry cq.claimant c.task
  table : s'.task = Function.update s.task old.id (some c.task)
  sound : s'.Sound
  docs : EQMem.SameDocs s s'

theorem mustTryClaimOne_cases {s : EQMem} (h : s.Sound) (cq : ClaimQuery) (a : Attempt) :
    mustTryClaimOne s a.q cq a.now a.draws = (s, .ok none) ∨
      ∃ s' c old, mustTryClaimOne s a.q cq a.now a.draws = (s', .ok (some c)) ∧
        TookTask s cq a s' c old := by
  unfold mustTryClaimOne
  by_cases hlen : queueLen s a.q = 0
  · exact .inl (if_pos hlen)
  rw [if_neg hlen]
  obtain ⟨hil, htl⟩ := h.indexed.lockQueues [a.q]
  obtain ⟨ql, hql⟩ := EQMem.lockQueues_present (s := s) [a.q] (List.mem_singleton_self a.q)
  obtain ⟨hname, hv⟩ := hil.queues _ _ hql
  dsimp only
  rw [hql]
  dsimp only
  cases hr : ql.heap.randomAvailable a.now a.draws with
  | none =>
    refine .inl (Prod.ext ?_ rfl)
    exact h.unlock_lock [a.q] []
  | some p =>
    obtain ⟨old, ql', hold, hle, hclaim, hv', hname', htask⟩ :=
      hv.claimItem hr cq.claimant (a.now + cq.duration)
    have hstored : (s.lockQueues [a.q]).stored a.q old.id = some old := by
      rw [EQMem.stored, hql]
      exact hold
    obtain ⟨hto, hqo⟩ := (hil.stored_iff _ _ _).mp hstored
    obtain ⟨-, hqn, hin⟩ := hil.task_named hto
    have hindex : ∀ id, s.qByID.lookup id =
        if id = old.id then some a.q else s.qByID.lookup id := by
      intro id
      split_ifs with hid
      · rw [hid]
        exact (hil.qByID_eq old.id).trans (by rw [hto]; exact congrArg some hqo)
      · rfl
    let s₁ : EQMem :=
      { s.lockQueues [a.q] with queues := (s.lockQueues [a.q]).queues.insert a.q ql' }
    obtain ⟨hi₁, ht₁⟩ : s₁.Indexed ∧ s₁.task = Function.update (s.lockQueues [a.q]).task old.id
        (some (claimedTask cq.claimant (a.now + cq.duration) a.now old)) :=
      hil.replace hql hv' (hname'.trans hname) htask (fun _ => ⟨hqo ▸ hqn, hin⟩)
        (fun o ho => by rw [hto] at ho; cases ho; exact hqo) hindex
    have hq₁ : ∀ q, q ∉ [a.q] → s₁.queues.lookup q = s.queues.lookup q := by
      intro q hq
      rw [List.mem_singleton] at hq
      change ((s.lockQueues [a.q]).queues.insert a.q ql').lookup q = _
      rw [FMap.lookup_insert, if_neg hq]
      exact (Registry.lookup_acquire newQLock [a.q] s.queues q).trans
        (if_neg (by simpa using hq))
    obtain ⟨hs, ht, hd⟩ := h.unlock s₁ [a.q] [] hi₁ ⟨h.docs.valid⟩ h.docIDs
      h.locks hq₁ (fun _ _ => rfl)
    dsimp only
    rw [hclaim]
    refine .inr ⟨_, _, old, rfl, ?_⟩
    exact
      { stored := htl ▸ hto
        queue := hqo
        available := hle
        task := rfl
        entry := rfl
        table := by rw [← htl]; exact ht.trans ht₁
        sound := hs
        docs := ⟨hd.docAt, hd.lock?, hd.count⟩ }

theorem tryQueues_cases {s : EQMem} (h : s.Sound) (cq : ClaimQuery) (attempts : List Attempt) :
    tryQueues cq s attempts = (s, .ok none) ∨
      ∃ a ∈ attempts, ∃ s' c old, tryQueues cq s attempts = (s', .ok (some c)) ∧
        TookTask s cq a s' c old := by
  induction attempts with
  | nil => exact .inl rfl
  | cons a rest ih =>
    rcases mustTryClaimOne_cases h cq a with hn | ⟨s', c, old, hs, ht⟩
    · have hnext : tryQueues cq s (a :: rest) = tryQueues cq s rest := by rw [tryQueues, hn]
      rw [hnext]
      rcases ih with hr | ⟨a', ha', hr⟩
      · exact .inl hr
      · exact .inr ⟨a', List.mem_cons_of_mem _ ha', hr⟩
    · refine .inr ⟨a, List.mem_cons_self, s', c, old, ?_, ht⟩
      rw [tryQueues, hs]

/-- A call of `TryClaim` is refused, finds nothing, or takes a task; it never panics. -/
theorem tryClaim_cases {s : EQMem} (h : s.Sound) (cq : ClaimQuery) (attempts : List Attempt) :
    (∃ e, tryClaim s cq attempts = (s, .error (.invalid e))) ∨
    tryClaim s cq attempts = (s, .ok none) ∨
      ∃ a ∈ attempts, ∃ s' c old, tryClaim s cq attempts = (s', .ok (some c)) ∧
        Validate.claim cq = none ∧ TookTask s cq a s' c old := by
  unfold tryClaim
  cases hv : Validate.claim cq with
  | some e => exact .inl ⟨e, rfl⟩
  | none =>
    rcases tryQueues_cases h cq attempts with hr | ⟨a, ha, s', c, old, hr, ht⟩
    · exact .inr (.inl hr)
    · exact .inr (.inr ⟨a, ha, s', c, old, hr, rfl, ht⟩)

end EntroQ.Eqmem
