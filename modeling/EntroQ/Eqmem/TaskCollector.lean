import EntroQ.Client.Changes
import EntroQ.Eqmem.DocCollector
import EntroQ.Eqmem.HeapSearch
import EntroQ.Eqmem.Report
import EntroQ.Queues.GCActivation

/-! # The task collector

A pass of the task collector claims the available tasks of the queues that are due, one at a time,
and deletes each task it gets, until its batch is full. While the clock lets no other task of these
queues arrive, it deletes the tasks that were available, all of them or as many as the batch. -/

namespace EntroQ.Eqmem
open Foundation Docset Queues

/-- What a pass reads besides the store: the clock, the queues in the order they are listed, the
parser of timestamps, and at each of its claims the clock, the draws and the clock at the delete. -/
structure TaskPass where
  now : Time
  names : List String
  rfc3339Nano : GoString → Option Time
  batch : ℕ
  claimedAt : ℕ → Time
  draws : ℕ → ℕ → ℕ
  deletedAt : ℕ → Time

def TaskPass.due (pass : TaskPass) (queue : String) : Bool :=
  Queues.due pass.rfc3339Nano pass.now (text queue)

/-- How far a pass has come: the store, the tasks deleted and the claims made. -/
structure TaskProgress where
  store : EQMem
  deleted : ℕ := 0
  claims : ℕ := 0

def collectQuery (queue : String) : ClaimQuery :=
  { queues := [queue], claimant := gcClaimant, duration := defaultClaimDuration }

inductive TaskTurn
  | empty
  | again
  | failed (f : Fault)
  deriving DecidableEq

/-- Claim a task of the queue and delete it. A delete that fails for a dependency is passed over. -/
def collectTask (pass : TaskPass) (queue : String) (p : TaskProgress) : TaskProgress × TaskTurn :=
  let next := { p with claims := p.claims + 1 }
  match tryClaim p.store (collectQuery queue)
      [⟨queue, pass.claimedAt p.claims, pass.draws p.claims⟩] with
  | (s, .error f) => ({ next with store := s }, .failed f)
  | (s, .ok none) => ({ next with store := s }, .empty)
  | (s, .ok (some c)) =>
    match modify s (newModification gcClaimant [c.task.delete]) (pass.deletedAt p.claims) with
    | (s, .ok _) => ({ next with store := s, deleted := p.deleted + 1 }, .again)
    | (s, .error (.dependency _)) => ({ next with store := s }, .again)
    | (s, .error f) => ({ next with store := s }, .failed f)

/-- The turns at one queue, or nothing where `fuel` turns are not enough. -/
def collectQueue (pass : TaskPass) (queue : String) :
    ℕ → TaskProgress → Option (TaskProgress × Option Fault)
  | 0, _ => none
  | fuel + 1, p =>
    if pass.batch ≤ p.deleted then some (p, none)
    else
      match collectTask pass queue p with
      | (p, .empty) => some (p, none)
      | (p, .failed f) => some (p, some f)
      | (p, .again) => collectQueue pass queue fuel p

def collectQueues (pass : TaskPass) (fuel : ℕ) :
    List String → TaskProgress → Option (TaskProgress × Option Fault)
  | [], p => some (p, none)
  | queue :: queues, p =>
    if pass.batch ≤ p.deleted then some (p, none)
    else
      match collectQueue pass queue fuel p with
      | some (p, none) => collectQueues pass fuel queues p
      | r => r

/-- `CollectTasksOnce`: the store after the pass, how many tasks it deleted, and the error it ended
with. -/
def collectTasksOnce (s : EQMem) (pass : TaskPass) (fuel : ℕ) :
    Option (TaskProgress × Option Fault) :=
  collectQueues pass fuel (pass.names.filter pass.due) { store := s }

/-! ## A claim finds a task if there is one -/

theorem ClaimHeap.Holds.randomAvailable_none {h : ClaimHeap} {arrivals : String → Option Time}
    (hh : h.Holds arrivals) {now : Time} {draws : ℕ → ℕ} (hr : h.randomAvailable now draws = none)
    {id : String} {at_ : Time} (ha : arrivals id = some at_) : now < at_ := by
  unfold ClaimHeap.randomAvailable at hr
  rw [randAvail_eq_none_iff] at hr
  rw [hh.arrivals_eq] at ha
  obtain ⟨p, hp, rfl⟩ := Option.map_eq_some_iff.mp ha
  have hmem := ((hh.byID_iff id p).mp hp).1
  rw [items_eq_map] at hmem
  obtain ⟨k, hk, rfl⟩ := List.mem_map.mp hmem
  exact hr k ((Heap.below_root_perm (by omega)).mem_iff.mpr hk)

/-- A visit of a queue finds nothing only if none of its tasks is available. -/
theorem mustTryClaimOne_none {s : EQMem} (h : s.Sound) {q : String} {cq : ClaimQuery} {now : Time}
    {draws : ℕ → ℕ} (hr : (mustTryClaimOne s q cq now draws).2 = .ok none) {id : String} {t : Task}
    (ht : s.task id = some t) (hq : t.queue = q) : now < t.atTime := by
  have hstored : s.stored q id = some t := (h.indexed.stored_iff q id t).mpr ⟨ht, hq⟩
  unfold mustTryClaimOne at hr
  by_cases hlen : queueLen s q = 0
  · obtain ⟨ql, hql, htask⟩ := Option.bind_eq_some_iff.mp hstored
    have hv := (h.indexed.queues q ql hql).2
    rw [queueLen, hql] at hlen
    have hidle : ql.idle = true := by
      rw [QLock.idle, decide_eq_true_iff]
      exact hlen
    rw [hv.idle_iff.mp hidle id] at htask
    cases htask
  · rw [if_neg hlen] at hr
    obtain ⟨hil, -⟩ := h.indexed.lockQueues [q]
    obtain ⟨ql, hql⟩ := EQMem.lockQueues_present (s := s) [q] (List.mem_singleton_self q)
    have hv := (hil.queues q ql hql).2
    have htask : ql.task id = some t := by
      have hlocked := EQMem.stored_lockQueues (s := s) [q] q id
      rw [hstored, EQMem.stored, hql] at hlocked
      exact hlocked
    dsimp only at hr
    rw [hql] at hr
    dsimp only at hr
    cases havail : ql.heap.randomAvailable now draws with
    | none =>
      have harrives : ql.arrivals id = some t.atTime := by
        rw [QLock.arrivals, htask]
        rfl
      exact hv.holds.randomAvailable_none havail harrives
    | some p =>
      obtain ⟨old, ql', -, -, hclaim, -⟩ := hv.claimItem havail cq.claimant (now + cq.duration)
      rw [havail] at hr
      dsimp only at hr
      rw [hclaim] at hr
      cases hr

/-! ## One turn -/

section Turn
variable {s : EQMem}

theorem validate_delete (t : Task) :
    Validate.modification (newModification gcClaimant [t.delete]) = none := by
  rfl

/-- The collector's delete of a task it holds is made, and takes nothing else. -/
theorem modify_collected (h : Invariant s) {t : Task} (ht : s.task t.id = some t)
    (hc : t.claimant = gcClaimant) (now : Time) :
    ∃ s' m, modify s (newModification gcClaimant [t.delete]) now = (s', .ok m) ∧ Invariant s' ∧
      s'.task = Function.update s.task t.id none ∧ EQMem.SameDocs s s' := by
  have hsat : Satisfiable s (newModification gcClaimant [t.delete]) now := by
    refine ⟨nofun, nofun, ?_, nofun, nofun, nofun, nofun, nofun, nofun, nofun⟩
    intro r hr
    rw [List.mem_singleton.mp hr]
    refine ⟨⟨t, ht, rfl, rfl⟩, ?_⟩
    rintro ⟨t', ht', -, -, -, -, hother⟩
    obtain rfl : t = t' := Option.some.inj (ht.symm.trans ht')
    exact hother hc
  have hsome : ¬Nowhere (newModification gcClaimant [t.delete]) := fun hno => by
    simpa [newModification, Task.delete] using hno.tasks.2.2.1
  obtain ⟨hok, hp, hcommit⟩ := modify_commits h (validate_delete t) rfl nofun hsome hsat
  have hinv := Call.run_invariant h (.modify (newModification gcClaimant [t.delete]) now)
  have hafter := hp.tasksAfter now false h.indexed hsat.fits
  change Invariant (modify s (newModification gcClaimant [t.delete]) now).1 at hinv
  cases hm : modify s (newModification gcClaimant [t.delete]) now with
  | mk s' r =>
    rw [hm] at hok hcommit hinv
    cases r with
    | error f => cases hok
    | ok m =>
      refine ⟨s', m, rfl, hinv, ?_, hcommit.applied.docAt, hcommit.applied.lock?, ?_⟩
      · funext id
        rw [hcommit.applied.task]
        by_cases hid : id = t.id
        · rw [hid, Function.update_self]
          exact hafter.deleted t.idVersion (by simp [newModification, Task.delete, modPrep])
        · rw [Function.update_of_ne hid]
          apply hafter.others
          · simpa [newModification, Task.delete, modPrep, Task.idVersion] using hid
          · simp [Prepared.origins, newModification, Task.delete, modPrep]
          · simp [newModification, Task.delete, modPrep]
      · funext g
        rw [hcommit.applied.count]
        simp [Prepared.docWrites, newModification, Task.delete, modPrep]

end Turn

/-! ## A pass -/

def eligible (s : EQMem) (pass : TaskPass) : Finset String :=
  s.qByID.keys.filter fun id =>
    (s.task id).any fun t => pass.due t.queue && decide (t.atTime ≤ pass.now)

theorem mem_eligible {s : EQMem} (h : s.Indexed) {pass : TaskPass} {id : String} :
    id ∈ eligible s pass ↔
      ∃ t, s.task id = some t ∧ pass.due t.queue = true ∧ t.atTime ≤ pass.now := by
  rw [eligible, Finset.mem_filter, Finmap.mem_keys, ← Finmap.lookup_isSome, h.qByID_eq]
  cases s.task id <;> simp

/-- No task of a queue that is due becomes available between the first and a later reading of the
clock. -/
def Steady (s : EQMem) (pass : TaskPass) : Prop :=
  ∀ k id t, s.task id = some t → pass.due t.queue = true →
    (t.atTime ≤ pass.claimedAt k ↔ t.atTime ≤ pass.now)

structure Deleted (s : EQMem) (pass : TaskPass) (ids : Finset String) (p : TaskProgress) :
    Prop where
  invariant : Invariant p.store
  among : ids ⊆ eligible s pass
  count : p.deleted = ids.card
  task : ∀ id, p.store.task id = if id ∈ ids then none else s.task id
  docs : EQMem.SameDocs s p.store

def Exhausted (s : EQMem) (pass : TaskPass) (ids : Finset String) (queue : String) : Prop :=
  ∀ id t, s.task id = some t → t.queue = queue → t.atTime ≤ pass.now → id ∈ ids

theorem Exhausted.mono {s : EQMem} {pass : TaskPass} {ids ids' : Finset String} {queue : String}
    (h : Exhausted s pass ids queue) (hsub : ids ⊆ ids') : Exhausted s pass ids' queue :=
  fun id t ht hq hat => hsub (h id t ht hq hat)

theorem tryClaim_collectQuery (s : EQMem) (queue : String) (now : Time) (draws : ℕ → ℕ) :
    tryClaim s (collectQuery queue) [⟨queue, now, draws⟩] =
      mustTryClaimOne s queue (collectQuery queue) now draws := by
  have hvalid : Validate.claim (collectQuery queue) = none := by rfl
  rw [tryClaim, hvalid]
  simp only [tryQueues]
  split
  · next s' h => rw [h]
  · rfl

section Pass
variable {s : EQMem} {pass : TaskPass} {ids : Finset String} {p : TaskProgress} {queue : String}

theorem Deleted.turn (h : Deleted s pass ids p) (hs : s.Indexed) (hsteady : Steady s pass)
    (hdue : pass.due queue = true) :
    (∃ p', collectTask pass queue p = (p', .empty) ∧ Deleted s pass ids p' ∧
        Exhausted s pass ids queue) ∨
      ∃ p' id, collectTask pass queue p = (p', .again) ∧ id ∉ ids ∧
        Deleted s pass (insert id ids) p' := by
  rcases mustTryClaimOne_cases h.invariant.toSound (collectQuery queue)
    ⟨queue, pass.claimedAt p.claims, pass.draws p.claims⟩ with hnone | ⟨s', c, old, hsome, htook⟩
  · left
    refine ⟨{ p with claims := p.claims + 1 }, ?_, ⟨h.invariant, h.among, h.count, h.task, h.docs⟩,
      ?_⟩
    · rw [collectTask, tryClaim_collectQuery, hnone]
    · intro id t ht hq hat
      by_contra hid
      have hstored : p.store.task id = some t := by rw [h.task, if_neg hid, ht]
      have hlater := mustTryClaimOne_none h.invariant.toSound (by rw [hnone]) hstored hq
      exact absurd ((hsteady p.claims id t ht (hq ▸ hdue)).mpr hat) (not_le.mpr hlater)
  · right
    have hid : old.id ∉ ids := by
      intro hid
      have hstored := htook.stored
      rw [h.task, if_pos hid] at hstored
      cases hstored
    have hold : s.task old.id = some old := by
      have hstored := htook.stored
      rwa [h.task, if_neg hid] at hstored
    have hinv := Call.run_invariant h.invariant (.tryClaim (collectQuery queue)
      [⟨queue, pass.claimedAt p.claims, pass.draws p.claims⟩])
    change Invariant (tryClaim p.store (collectQuery queue)
      [⟨queue, pass.claimedAt p.claims, pass.draws p.claims⟩]).1 at hinv
    rw [tryClaim_collectQuery, hsome] at hinv
    have hcid : c.task.id = old.id := by rw [htook.task]; rfl
    have hcstored : s'.task c.task.id = some c.task := by
      rw [htook.table, hcid, Function.update_self]
    obtain ⟨s'', m, hm, hinv', htask, hdocs⟩ := modify_collected hinv hcstored
      (by rw [htook.task]; rfl) (pass.deletedAt p.claims)
    refine ⟨{ store := s'', deleted := p.deleted + 1, claims := p.claims + 1 }, old.id, ?_, hid,
      hinv', ?_, ?_, ?_, (h.docs.trans htook.docs).trans hdocs⟩
    · rw [collectTask, tryClaim_collectQuery, hsome]
      dsimp only
      rw [hm]
    · refine Finset.insert_subset ((mem_eligible hs).mpr ⟨old, hold, ?_, ?_⟩) h.among
      · rw [htook.queue]
        exact hdue
      · exact (hsteady p.claims old.id old hold (by rw [htook.queue]; exact hdue)).mp htook.available
    · rw [Finset.card_insert_of_notMem hid, ← h.count]
    · intro id
      rw [htask, hcid]
      by_cases heq : id = old.id
      · rw [heq, Function.update_self, if_pos (Finset.mem_insert_self _ _)]
      · have hmem : id ∈ insert old.id ids ↔ id ∈ ids := by simp [heq]
        rw [Function.update_of_ne heq, htook.table, Function.update_of_ne heq, h.task,
          if_congr hmem rfl rfl]

/-- Enough turns exhaust the queue or fill the batch. -/
theorem Deleted.collectQueue (h : Deleted s pass ids p) (hs : s.Indexed) (hsteady : Steady s pass)
    (hdue : pass.due queue = true) (hle : p.deleted ≤ pass.batch) {fuel : ℕ}
    (hfuel : pass.batch - p.deleted < fuel) :
    ∃ p' ids', Eqmem.collectQueue pass queue fuel p = some (p', none) ∧ ids ⊆ ids' ∧
      Deleted s pass ids' p' ∧ p'.deleted ≤ pass.batch ∧
      (p'.deleted = pass.batch ∨ Exhausted s pass ids' queue) := by
  induction fuel generalizing p ids with
  | zero => omega
  | succ fuel ih =>
    rw [Eqmem.collectQueue]
    split_ifs with hfull
    · exact ⟨p, ids, rfl, subset_rfl, h, hle, .inl (by omega)⟩
    · rcases h.turn hs hsteady hdue with ⟨p', hturn, hp', hex⟩ | ⟨p', id, hturn, hid, hp'⟩
      · rw [hturn]
        refine ⟨p', ids, rfl, subset_rfl, hp', ?_, .inr hex⟩
        rw [hp'.count, ← h.count]
        exact hle
      · have hnext : p'.deleted = p.deleted + 1 := by
          rw [hp'.count, Finset.card_insert_of_notMem hid, ← h.count]
        rw [hturn]
        obtain ⟨p'', ids', hrun, hsub, hrest⟩ := ih hp' (by omega) (by omega)
        exact ⟨p'', ids', hrun, (Finset.subset_insert id ids).trans hsub, hrest⟩

/-- The queues one after another are exhausted, unless the batch is full. -/
theorem Deleted.collectQueues (h : Deleted s pass ids p) (hs : s.Indexed) (hsteady : Steady s pass)
    (hle : p.deleted ≤ pass.batch) {fuel : ℕ} (hfuel : pass.batch < fuel) (queues : List String)
    (hdue : ∀ q ∈ queues, pass.due q = true) :
    ∃ p' ids', Eqmem.collectQueues pass fuel queues p = some (p', none) ∧ ids ⊆ ids' ∧
      Deleted s pass ids' p' ∧ p'.deleted ≤ pass.batch ∧
      (p'.deleted = pass.batch ∨ ∀ q ∈ queues, Exhausted s pass ids' q) := by
  induction queues generalizing p ids with
  | nil => exact ⟨p, ids, rfl, subset_rfl, h, hle, .inr (by simp)⟩
  | cons queue queues ih =>
    rw [Eqmem.collectQueues]
    split_ifs with hfull
    · exact ⟨p, ids, rfl, subset_rfl, h, hle, .inl (by omega)⟩
    · obtain ⟨p', ids', hrun, hsub, hp', hle', hqueue⟩ :=
        h.collectQueue hs hsteady (hdue queue (by simp)) hle
          (show pass.batch - p.deleted < fuel by omega)
      obtain ⟨p'', ids'', hrest, hsub', hp'', hle'', hqueues⟩ :=
        ih hp' hle' fun q hq => hdue q (List.mem_cons_of_mem _ hq)
      rw [hrun]
      refine ⟨p'', ids'', hrest, hsub.trans hsub', hp'', hle'', ?_⟩
      rcases hqueue with hfull' | hex
      · left
        have := Finset.card_le_card hsub'
        rw [← hp'.count, ← hp''.count] at this
        omega
      · refine hqueues.imp id fun hall q hq => ?_
        rcases List.mem_cons.mp hq with rfl | hq
        · exact hex.mono hsub'
        · exact hall q hq

end Pass

/-- A pass ends, and deletes available tasks of the queues that are due: all of them, or as many as
its batch; everything else stays. -/
theorem collectTasksOnce_exact {s : EQMem} (hr : Reachable s) {pass : TaskPass}
    (hnames : ∀ q, q ∈ pass.names ↔ q ∈ s.queues) (hsteady : Steady s pass) {fuel : ℕ}
    (hfuel : pass.batch < fuel) :
    ∃ p ids, collectTasksOnce s pass fuel = some (p, none) ∧
      ids ⊆ eligible s pass ∧ p.deleted = ids.card ∧
      ((eligible s pass).card ≤ pass.batch → ids = eligible s pass) ∧
      (pass.batch < (eligible s pass).card → ids.card = pass.batch) ∧
      (∀ id, p.store.task id = if id ∈ ids then none else s.task id) ∧
      EQMem.SameDocs s p.store := by
  have h := hr.invariant
  have hstart : Deleted s pass ∅ { store := s } :=
    ⟨h, by simp, by simp, by simp, ⟨rfl, rfl, rfl⟩⟩
  obtain ⟨p, ids, hrun, -, hp, hle, hend⟩ := hstart.collectQueues h.indexed hsteady
    (Nat.zero_le _) hfuel (pass.names.filter pass.due) (by simp)
  -- unless the batch is full, every available task of a due queue is gone
  have hall : p.deleted ≠ pass.batch → ids = eligible s pass := by
    intro hne
    refine Finset.Subset.antisymm hp.among fun id hid => ?_
    obtain ⟨t, ht, hdue, hat⟩ := (mem_eligible h.indexed).mp hid
    have hqueue : t.queue ∈ s.queues := by
      obtain ⟨ql, hql, -⟩ := Option.bind_eq_some_iff.mp
        ((h.indexed.stored_iff t.queue id t).mpr ⟨ht, rfl⟩)
      exact Finmap.mem_of_lookup_eq_some hql
    exact (hend.resolve_left hne) t.queue
      (List.mem_filter.mpr ⟨(hnames _).mpr hqueue, hdue⟩) id t ht rfl hat
  have hcard := Finset.card_le_card hp.among
  rw [← hp.count] at hcard
  refine ⟨p, ids, hrun, hp.among, hp.count, ?_, ?_, hp.task, hp.docs⟩
  · intro hfew
    by_cases hne : p.deleted = pass.batch
    · exact Finset.eq_of_subset_of_card_le hp.among (by rw [← hp.count]; omega)
    · exact hall hne
  · intro hmany
    by_contra hne
    rw [← hp.count] at hne
    have := hall hne
    rw [hp.count, this] at hle
    omega

/-- Two tasks of a queue that is always due, one of them available, and one of another queue. -/
def threeTasks : EQMem :=
  run {} [.modify { claimant := "w", inserts := [{ queue := "/gc=/jobs", id := "a" },
    { queue := "/gc=/jobs", id := "b", byDur := 60 }, { queue := "/jobs", id := "c" }] } 5]

def onePass : TaskPass where
  now := 7
  names := ["/jobs", "/gc=/jobs"]
  rfc3339Nano := fun _ => none
  batch := 2
  claimedAt := fun _ => 7
  draws := fun _ _ => 0
  deletedAt := fun _ => 7

theorem collectTasksOnce_exact_one :
    ∃ p, collectTasksOnce threeTasks onePass 3 = some (p, none) ∧ p.deleted = 1 ∧
      p.store.task "a" = none ∧ (p.store.task "b").isSome = true ∧
      (p.store.task "c").isSome = true := by
  have hkeys : threeTasks.queues.keys = {"/jobs", "/gc=/jobs"} := by decide
  have hnames : ∀ q, q ∈ onePass.names ↔ q ∈ threeTasks.queues := by
    intro q
    rw [← Finmap.mem_keys, hkeys]
    simp [onePass]
  have hfuel : onePass.batch < 3 := by decide
  obtain ⟨p, ids, hrun, -, hcount, hall, -, htask, -⟩ := collectTasksOnce_exact
    (⟨_, rfl⟩ : Reachable threeTasks) hnames (fun _ _ _ _ _ => Iff.rfl) hfuel
  have hel : eligible threeTasks onePass = {"a"} := by decide
  rw [hel] at hall
  have hids := hall (by decide)
  subst hids
  refine ⟨p, hrun, hcount, ?_, ?_, ?_⟩
  · rw [htask]
    rfl
  · rw [htask]
    decide
  · rw [htask]
    decide

end EntroQ.Eqmem
