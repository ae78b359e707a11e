import EntroQ.Eqmem.DocClaimSpec

/-! # Runs

A sequential run is a list of calls, each made on the store the calls before it left. What a call
reads besides the store (the clock, the draws of a search, the order of a map) is part of the
call. Every store a run reaches is sound, and its locks count the docs of their sets. -/

namespace EntroQ.Eqmem
open Foundation Docset

inductive Call
  | modify (mod : Modification) (now : Time)
  | tryClaim (cq : ClaimQuery) (attempts : List Attempt)
  | claimDocs (cq : DocClaim) (now : Time)
  | docs (rq : DocQuery)
  | tasks (tq : TasksQuery) (now : Time) (order : List String)
  | collectLocks (names : List String) (now : Time) (batch : ℕ)

inductive Answer
  | modify (r : Except Fault Modified)
  | tryClaim (r : Except Fault (Option Claimed))
  | claimDocs (r : Except Fault DocsClaimed)
  | docs (r : Except Fault (List Doc))
  | tasks (r : Except Fault (List Task))
  | collectLocks (e : Option JournalEntry)

namespace Call

def run (s : EQMem) : Call → EQMem × Answer
  | .modify mod now => (Eqmem.modify s mod now).map id .modify
  | .tryClaim cq attempts => (Eqmem.tryClaim s cq attempts).map id .tryClaim
  | .claimDocs cq now => (Eqmem.claimDocs s cq now).map id .claimDocs
  | .docs rq => (s, .docs (Eqmem.docs s rq))
  | .tasks tq now order => (s, .tasks (Eqmem.tasks s tq now order))
  | .collectLocks names now batch => (collectLocksOnce s names now batch).map id .collectLocks

def clock : Call → List Time
  | .modify _ now => [now]
  | .tryClaim _ attempts => attempts.map Attempt.now
  | .claimDocs _ now => [now]
  | .docs _ => []
  | .tasks _ now _ => [now]
  | .collectLocks _ now _ => [now]

end Call

/-- The store a run leaves. -/
def run (s : EQMem) (calls : List Call) : EQMem := calls.foldl (fun s c => (c.run s).1) s

def answers (s : EQMem) : List Call → List Answer
  | [] => []
  | c :: calls => (c.run s).2 :: answers (c.run s).1 calls

/-- The store is left by some run from the empty one. -/
def Reachable (s : EQMem) : Prop := ∃ calls, run {} calls = s

/-- The backend's clock does not go back during the run. -/
def ClockForward (calls : List Call) : Prop := (calls.flatMap Call.clock).Pairwise (· ≤ ·)

/-- What every reachable store satisfies. -/
structure Invariant (s : EQMem) : Prop extends s.Sound where
  counted : s.Counted

theorem invariant_empty : Invariant {} where
  toSound := EQMem.sound_empty
  counted g := by simp [EQMem.lockOf, EQMem.count, absent]

theorem TookSets.counted {s s' : EQMem} {cq : DocClaim} {now until_ : Time} {r : DocsClaimed}
    (h : TookSets s cq now until_ s' r) (hc : s.Counted) : s'.Counted := by
  intro g
  rw [EQMem.lockOf_eq, h.lock?, lockEffects_takenLocks h.valid.once, h.count]
  split_ifs
  · exact hc g
  · rw [← EQMem.lockOf_eq]
    exact hc g

theorem Collected.counted {s s' : EQMem} {now : Time} {new : List (SetName × Lock)}
    (h : Collected s now s' new) (hc : s.Counted) : s'.Counted := by
  intro g
  rw [EQMem.lockOf_eq, h.lock?, h.count]
  split_ifs with hg
  · obtain ⟨gl, hgl, rfl⟩ := List.mem_map.mp hg
    exact (h.idle gl hgl).2.2.symm
  · rw [← EQMem.lockOf_eq]
    exact hc g

/-- What a call can do to the store: nothing, or what calls of its kind do. -/
inductive Call.Effect (s : EQMem) : Call → EQMem → Prop
  | kept (c : Call) : Effect s c s
  | committed {mod : Modification} {now : Time} {s' : EQMem}
      (valid : Validate.modification mod = none) (validated : mod.Validated)
      (proper : (modPrep s mod false).Proper) (commit : Committed (modPrep s mod false) s now s') :
      Effect s (.modify mod now) s'
  | claimed {cq : ClaimQuery} {attempts : List Attempt} {a : Attempt} {s' : EQMem} {c : Claimed}
      {old : Task} (visit : a ∈ attempts) (took : TookTask s cq a s' c old) :
      Effect s (.tryClaim cq attempts) s'
  | took {cq : DocClaim} {now until_ : Time} {s' : EQMem} {r : DocsClaimed}
      (sets : TookSets s cq now until_ s' r) : Effect s (.claimDocs cq now) s'
  | collected {names : List String} {now : Time} {batch : ℕ} {s' : EQMem}
      {new : List (SetName × Lock)} (locks : Collected s now s' new) :
      Effect s (.collectLocks names now batch) s'

theorem Call.effect {s : EQMem} (h : s.Sound) (c : Call) : c.Effect s (c.run s).1 := by
  cases c with
  | modify mod now =>
    change Effect s _ (Eqmem.modify s mod now).1
    cases hv : Validate.modification mod with
    | some e =>
      rw [Eqmem.modify, hv]
      exact .kept _
    | none =>
      rcases modify_cases h mod now with ⟨f, -, hr⟩ | ⟨⟨hok, hp⟩, ⟨-, hr⟩ | ⟨s', hr, hc⟩⟩
      · rw [hr]
        exact .kept _
      · rw [hr]
        exact .kept _
      · rw [hr]
        exact .committed hv hok hp hc
  | tryClaim cq attempts =>
    change Effect s _ (Eqmem.tryClaim s cq attempts).1
    rcases tryClaim_cases h cq attempts with ⟨e, hr⟩ | hr | ⟨a, ha, s', c, old, hr, -, ht⟩
    · rw [hr]
      exact .kept _
    · rw [hr]
      exact .kept _
    · rw [hr]
      exact .claimed ha ht
  | claimDocs cq now =>
    change Effect s _ (Eqmem.claimDocs s cq now).1
    rcases claimDocs_cases h cq now with ⟨f, hr, -⟩ | ⟨until_, s', r, hr, ht⟩
    · rw [hr]
      exact .kept _
    · rw [hr]
      exact .took ht
  | docs rq => exact .kept _
  | tasks tq now order => exact .kept _
  | collectLocks names now batch =>
    obtain ⟨new, -, hc⟩ := collectLocksOnce_spec h names now batch
    exact .collected hc

theorem Call.docAt_cases {s : EQMem} (h : s.Sound) (c : Call) :
    (c.run s).1.docAt = s.docAt ∨ ∃ mod now, c = .modify mod now ∧
      Validate.modification mod = none ∧ mod.Validated ∧ (modPrep s mod false).Proper ∧
      Committed (modPrep s mod false) s now (c.run s).1 := by
  have he := c.effect h
  generalize (c.run s).1 = s' at he ⊢
  cases he with
  | kept => exact .inl rfl
  | committed valid validated proper commit =>
    exact .inr ⟨_, _, rfl, valid, validated, proper, commit⟩
  | claimed _ ht => exact .inl ht.docs.docAt
  | took ht => exact .inl ht.docAt
  | collected hc => exact .inl hc.docAt

theorem Call.run_invariant {s : EQMem} (h : Invariant s) (c : Call) : Invariant (c.run s).1 := by
  have he := c.effect h.toSound
  generalize (c.run s).1 = s' at he ⊢
  cases he with
  | kept => exact h
  | committed _ _ proper commit =>
    exact ⟨commit.applied.sound, commit.counted proper h.toSound h.counted⟩
  | claimed _ ht =>
    refine ⟨ht.sound, fun g => ?_⟩
    rw [ht.docs.lockOf, ht.docs.count]
    exact h.counted g
  | took ht => exact ⟨ht.sound, ht.counted h.counted⟩
  | collected hc => exact ⟨hc.sound, hc.counted h.counted⟩

theorem run_invariant {s : EQMem} (h : Invariant s) (calls : List Call) :
    Invariant (run s calls) := by
  induction calls generalizing s with
  | nil => exact h
  | cons c calls ih => exact ih (c.run_invariant h)

theorem Reachable.invariant {s : EQMem} (h : Reachable s) : Invariant s := by
  obtain ⟨calls, rfl⟩ := h
  exact run_invariant invariant_empty calls

theorem run_append (s : EQMem) (cs cs' : List Call) : run s (cs ++ cs') = run (run s cs) cs' :=
  List.foldl_append

/-! ## The index and the heaps -/

/-- The parts of a queue agree: an item of the heap for each task, at the task's arrival and at
the position it records, the array in heap order, and the counter at the number of tasks. -/
structure QLock.InStep (ql : QLock) : Prop where
  arrivals : ∀ id, (ql.task id).map Task.atTime =
    (ql.heap.byID.lookup id).map (fun p => (ql.heap.cell p).atTime)
  items : ∀ id p, ql.heap.byID.lookup id = some p ↔ p ∈ ql.heap.items ∧ (ql.heap.cell p).id = id
  positions : ∀ i, i < ql.heap.len → (ql.heap.cell (ql.heap.item i)).idx = i
  once : ql.heap.items.Nodup
  order : ∀ k, 0 < k → k < ql.heap.len →
    (ql.heap.cell (ql.heap.item ((k - 1) / 2))).atTime ≤ (ql.heap.cell (ql.heap.item k)).atTime
  size : ql.tasks.size = ql.tasks.byID.keys.card

theorem QLock.Valid.inStep {ql : QLock} (h : ql.Valid) : ql.InStep where
  arrivals := h.holds.arrivals_eq
  items := h.holds.byID_iff
  positions i hi := (h.holds.positioned i hi).2
  once := by
    rw [List.nodup_iff_injective_get]
    intro i j hij
    have hi := (h.holds.positioned i i.isLt).2
    have hj := (h.holds.positioned j j.isLt).2
    have hget : ∀ k : Fin ql.heap.items.length, ql.heap.item k = ql.heap.items.get k :=
      fun k => List.getD_eq_getElem _ _ k.isLt
    rw [hget i] at hi
    rw [hget j, ← hij, hi] at hj
    exact Fin.ext (Int.ofNat_inj.mp hj)
  order := h.holds.ordered
  size := h.size

/-- Every run leaves each ID in one queue, the index at exactly the stored IDs, and each queue's
heap and counter in step with its tasks, so that no write to them can find them out of step. -/
theorem run_inStep (calls : List Call) :
    (∀ q q' id t t', (run {} calls).stored q id = some t →
      (run {} calls).stored q' id = some t' → q = q') ∧
    (∀ id q, (run {} calls).qByID.lookup id = some q ↔
      ∃ t, (run {} calls).stored q id = some t) ∧
    (∀ q id t, (run {} calls).stored q id = some t → t.id = id ∧ t.queue = q) ∧
    (∀ q ql, (run {} calls).queues.lookup q = some ql → ql.InStep) ∧
    (∀ mod now, (modify (run {} calls) mod now).2 ≠ .error (.panic "Inconsistent state")) ∧
    ∀ cq attempts text, (tryClaim (run {} calls) cq attempts).2 ≠ .error (.panic text) := by
  have h := run_invariant invariant_empty calls
  refine ⟨?_, h.indexed.index, ?_, ?_, ?_, ?_⟩
  · intro q q' id t t' ht ht'
    exact (h.indexed.unique ht ht').1
  · intro q id t ht
    exact h.indexed.stored_named ht
  · intro q ql hq
    exact (h.indexed.queues q ql hq).2.inStep
  · intro mod now
    rcases modify_cases h.toSound mod now with ⟨f, hf, hr⟩ | ⟨-, ⟨-, hr⟩ | ⟨s', hr, -⟩⟩
    · rw [hr]
      exact fun he => hf (Except.error.inj he)
    · rw [hr]
      exact nofun
    · rw [hr]
      exact nofun
  · intro cq attempts text
    rcases tryClaim_cases h.toSound cq attempts with ⟨e, hr⟩ | hr | ⟨a, -, s', c, old, hr, -⟩
    · rw [hr]
      exact nofun
    · rw [hr]
      exact nofun
    · rw [hr]
      exact nofun

end EntroQ.Eqmem
