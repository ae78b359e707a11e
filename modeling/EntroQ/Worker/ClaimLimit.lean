import EntroQ.Eqmem.ClaimCount
import EntroQ.Worker.RunOne

/-! # The claim limit

A task that its handlers do not survive is claimed again and again. Its claim count lets so many of
these claims reach a handler, and the worker of the next one moves the task away instead. -/

namespace EntroQ.Worker
open Foundation Eqmem

/-! ## What a turn does with a claimed task -/

section Turn
variable (w : Config) (opts : RunOpt) (env : Env) {t : Task}

theorem makeHandler_notMem_handleSentinelErrors (e : Err) (task : Task) (sets : List DocSet)
    (errQ : String) :
    Call.makeHandler ∉ (handleSentinelErrors opts env e task sets errQ).calls := by
  unfold handleSentinelErrors
  split <;> simp [commit]

/-- The handler of a claimed task is made unless its claims are over the limit. -/
theorem makeHandler_mem_runOne (hs : env.shutDown = false) (hc : env.claim = .ok t) :
    Call.makeHandler ∈ (runOne w opts env).calls ↔
      ¬(0 < opts.maxClaims ∧ opts.maxClaims < t.claims) := by
  simp only [runOne, hs, hc, Bool.false_eq_true, if_false]
  by_cases hl : 0 < opts.maxClaims ∧ opts.maxClaims < t.claims
  · rw [if_pos hl]
    exact iff_of_false (makeHandler_notMem_handleSentinelErrors opts env _ _ _ _) (not_not.mpr hl)
  · rw [if_neg hl]
    exact iff_of_true (List.mem_append_left _ (List.mem_singleton.mpr rfl)) hl

theorem errorQueueFor_ne (inbox : String) : w.errorQueueFor inbox ≠ "" := by
  unfold Config.errorQueueFor
  split_ifs with h
  · exact h
  · intro he
    have := congrArg String.length he
    simp [defaultErrQMap, String.length_append] at this

end Turn

theorem quarantine_spec (t : Task) (errMsg q claimant : String) (hq : q ≠ "")
    (ht : 1 ≤ t.attempt + 1) :
    ∃ c ∈ (newModification claimant [t.quarantine errMsg q [], arriving 0 [] []]).changes,
      c.task.id = t.id ∧ c.task.queue = q ∧
      (newModification claimant [t.quarantine errMsg q [], arriving 0 [] []]).resetsClaims t.id := by
  have hquar : t.quarantining q 1 = true := by
    simp [Task.quarantining, hq, ht]
  have hmod : newModification claimant [t.quarantine errMsg q [], arriving 0 [] []] =
      arriving 0 [] [] (t.change [attemptToNext, appendingErr errMsg, resettingClaims, queueTo q,
        arrivalTimeBy 0] { claimant }) := by
    simp [newModification, Task.quarantine, Task.retryOrQuarantine, hquar]
  rw [hmod]
  refine ⟨_, List.mem_singleton.mpr rfl, rfl, rfl, ?_⟩
  simp [arriving, Task.change, attemptToNext, appendingErr, resettingClaims, queueTo,
    arrivalTimeBy, Modification.resetClaimsOf, Modification.resetsClaims]

theorem ofNat_succ_toInt {k : ℕ} (h : k + 1 < 2 ^ 31) : (Int32.ofNat k + 1).toInt = k + 1 := by
  rw [show Int32.ofNat k + 1 = Int32.ofNat (k + 1) by rw [Int32.ofNat_add]; rfl,
    Int32.toInt_ofNat_of_lt h]
  norm_cast

theorem one_le_attempt {a : Int32} (h : 0 ≤ a) (hmax : a ≠ 2147483647) : 1 ≤ a + 1 := by
  have hne : a.toInt ≠ 2147483647 := fun he => hmax (Int32.toInt_inj.mp he)
  have hlt := a.toInt_lt
  rw [Int32.le_iff_toInt_le, show (0 : Int32).toInt = 0 from rfl] at h
  rw [Int32.le_iff_toInt_le, Int32.toInt_add, show (1 : Int32).toInt = 1 from rfl,
    Int.bmod_eq_of_le] <;> omega

/-! ## Runs -/

/-- A call on the backend, by whomever, and what happens in the turn it starts if it is a worker's
claim. The calls of that turn are further steps, as far as it comes. -/
structure RunStep where
  call : Eqmem.Call
  env : Env

section Runs
variable (w : Config) (opts : RunOpt) (s : EQMem) (id : String)

def RunStep.turn (e : RunStep) : Option Turn :=
  match e.call with
  | .tryClaim cq attempts =>
    match (Eqmem.tryClaim s cq attempts).2 with
    | .ok (some c) => some (runOne w opts { e.env with shutDown := false, claim := .ok c.task })
    | _ => none
  | _ => none

def RunStep.handles (e : RunStep) : Bool :=
  e.call.claims s id && (e.turn w opts s).any fun t => Call.makeHandler ∈ t.calls

def handledCount (s : EQMem) : List RunStep → ℕ
  | [] => 0
  | e :: steps =>
    (if e.handles w opts s id then 1 else 0) + handledCount (e.call.run s).1 steps

/-- The turn makes no handler and moves the task to its error queue, if it comes to it. -/
structure MovesAway (ctxErr : Option Err) (id queue : String) (turn : Turn) : Prop where
  unhandled : Call.makeHandler ∉ turn.calls
  asks : ctxErr = none → ∃ mod, turn.calls = [.modify mod]
  moves : ∀ mod, Call.modify mod ∈ turn.calls → ∀ s now, Invariant s →
    (Eqmem.modify s mod now).2.isOk → ∃ t', (Eqmem.modify s mod now).1.task id = some t' ∧
      t'.queue = w.errorQueueFor queue ∧ t'.claims = 0

variable {s id}

theorem movesAway_of_over (env : Env) {t : Task} (hs : env.shutDown = false)
    (hc : env.claim = .ok t) (hl : 0 < opts.maxClaims ∧ opts.maxClaims < t.claims)
    (ha : 1 ≤ t.attempt + 1) : MovesAway w env.ctxErr t.id t.queue (runOne w opts env) := by
  have hrun : runOne w opts env = overLimit w opts env t := by
    simp only [runOne, hs, hc, Bool.false_eq_true, if_false, if_pos hl]
  refine ⟨fun hm => (makeHandler_mem_runOne w opts env hs hc).mp hm hl, ?_, ?_⟩
  · intro hctx
    rw [hrun]
    simp [overLimit, dispose, handleSentinelErrors, hctx, MoveError.err, commit]
  · intro mod hm s now h hok
    rw [hrun] at hm
    cases hctx : env.ctxErr with
    | some c => simp [overLimit, dispose, handleSentinelErrors, hctx, MoveError.err] at hm
    | none =>
      simp only [overLimit, dispose, handleSentinelErrors, hctx, MoveError.err, commit, ne_eq,
        not_true_eq_false, if_false, List.mem_singleton, Call.modify.injEq] at hm
      subst hm
      obtain ⟨c, hcm, hid, hq, hreset⟩ :=
        quarantine_spec t _ (w.errorQueueFor t.queue) env.claimant (errorQueueFor_ne w t.queue) ha
      rw [← hid] at hreset
      obtain ⟨t', ht', hq', hclaims⟩ := modify_changed h hok hcm hreset
      rw [hid] at ht'
      exact ⟨t', ht', hq'.trans hq, hclaims⟩

theorem RunStep.turn_of_claimed {e : RunStep} {cq : ClaimQuery} {attempts : List Attempt}
    {c : Claimed} (hcall : e.call = .tryClaim cq attempts)
    (hret : (Eqmem.tryClaim s cq attempts).2 = .ok (some c)) :
    e.turn w opts s =
      some (runOne w opts { e.env with shutDown := false, claim := .ok c.task }) := by
  simp only [RunStep.turn, hcall, hret]

/-- The claim of a task that has been claimed `k` times since its reset is handled if that leaves
it within the limit. -/
theorem RunStep.handles_iff (h : Invariant s) {k : ℕ} (hk : CountIs s id k) (hlt : k + 1 < 2 ^ 31)
    (hm : 0 < opts.maxClaims) {e : RunStep} (hc : e.call.claims s id = true) :
    e.handles w opts s id ↔ (k : ℤ) + 1 ≤ opts.maxClaims.toInt := by
  obtain ⟨cq, attempts, c, t, hcall, hret, ht, -, -, hclaims, -, -⟩ := Call.claimed_stored h hc
  rw [RunStep.handles, hc, RunStep.turn_of_claimed w opts hcall hret, Bool.true_and, Option.any_some, decide_eq_true_eq,
    makeHandler_mem_runOne w opts _ rfl rfl, hclaims, hk t ht]
  simp only [hm, true_and]
  rw [Int32.lt_iff_toInt_lt, ofNat_succ_toInt hlt, not_lt]

theorem handledCount_le (h : Invariant s) {k : ℕ} (hk : CountIs s id k) (hm : 0 < opts.maxClaims)
    (steps : List RunStep) (hno : NoReset s id (steps.map RunStep.call))
    (hlt : k + claimCount s id (steps.map RunStep.call) < 2 ^ 31) :
    handledCount w opts id s steps ≤ opts.maxClaims.toInt.toNat - k := by
  induction steps generalizing s k with
  | nil => exact Nat.zero_le _
  | cons e steps ih =>
    have hk' := Call.countIs_step h hk hno.1
    rw [List.map_cons, claimCount, ← Nat.add_assoc] at hlt
    have hrest := ih (e.call.run_invariant h) hk' hno.2 hlt
    rw [handledCount]
    by_cases hc : e.call.claims s id = true
    · rw [if_pos hc] at hrest hlt
      have hh := e.handles_iff w opts h hk (by omega) hm hc
      split_ifs with hhandled
      · have := hh.mp hhandled
        omega
      · omega
    · have hnot : e.handles w opts s id = false := by
        rw [RunStep.handles, Bool.eq_false_iff.mpr hc, Bool.false_and]
      rw [if_neg hc] at hrest
      rw [hnot]
      simpa using hrest

/-- From a reset of its claim count on, until the next, at most as many claims of a task as the
limit reach a handler. The worker of a further claim makes none, and the modification it makes
instead moves the task to its error queue. A renewal leaves the count alone. -/
theorem claim_limit (h : Invariant s) {r : Eqmem.Call} (hr : r.resets s id = true)
    (hm : 0 < opts.maxClaims) (steps : List RunStep)
    (hno : NoReset (r.run s).1 id (steps.map RunStep.call))
    (hlt : claimCount (r.run s).1 id (steps.map RunStep.call) < 2 ^ 31) :
    handledCount w opts id (r.run s).1 steps ≤ opts.maxClaims.toInt.toNat ∧
      (∀ pre e post t, steps = pre ++ e :: post →
        e.call.claims (run (r.run s).1 (pre.map RunStep.call)) id = true →
        opts.maxClaims.toInt ≤ claimCount (r.run s).1 id (pre.map RunStep.call) →
        (run (r.run s).1 (pre.map RunStep.call)).task id = some t →
        0 ≤ t.attempt → t.attempt ≠ 2147483647 →
        ∃ turn, e.turn w opts (run (r.run s).1 (pre.map RunStep.call)) = some turn ∧
          MovesAway w e.env.ctxErr id t.queue turn) ∧
      ∀ s' claimant granted held now t t', Invariant s' →
        (Eqmem.modify s' (renewal claimant granted held) now).2.isOk → s'.task id = some t →
        (Eqmem.modify s' (renewal claimant granted held) now).1.task id = some t' →
        t'.claims = t.claims := by
  have hs := r.run_invariant h
  have hk := Call.countIs_reset h hr
  refine ⟨?_, ?_, ?_⟩
  · simpa using handledCount_le w opts hs hk hm steps hno (by simpa using hlt)
  · rintro pre e post t rfl hc hover ht h0 hmax
    rw [List.map_append, List.map_cons] at hno hlt
    rw [claimCount_append, claimCount, if_pos hc] at hlt
    have hcount := countIs_run hs hk _ (along_append.mp hno).1 t ht
    rw [Nat.zero_add] at hcount
    obtain ⟨cq, attempts, c, t₁, hcall, hret, ht₁, hid, hq, hclaims, hatt, -⟩ :=
      Call.claimed_stored (run_invariant hs _) hc
    cases ht.symm.trans ht₁
    refine ⟨_, RunStep.turn_of_claimed w opts hcall hret, ?_⟩
    rw [← hid, ← hq]
    refine movesAway_of_over w opts { e.env with shutDown := false, claim := .ok c.task } rfl rfl
      ⟨hm, ?_⟩ (by rw [hatt]; exact one_le_attempt h0 hmax)
    rw [hclaims, hcount, Int32.lt_iff_toInt_lt, ofNat_succ_toInt (by omega)]
    omega
  · intro s' claimant granted held now t t' h' hok ht ht'
    rw [modify_claims h' hok ht ht', if_neg]
    simp [renewal, newModification, arriving, Modification.resetsClaims]

end Runs

/-! ## A task that is claimed twice under a limit of one -/

def oneClaim : RunOpt := { qs := ["q"], maxClaims := 1 }

def claimAt (now : Time) : RunStep where
  call := .tryClaim workerClaim (firstVisit now)
  env := { claimant := "w", claim := .error canceled }

theorem claim_limit_second_claim :
    ∃ turn, (claimAt 17).turn {} oneClaim (run (run {} [.modify insertOne 5]) [(claimAt 6).call]) =
      some turn ∧ MovesAway {} none "t" "q" turn :=
  (claim_limit {} oneClaim invariant_empty (r := .modify insertOne 5) (by decide) (by decide)
    [claimAt 6, claimAt 17] ⟨by decide, by decide, trivial⟩
    (by decide)).2.1 [claimAt 6] (claimAt 17) []
      { queue := "q", id := "t", version := 1, atTime := 16, claimant := "w", claims := 1
        created := 5, modified := 6 }
      rfl (by decide) (by decide) (by decide) (by decide) (by decide)

/-- A task whose attempts start below zero. -/
def insertNegative : Modification :=
  { claimant := "w", inserts := [{ queue := "q", id := "t", attempt := -1 }] }

def claimedTwice : Task :=
  { queue := "q", id := "t", version := 2, atTime := 27, claimant := "w", claims := 2
    created := 5, modified := 17, attempt := -1 }

def limitMove : Modification :=
  newModification "w"
    [claimedTwice.quarantine
      "maximum claims exceeded: %d claims without modification (limit %d, lease %v)" "q/err" [],
      arriving 0 [] []]

/-- The move of the second claim is made, and the task is in its queue as before, its claims
reset. -/
theorem limit_move_stays :
    ((claimAt 17).turn {} oneClaim (run {} [.modify insertNegative 5, (claimAt 6).call])).map
        Turn.calls = some [.modify limitMove] ∧
      (modify (run {} [.modify insertNegative 5, (claimAt 6).call, (claimAt 17).call]) limitMove
        18).2.isOk ∧
      ((modify (run {} [.modify insertNegative 5, (claimAt 6).call, (claimAt 17).call]) limitMove
        18).1.task "t").map (fun t => (t.queue, t.claims)) = some ("q", 0) := by
  decide

end EntroQ.Worker
