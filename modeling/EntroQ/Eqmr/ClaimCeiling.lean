import EntroQ.Eqmem.TaskCollector
import EntroQ.Worker.ClaimLimit

/-! # Claim ceilings

A run is configured with the number of claims a task may have before it is moved away. The limit in
force is what the options of a worker make of that, and the worker's own default where they say
nothing about it. -/

namespace EntroQ.Eqmr
open Worker

/-- The fields that the options of workers come from, of which a zero says nothing. -/
structure Config where
  lease : Duration := 0
  maxClaims : Int32 := 0

def defaultLease : Duration := 30 * second
def defaultMaxClaims : Int32 := 10

def Config.withDefaults (c : Config) : Config where
  lease := if c.lease = 0 then defaultLease else c.lease
  maxClaims := if c.maxClaims = 0 then defaultMaxClaims else c.maxClaims

structure Controller where
  cfg : Config
  runPrefix : String

def newController (runPrefix : String) (cfg : Config) : Controller :=
  { cfg := cfg.withDefaults, runPrefix }

/-- The workers of a run, by what their queue holds. -/
inductive Role
  | map
  | reduce
  | mapDone
  | mapCheck
  | reduceDone
  | reduceCheck
  | gc
  deriving DecidableEq

namespace Controller
variable (c : Controller)

def queue : Role → String
  | .map => c.runPrefix ++ "/map"
  | .reduce => c.runPrefix ++ "/reduce"
  | .mapDone => c.runPrefix ++ "/map-done"
  | .mapCheck => c.runPrefix ++ "/map-check"
  | .reduceDone => c.runPrefix ++ "/reduce-done"
  | .reduceCheck => c.runPrefix ++ "/reduce-check"
  | .gc => c.runPrefix ++ "/gc"

def workRetryDelay : Duration := second

def workerRunOptions (queue : String) : List RunOption :=
  [watching [queue], withLease c.cfg.lease, withBaseRetryDelay workRetryDelay] ++
    if c.cfg.maxClaims > 0 then [withMaxClaims c.cfg.maxClaims] else []

def controlRunOptions (queues : List String) : List RunOption :=
  [watching queues, withLease c.cfg.lease, withBaseRetryDelay 0]

def gcMaxAttempts : Int32 := 10
def gcRetryDelay : Duration := second

def gcRunOptions : List RunOption :=
  [watching [c.queue .gc], withLease c.cfg.lease, withMaxAttempts gcMaxAttempts,
      withBaseRetryDelay gcRetryDelay] ++
    if c.cfg.maxClaims > 0 then [withMaxClaims c.cfg.maxClaims] else []

def runOptions : Role → List RunOption
  | .map => c.workerRunOptions (c.queue .map)
  | .reduce => c.workerRunOptions (c.queue .reduce)
  | .gc => c.gcRunOptions
  | role => c.controlRunOptions [c.queue role]

end Controller

/-- The tasks that the configured limit is for. -/
def Role.limited : Role → Bool
  | .map | .reduce | .gc => true
  | _ => false

/-- The limit in force. -/
theorem maxClaims_runOpt (c : Controller) (role : Role) :
    (runOpt (c.runOptions role)).maxClaims =
      if role.limited ∧ 0 < c.cfg.maxClaims then c.cfg.maxClaims else 5 := by
  by_cases hpos : 0 < c.cfg.maxClaims <;> cases role <;>
    simp [runOpt, Controller.runOptions, Controller.workerRunOptions, Controller.controlRunOptions,
      Controller.gcRunOptions, Role.limited, hpos, watching, withLease, withBaseRetryDelay,
      withMaxAttempts, withMaxClaims]

end EntroQ.Eqmr

/-! ## A task that is claimed again and again -/

namespace EntroQ.Eqmem
open Foundation

/-- The task is the only one there is. -/
structure Lone (s : EQMem) (t : Task) : Prop where
  invariant : Invariant s
  stored : s.task t.id = some t
  others : ∀ id, id ≠ t.id → s.task id = none

def loneQuery (t : Task) : ClaimQuery := { queues := [t.queue], claimant := "w", duration := 1 }

def loneVisit (t : Task) : Attempt := { q := t.queue, now := t.atTime, draws := fun _ => 0 }

def claimLone (t : Task) : Call := .tryClaim (loneQuery t) [loneVisit t]

/-- The claim takes the task, and leaves it the only one there is. -/
theorem Lone.claim {s : EQMem} {t : Task} (h : Lone s t) :
    ∃ t', (claimLone t).claims s t.id = true ∧ Lone ((claimLone t).run s).1 t' ∧ t'.id = t.id ∧
      t'.queue = t.queue ∧ t'.attempt = t.attempt := by
  have hinv := (claimLone t).run_invariant h.invariant
  have hclaim : tryClaim s (loneQuery t) [loneVisit t] =
      tryQueues (loneQuery t) s [loneVisit t] := rfl
  rcases mustTryClaimOne_cases h.invariant.toSound (loneQuery t) (loneVisit t) with
    hn | ⟨s', c, old, hs, htook⟩
  · have hlt := mustTryClaimOne_none h.invariant.toSound (congrArg Prod.snd hn) h.stored rfl
    exact absurd hlt (lt_irrefl _)
  · have hold : old = t := by
      by_cases hid : old.id = t.id
      · have hstored := htook.stored
        rw [hid, h.stored] at hstored
        exact (Option.some.inj hstored).symm
      · have hstored := htook.stored
        rw [h.others old.id hid] at hstored
        cases hstored
    subst hold
    have htry : tryClaim s (loneQuery old) [loneVisit old] = (s', .ok (some c)) := by
      rw [hclaim, tryQueues, hs]
    have hrun : ((claimLone old).run s).1 = s' := by
      change (tryClaim s (loneQuery old) [loneVisit old]).1 = s'
      rw [htry]
    have hc : c.task.id = old.id := by rw [htook.task]; rfl
    rw [hrun] at hinv ⊢
    refine ⟨c.task, ?_, ⟨hinv, ?_, ?_⟩, hc, by rw [htook.task]; rfl, by rw [htook.task]; rfl⟩
    · simp only [Call.claims, claimLone, htry, hc, decide_true]
    · rw [htook.table, hc, Function.update_self]
    · intro id hid
      rw [hc] at hid
      rw [htook.table, Function.update_of_ne hid]
      exact h.others id hid

/-- It may be claimed any number of times. -/
theorem Lone.claims {s : EQMem} {t : Task} (h : Lone s t) (n : ℕ) :
    ∃ calls t', NoReset s t.id calls ∧ claimCount s t.id calls = n ∧ Lone (run s calls) t' ∧
      t'.id = t.id ∧ t'.queue = t.queue ∧ t'.attempt = t.attempt := by
  induction n generalizing s t with
  | zero => exact ⟨[], t, trivial, rfl, h, rfl, rfl, rfl⟩
  | succ n ih =>
    obtain ⟨t₁, hclaims, hlone, hid, hq, hatt⟩ := h.claim
    obtain ⟨calls, t', hno, hcount, hlone', hid', hq', hatt'⟩ := ih hlone
    rw [hid] at hno hcount
    refine ⟨claimLone t :: calls, t', ⟨rfl, hno⟩, ?_, hlone', hid'.trans hid, hq'.trans hq,
      hatt'.trans hatt⟩
    rw [claimCount, if_pos hclaims, hcount, Nat.add_comm]

def insertLone (queue : String) : Modification :=
  { claimant := "w", inserts := [{ queue, id := "t" }] }

theorem insertLone_lone {queue : String} (hq : queue ≠ "") :
    Call.resets {} "t" (.modify (insertLone queue) 0) = true ∧
      ∃ t, Lone ((Call.modify (insertLone queue) 0).run {}).1 t ∧ t.id = "t" ∧ t.queue = queue ∧
        t.attempt = 0 := by
  have hkeys : (insertLone queue).ensureModifyKeys = none := by
    simp [Modification.ensureModifyKeys, insertLone, Modification.isEmpty, hq, walkUnique]
  have hvalid : Validate.modification (insertLone queue) = none := by
    rw [Validate.modification, hkeys]
    rfl
  have hsat : Satisfiable {} (insertLone queue) 0 := by
    constructor <;> intro x hx
    · rfl
    all_goals cases hx
  have hsome : ¬Nowhere (insertLone queue) := fun hno => by
    simpa [insertLone] using hno.tasks.1
  obtain ⟨hok, hp, hcommit⟩ :=
    modify_commits invariant_empty hvalid rfl (List.forall_mem_nil _) hsome hsat
  have hafter := hp.tasksAfter 0 false invariant_empty.indexed hsat.fits
  have hinv := Call.run_invariant invariant_empty (.modify (insertLone queue) 0)
  refine ⟨?_, (modPrep {} (insertLone queue) false).insertedTask 0 false { queue, id := "t" },
    ⟨hinv, ?_, ?_⟩, rfl, rfl, rfl⟩
  · rw [Call.resets, hok]
    simp [insertLone]
  · exact (congrFun hcommit.applied.task "t").trans
      (hafter.inserted { queue, id := "t" } (List.mem_singleton_self _))
  · intro id hid
    refine (congrFun hcommit.applied.task id).trans (hafter.others id List.not_mem_nil
      List.not_mem_nil ?_)
    intro hmem
    exact hid (List.mem_singleton.mp hmem)

end EntroQ.Eqmem

/-! ## The ceilings -/

namespace EntroQ.Eqmr
open Worker Foundation Eqmem

/-- A task that its claims do not change is moved away at the claim after the configured number, if
that is positive and the limit is for such tasks, and is never moved otherwise. -/
def Ceiling (c : Controller) (role : Role) : Prop :=
  ∀ (w : Worker.Config) (s : EQMem) (id : String) (r : Eqmem.Call) (claims : List RunStep)
    (e : RunStep) (t : Task), Invariant s → r.resets s id = true →
    NoReset (r.run s).1 id (claims.map RunStep.call) →
    e.call.claims (run (r.run s).1 (claims.map RunStep.call)) id = true →
    (run (r.run s).1 (claims.map RunStep.call)).task id = some t →
    t.queue = c.queue role → 0 ≤ t.attempt → t.attempt ≠ 2147483647 →
    ∃ turn, e.turn w (runOpt (c.runOptions role)) (run (r.run s).1 (claims.map RunStep.call)) =
        some turn ∧
      let number : ℤ := claimCount (r.run s).1 id (claims.map RunStep.call) + 1
      if role.limited ∧ 0 < c.cfg.maxClaims then
        (number ≤ c.cfg.maxClaims.toInt → Call.makeHandler ∈ turn.calls) ∧
          (number = c.cfg.maxClaims.toInt + 1 → MovesAway w e.env.ctxErr id t.queue turn)
      else Call.makeHandler ∈ turn.calls

section Ceilings
variable {c : Controller} {role : Role}

theorem ceiling_of_limited (hlim : role.limited = true) (hpos : 0 < c.cfg.maxClaims)
    (hmax : c.cfg.maxClaims ≠ 2147483647) : Ceiling c role := by
  intro w s id r claims e t h hr hno hclaims ht hq h0 hatt
  have hs := r.run_invariant h
  have hlimit : (runOpt (c.runOptions role)).maxClaims = c.cfg.maxClaims := by
    rw [maxClaims_runOpt, if_pos ⟨hlim, hpos⟩]
  have hlt : c.cfg.maxClaims.toInt < 2147483647 := by
    refine lt_of_le_of_ne ?_ fun he => hmax (Int32.toInt_inj.mp he)
    have := c.cfg.maxClaims.toInt_lt
    omega
  have hcount := countIs_run hs (Call.countIs_reset h hr) _ hno t ht
  rw [Nat.zero_add] at hcount
  obtain ⟨cq, attempts, cl, t₁, hcall, hret, ht₁, hid, hqueue, hcl, hat, -⟩ :=
    Call.claimed_stored (run_invariant hs _) hclaims
  cases ht.symm.trans ht₁
  refine ⟨_, RunStep.turn_of_claimed w _ hcall hret, ?_⟩
  generalize claimCount (r.run s).1 id (claims.map RunStep.call) = k at hcount ⊢
  dsimp only
  rw [if_pos ⟨hlim, hpos⟩]
  constructor
  · intro hle
    rw [makeHandler_mem_runOne w _ _ rfl rfl, hlimit, hcl, hcount]
    rintro ⟨-, hover⟩
    rw [Int32.lt_iff_toInt_lt, ofNat_succ_toInt (by omega)] at hover
    omega
  · intro heq
    rw [← hid, ← hqueue]
    refine movesAway_of_over w _ { e.env with shutDown := false, claim := .ok cl.task } rfl rfl
      ⟨by rw [hlimit]; exact hpos, ?_⟩ (by rw [hat]; exact one_le_attempt h0 hatt)
    rw [hlimit, hcl, hcount, Int32.lt_iff_toInt_lt, ofNat_succ_toInt (by omega)]
    omega

theorem queue_ne (c : Controller) (role : Role) : c.queue role ≠ "" := by
  intro he
  have hlen := congrArg String.length he
  cases role <;> simp [Controller.queue, String.length_append] at hlen

/-- A claim whose worker is not heard of again. -/
def crashed (call : Eqmem.Call) : RunStep :=
  { call, env := { claimant := "w", claim := .error canceled } }

theorem map_crashed (calls : List Eqmem.Call) : (calls.map crashed).map RunStep.call = calls := by
  rw [List.map_map]
  exact List.map_id calls

/-- What the ceiling says of the claim of a task that has been claimed so often, by the limit in
force. -/
theorem Ceiling.nth (h : Ceiling c role) (k : ℕ) :
    let past := 0 < (runOpt (c.runOptions role)).maxClaims ∧
      (runOpt (c.runOptions role)).maxClaims < Int32.ofNat k + 1
    if role.limited ∧ 0 < c.cfg.maxClaims then (k : ℤ) + 1 = c.cfg.maxClaims.toInt + 1 → past
    else ¬past := by
  obtain ⟨hreset, t, hlone, hid, hq, hatt⟩ := insertLone_lone (queue_ne c role)
  obtain ⟨calls, t', hno, hcount, hlone', hid', hq', hatt'⟩ := hlone.claims k
  obtain ⟨-, hclaims, -⟩ := hlone'.claim
  rw [hid'.trans hid] at hclaims
  have hstored := hlone'.stored
  rw [hid'.trans hid] at hstored
  rw [hid] at hno hcount
  have hclaimed := countIs_run hlone.invariant (Call.countIs_reset invariant_empty hreset) calls hno
    t' hstored
  rw [Nat.zero_add, hcount] at hclaimed
  obtain ⟨cq, attempts, cl, t₁, hcall, hret, ht₁, -, -, hcl, -, -⟩ :=
    Call.claimed_stored hlone'.invariant hclaims
  cases hstored.symm.trans ht₁
  have hturn := RunStep.turn_of_claimed {} (runOpt (c.runOptions role)) (e := crashed (claimLone t'))
    hcall hret
  have hnth := h {} {} "t" (.modify (insertLone (c.queue role)) 0) (calls.map crashed)
    (crashed (claimLone t')) t' invariant_empty hreset
  rw [map_crashed] at hnth
  obtain ⟨turn, hsome, hnth⟩ := hnth hno hclaims hstored (hq'.trans hq)
    (by rw [hatt', hatt]; decide) (by rw [hatt', hatt]; decide)
  cases hturn.symm.trans hsome
  have hmem := makeHandler_mem_runOne {} (runOpt (c.runOptions role))
    { (crashed (claimLone t')).env with shutDown := false, claim := .ok cl.task } rfl rfl
  rw [hcl, hclaimed] at hmem
  rw [hcount] at hnth
  dsimp only at hnth ⊢
  split_ifs at hnth ⊢ with hlim
  · intro heq
    by_contra hover
    exact (hnth.2 heq).unhandled (hmem.mpr hover)
  · exact hmem.mp hnth

/-- Without an option the default of the worker is in force, and a sixth claim is over it. -/
theorem not_ceiling_of_default (hlim : ¬(role.limited = true ∧ 0 < c.cfg.maxClaims)) :
    ¬Ceiling c role := by
  intro h
  have hover := h.nth 5
  dsimp only at hover
  rw [maxClaims_runOpt, if_neg hlim, if_neg hlim] at hover
  exact hover (by decide)

/-- The ceiling is the configured one for the tasks it is for, if it is positive and the count goes
past it. -/
theorem ceiling_iff (runPrefix : String) (cfg : Config) (role : Role) :
    Ceiling (newController runPrefix cfg) role ↔
      role.limited = true ∧ 0 < cfg.withDefaults.maxClaims ∧
        cfg.withDefaults.maxClaims ≠ 2147483647 := by
  constructor
  · intro h
    by_cases hlim : role.limited = true ∧ 0 < (newController runPrefix cfg).cfg.maxClaims
    · refine ⟨hlim.1, hlim.2, ?_⟩
      intro hmax
      -- the count of claims starts again below zero
      have hover := h.nth 2147483647
      dsimp only at hover
      rw [maxClaims_runOpt, if_pos hlim, if_pos hlim,
        show (newController runPrefix cfg).cfg.maxClaims = 2147483647 from hmax] at hover
      exact absurd (hover rfl) (by decide)
    · exact absurd h (not_ceiling_of_default hlim)
  · rintro ⟨hlim, hpos, hmax⟩
    exact ceiling_of_limited hlim hpos hmax

end Ceilings

/-- A map task of a run without a limit is moved away at its sixth claim, and so is a check. -/
theorem ceiling_default :
    ¬Ceiling (newController "/mr" { maxClaims := -1 }) .map ∧
      ¬Ceiling (newController "/mr" { maxClaims := 3 }) .mapCheck :=
  ⟨not_ceiling_of_default (by decide), not_ceiling_of_default (by decide)⟩

end EntroQ.Eqmr
