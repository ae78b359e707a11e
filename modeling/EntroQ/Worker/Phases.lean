import EntroQ.Worker.RunOne

/-! # The phases of a turn

`Finish` is to follow only work that succeeded under a claim that was kept. The renewal sees to
the claim, and the phases before the work to themselves. What is left is an error of `DoWork`
that wraps `context.Canceled` while the context of the work is live: it is taken for the end of
that context, which has no cause, and so for no error. -/

namespace EntroQ.Worker
open Foundation

/-! ## The renewal -/

namespace Renewal

/-- How far work that returns `r` has come. It returns last, once the renewal has handed over. -/
inductive Stage (r : Option Err) (s : Renewal) : Prop
  | working (todo : s.todo = [.finalize, .receive, .ret r]) (running : s.returned = none)
  | stopping (todo : s.todo = [.receive, .ret r]) (running : s.returned = none)
  | received (todo : s.todo = [.ret r]) (running : s.returned = none) (sent : s.sent.isSome)
  | ended (todo : s.todo = []) (sent : s.sent.isSome) (cause : Option Err)
    (returned : s.returned = some (workResult cause r)) (ended : s.endedAtReturn = cause.isSome)
    (stopped : s.stopErr.isSome → cause.isSome)

/-- What every step keeps, of work that returns `r`. -/
structure Sound (r : Option Err) (s : Renewal) : Prop where
  stopped : s.stopErr.isSome → s.cause.isSome
  logged : s.stopErr = none → ∀ p ∈ s.log, Reply.stops p.1 p.2 = none
  given : s.final.isSome → s.sent.isSome
  stage : Stage r s

theorem sound_start (h : Held) (r : Option Err) :
    Sound r (start h [.finalize, .receive, .ret r]) where
  stopped hs := by cases hs
  logged _ p hp := by cases hp
  given hs := by cases hs
  stage := .working rfl rfl

variable {r : Option Err} {s s' : Renewal}

/-- The stage is the same while the work does nothing. -/
theorem Stage.of_eq (hs : Stage r s) (htodo : s'.todo = s.todo) (hret : s'.returned = s.returned)
    (hend : s'.endedAtReturn = s.endedAtReturn) (hsent : s.sent.isSome → s'.sent.isSome)
    (hstop : s.sent.isSome → s'.stopErr = s.stopErr) : Stage r s' := by
  cases hs with
  | working h h' => exact .working (htodo.trans h) (hret.trans h')
  | stopping h h' => exact .stopping (htodo.trans h) (hret.trans h')
  | received h h' hs => exact .received (htodo.trans h) (hret.trans h') (hsent hs)
  | ended h hs c h' he hc =>
    refine .ended (htodo.trans h) (hsent hs) c (hret.trans h') (hend.trans he) ?_
    rw [hstop hs]
    exact hc

theorem renew_spec (s : Renewal) (reply : Reply) :
    (s.renew reply).log = (s.cur, reply) :: s.log ∧
      ((s.renew reply).stopErr = s.stopErr ∧ Reply.stops s.cur reply = none ∨
        ∃ e, (s.renew reply).stopErr = some e ∧ (s.renew reply).cause.isSome) := by
  cases reply with
  | ok resp =>
    cases h : s.cur.renewed resp with
    | ok h' => simp [renew, Reply.stops, h]
    | error e => simp [renew, stop, h]
  | error e =>
    by_cases hc : e.isCanceled
    · simp [renew, Reply.stops, hc]
    · by_cases hd : (e.asDependency.isSome || e.isUnsupported) = true
      · simp [renew, stop, hc, hd]
      · simp [renew, Reply.stops, hc, hd]

/-- A renewal leaves the work goroutine and the hand-over alone. -/
theorem renew_frame (s : Renewal) (reply : Reply) :
    (s.renew reply).todo = s.todo ∧ (s.renew reply).returned = s.returned ∧
      (s.renew reply).endedAtReturn = s.endedAtReturn ∧ (s.renew reply).sent = s.sent ∧
      (s.renew reply).final = s.final := by
  unfold renew
  dsimp only
  split
  · split <;> exact ⟨rfl, rfl, rfl, rfl, rfl⟩
  · split_ifs <;> exact ⟨rfl, rfl, rfl, rfl, rfl⟩

theorem Sound.renew (hs : Sound r s) (hsent : s.sent = none) (hstop : s.stopErr = none)
    (reply : Reply) : Sound r (s.renew reply) := by
  obtain ⟨hlog, hcase⟩ := renew_spec s reply
  obtain ⟨htodo, hret, hend, hsent', hfinal⟩ := renew_frame s reply
  have hopen : ¬s.sent.isSome := by simp [hsent]
  constructor
  · intro h
    rcases hcase with ⟨hse, -⟩ | ⟨e, -, hc⟩
    · rw [hse, hstop] at h
      cases h
    · exact hc
  · intro h p hp
    rcases hcase with ⟨-, hnone⟩ | ⟨e, hse, -⟩
    · rw [hlog, List.mem_cons] at hp
      rcases hp with rfl | hp
      · exact hnone
      · exact hs.logged hstop p hp
    · rw [hse] at h
      cases h
  · rw [hfinal, hsent']
    exact hs.given
  · exact hs.stage.of_eq htodo hret hend (fun h => absurd h hopen) fun h => absurd h hopen

theorem isSome_orElse {a : Option Err} (b : Option Err) (h : a.isSome) : (a <|> b).isSome := by
  cases a with
  | none => cases h
  | some x => rfl

theorem op_ret_spec (s : Renewal) (r : Option Err) :
    (s.op (.ret r)).stopErr = s.stopErr ∧ (s.op (.ret r)).log = s.log ∧
      (s.op (.ret r)).final = s.final ∧ (s.op (.ret r)).sent = s.sent ∧
      (s.op (.ret r)).returned = some (workResult s.cause r) ∧
      (s.op (.ret r)).endedAtReturn = s.cause.isSome ∧
      (s.cause.isSome → (s.op (.ret r)).cause.isSome) := by
  unfold op
  dsimp only
  split
  · exact ⟨rfl, rfl, rfl, rfl, rfl, rfl, id⟩
  · exact ⟨rfl, rfl, rfl, rfl, rfl, rfl, isSome_orElse _⟩

theorem Sound.work (hs : Sound r s) : Sound r (s.step .work) := by
  cases hs.stage with
  | working ht hr =>
    simp only [step, ht]
    exact ⟨hs.stopped, hs.logged, hs.given, .stopping rfl hr⟩
  | stopping ht hr =>
    simp only [step, ht, op]
    split_ifs with hw
    · exact hs
    · have hsent : s.sent.isSome := by
        rcases not_and_or.mp hw with h | h
        · exact Option.isSome_iff_ne_none.mpr (mt Option.isNone_iff_eq_none.mpr h)
        · exact hs.given (Option.isSome_iff_ne_none.mpr (mt Option.isNone_iff_eq_none.mpr h))
      obtain ⟨he, hsent⟩ := Option.isSome_iff_exists.mp hsent
      simp only [hsent]
      exact ⟨fun h => isSome_orElse _ (hs.stopped h), hs.logged, fun _ => rfl, .received rfl hr rfl⟩
  | received ht hr hsent =>
    obtain ⟨hstop, hlog, hfinal, hsent', hret, hend, hcause⟩ := op_ret_spec s r
    simp only [step, ht]
    constructor
    · intro h
      rw [hstop] at h
      exact hcause (hs.stopped h)
    · rw [hstop, hlog]
      exact hs.logged
    · rw [hfinal, hsent']
      exact hs.given
    · refine .ended rfl ?_ s.cause hret hend ?_
      · rw [hsent']
        exact hsent
      · rw [hstop]
        exact hs.stopped
  | ended ht =>
    simp only [step, ht]
    exact hs

theorem Sound.step (hs : Sound r s) (e : Event) : Sound r (s.step e) := by
  cases e with
  | work => exact hs.work
  | ctxEnds cause =>
    simp only [Renewal.step]
    split_ifs
    · exact hs
    · exact ⟨fun h => isSome_orElse _ (hs.stopped h), hs.logged, hs.given,
        hs.stage.of_eq rfl rfl rfl id fun _ => rfl⟩
  | tick reply =>
    simp only [Renewal.step]
    split_ifs with h
    · exact hs
    · simp only [not_or, Option.not_isSome_iff_eq_none] at h
      exact hs.renew h.1 h.2.2 reply
  | seesStop | seesDone =>
    simp only [Renewal.step]
    split_ifs
    · exact ⟨hs.stopped, hs.logged, hs.given, hs.stage.of_eq rfl rfl rfl id fun _ => rfl⟩
    · exact hs
  | sends =>
    simp only [Renewal.step]
    split_ifs
    · exact ⟨hs.stopped, hs.logged, fun _ => rfl,
        hs.stage.of_eq rfl rfl rfl (fun _ => rfl) fun _ => rfl⟩
    · exact hs

end Renewal

theorem doWhileRenewing_sound (h : Held) (r : Option Err) (events : List Event) :
    (doWhileRenewing h [.finalize, .receive, .ret r] events).Sound r :=
  after_invariant (fun _ e hs => hs.step e) (Renewal.sound_start h r) events

/-! ## The calls of a turn -/

/-- Neither the work nor the commit phase. -/
def Call.beside : Call → Bool
  | .doWork _ | .finish _ => false
  | _ => true

def Beside (calls : List Call) : Prop := calls.all Call.beside = true

theorem Beside.append {calls calls' : List Call} (h : Beside calls) (h' : Beside calls') :
    Beside (calls ++ calls') := by
  rw [Beside, List.all_append, h, h', Bool.and_self]

theorem Beside.notMem {calls : List Call} (h : Beside calls) {c : Call} (hc : c.beside = false) :
    c ∉ calls := by
  intro hm
  rw [List.all_eq_true.mp h c hm] at hc
  cases hc

section Turns
variable (w : Config) (opts : RunOpt) (env : Env)

/-- Nothing but modifications comes of a disposition. -/
theorem handleSentinelErrors_beside (e : Err) (task : Task) (sets : List DocSet) (errQ : String) :
    Beside (handleSentinelErrors opts env e task sets errQ).calls := by
  unfold handleSentinelErrors
  split <;> simp [commit, Beside, Call.beside]

theorem quarantineAtLimit_beside (task : Task) (sets : List DocSet) (e : Err) :
    Beside (quarantineAtLimit w opts env task sets e).1 := by
  unfold quarantineAtLimit
  split_ifs
  · simp [Beside]
  · exact handleSentinelErrors_beside ..

theorem dispose_beside (e : Err) (task : Task) (sets : List DocSet) (errQ : String)
    (outcome onErr : Outcome) (what : String) :
    Beside (dispose opts env e task sets errQ outcome onErr what).calls :=
  handleSentinelErrors_beside ..

theorem phaseFailed_beside (what : String) (task : Task) (sets : List DocSet) (e : Err) :
    Beside (phaseFailed w opts env what task sets e).calls := by
  unfold phaseFailed
  split_ifs
  · exact handleSentinelErrors_beside ..
  · exact quarantineAtLimit_beside ..

/-- What the work is given, once the handler has said which sets to claim. -/
def acquired (task : Task) (claims : List DocSetClaim) : Option Held :=
  if env.cueWork.isSome then none
  else if claims.isEmpty then some { task, sets := [] }
  else env.claimDocs.toOption.map fun sets => { task, sets }

/-- What the work is given, if all that comes before it lets the turn get there. -/
def workHold : Option Held :=
  if env.shutDown then none
  else
    match env.claim with
    | .error _ => none
    | .ok task =>
      if 0 < opts.maxClaims ∧ opts.maxClaims < task.claims then none
      else
        match env.makeHandler, env.decode, env.takeDocs with
        | none, none, .ok claims => acquired env task claims
        | _, _, _ => none

/-- The turn is the work stage on what is held, after calls of other phases, or it makes no calls
but such. -/
def EndsAt (hold : Option Held) (t : Turn) : Prop :=
  match hold with
  | some h => ∃ pre, t = (workStage w opts env h.task h.sets).after pre ∧ Beside pre
  | none => Beside t.calls

variable {w opts env}

theorem EndsAt.after {hold : Option Held} {t : Turn} (h : EndsAt w opts env hold t)
    {calls : List Call} (hc : Beside calls) : EndsAt w opts env hold (t.after calls) := by
  cases hold with
  | none => exact hc.append h
  | some held =>
    obtain ⟨pre, rfl, hpre⟩ := h
    exact ⟨calls ++ pre, by simp [Turn.after], hc.append hpre⟩

variable (w opts env)

theorem cueStage_endsAt (task : Task) (sets : List DocSet) :
    EndsAt w opts env (if env.cueWork.isSome then none else some { task, sets })
      (cueStage w opts env task sets) := by
  unfold cueStage
  cases env.cueWork with
  | some e => exact Beside.append rfl (phaseFailed_beside ..)
  | none => exact ⟨[.cueWork], rfl, rfl⟩

theorem acquireStage_endsAt (task : Task) (claims : List DocSetClaim) :
    EndsAt w opts env (acquired env task claims) (acquireStage w opts env task claims) := by
  unfold acquired acquireStage
  by_cases hempty : claims.isEmpty
  · rw [if_pos hempty, if_pos hempty]
    exact cueStage_endsAt w opts env task []
  · rw [if_neg hempty, if_neg hempty]
    refine EndsAt.after ?_ rfl
    cases env.claimDocs with
    | ok sets => exact cueStage_endsAt w opts env task sets
    | error e =>
      simp only [Except.toOption, Option.map_none, ite_self]
      cases e.asDependency with
      | some d => exact dispose_beside ..
      | none => exact rfl

theorem runOne_endsAt : EndsAt w opts env (workHold opts env) (runOne w opts env) := by
  unfold workHold runOne
  split_ifs
  · exact rfl
  cases env.claim with
  | error e => exact rfl
  | ok task =>
    dsimp only
    split_ifs
    · exact dispose_beside ..
    refine EndsAt.after ?_ rfl
    cases env.makeHandler with
    | some e => exact rfl
    | none =>
      cases env.decode with
      | some e => exact dispose_beside ..
      | none =>
        refine EndsAt.after ?_ rfl
        cases env.takeDocs with
        | error e => exact phaseFailed_beside ..
        | ok claims => exact acquireStage_endsAt w opts env task claims

theorem workHold_phases {env : Env} {h : Held} (hh : workHold opts env = some h) :
    env.takeDocs.isOk ∧ env.cueWork = none := by
  unfold workHold at hh
  split_ifs at hh
  split at hh
  · cases hh
  split_ifs at hh
  split at hh
  · next claims _ _ ht =>
    unfold acquired at hh
    split_ifs at hh with hcue
    all_goals exact ⟨by rw [ht]; rfl, Option.not_isSome_iff_eq_none.mp hcue⟩
  · cases hh

theorem mem_runOne {c : Call} (hc : c.beside = false) :
    c ∈ (runOne w opts env).calls ↔
      ∃ h, workHold opts env = some h ∧ c ∈ (workStage w opts env h.task h.sets).calls := by
  have hends := runOne_endsAt w opts env
  cases hh : workHold opts env with
  | none =>
    rw [hh] at hends
    exact ⟨fun hm => absurd hm (Beside.notMem hends hc), nofun⟩
  | some h =>
    rw [hh] at hends
    obtain ⟨pre, heq, hpre⟩ := hends
    rw [heq, Turn.after, List.mem_append, or_iff_right (hpre.notMem hc)]
    simp

/-- The worker goes on from the work to `Finish`. -/
structure Commits (s : Renewal) : Prop where
  kept : s.stopErr = none
  plain : env.doWork.filter isSentinelError = none
  returned : s.returned.join = none

theorem finishStage_calls (h : Held) (errQ : String) :
    ∃ rest, Beside rest ∧ (finishStage w opts env h errQ).calls = .finish h :: rest := by
  refine ⟨_, ?_, rfl⟩
  rw [List.append_eq, List.nil_append]
  split
  · rfl
  · split
    · rfl
    · dsimp only
      split
      · exact handleSentinelErrors_beside ..
      · split
        · rfl
        · split <;> rfl

theorem finishStage_shutdown {w : Config} {opts : RunOpt} {env : Env} {h : Held} {errQ : String}
    {err : Err} (hf : env.finish = some err) (hs : err.isShutdown = true) :
    (finishStage w opts env h errQ).err = some err := by
  simp only [finishStage, hf, hs, Turn.after, if_true]

theorem finishStage_other {w : Config} {opts : RunOpt} {env : Env} {h : Held} {errQ : String}
    {err : Err} (hf : env.finish = some err) (hs : err.isShutdown = false)
    (hsen : isSentinelError err = false) (hd : err.asDependency = none) :
    ∃ err, (finishStage w opts env h errQ).err = some err ∧ err.isShutdown = false := by
  simp only [isSentinelError, Bool.or_eq_false_iff, Option.isSome_eq_false_iff,
    Option.isNone_iff_eq_none] at hsen
  obtain ⟨⟨h1, h2⟩, h3⟩ := hsen
  simp only [finishStage, hf, hs, Turn.after, handleSentinelErrors, h1, h2, h3, hd, Bool.false_eq_true,
    if_false, Option.isSome_none]
  split_ifs
  · exact ⟨_, rfl, hs⟩
  · exact ⟨_, rfl, hs⟩

/-- A retry that asks to be the last stops the worker, whether it could be made or not. -/
theorem handleSentinelErrors_stop {opts : RunOpt} {env : Env} {re : RetryError}
    (hstop : re.stop = true) (task : Task) (sets : List DocSet) (errQ : String) :
    (handleSentinelErrors opts env re.err task sets errQ).err.isSome := by
  unfold handleSentinelErrors
  cases env.ctxErr with
  | some c => rfl
  | none =>
    simp only [RetryError.err, commit, hstop, stopAfter, if_true]
    split
    · rfl
    · split_ifs
      · rfl
      · rfl

theorem phaseFailed_stop {w : Config} {opts : RunOpt} {env : Env} {re : RetryError}
    (hstop : re.stop = true) (what : String) (task : Task) (sets : List DocSet) :
    (phaseFailed w opts env what task sets re.err).err.isSome := by
  simp only [phaseFailed, isSentinelError, RetryError.err, Option.isSome_some, Bool.true_or, if_true]
  exact handleSentinelErrors_stop hstop task sets _

/-- A renewal that stops for another reason than a lost claim stops the worker. -/
theorem workEnded_renewal {w : Config} {opts : RunOpt} {env : Env} {s : Renewal} {e : Err}
    (hs : s.stopErr = some e) (he : e.asDependency = none) (task : Task) (final : Held) :
    (workEnded w opts env task s final).err.isSome := by
  simp only [workEnded, hs, he, Option.isSome_none, Bool.false_eq_true, if_false]
  split <;> rfl

theorem workEnded_stop {w : Config} {opts : RunOpt} {env : Env} {s : Renewal} {re : RetryError}
    (hwork : env.doWork = some re.err) (hstop : re.stop = true) (task : Task) (final : Held)
    (hkept : ∀ e, s.stopErr = some e → e.asDependency = none) :
    (workEnded w opts env task s final).err.isSome := by
  cases hs : s.stopErr with
  | some e => exact workEnded_renewal hs (hkept e hs) task final
  | none =>
    have hsen : env.doWork.filter isSentinelError = some re.err := by
      rw [hwork]
      rfl
    simp only [workEnded, hs, hsen, dispose, Option.isSome_map]
    exact handleSentinelErrors_stop hstop _ _ _

theorem workEnded_calls (task : Task) (s : Renewal) (final : Held) :
    Beside (workEnded w opts env task s final).calls ∧ ¬Commits env s ∨
      Commits env s ∧ ∃ rest, Beside rest ∧
        (workEnded w opts env task s final).calls = .finish final :: rest := by
  unfold workEnded
  dsimp only
  cases hstop : s.stopErr with
  | some e =>
    left
    refine ⟨?_, fun hc => by simpa [hstop] using hc.kept⟩
    dsimp only
    split
    · rfl
    · split_ifs <;> rfl
  | none =>
    dsimp only
    cases hsen : env.doWork.filter isSentinelError with
    | some e => exact .inl ⟨dispose_beside .., fun hc => by simpa [hsen] using hc.plain⟩
    | none =>
      dsimp only
      cases hret : s.returned.join with
      | some e =>
        left
        refine ⟨?_, fun hc => by simpa [hret] using hc.returned⟩
        dsimp only
        by_cases ht : 0 < opts.workTimeout ∧ env.workExpired
        · rw [if_pos ht]
          exact dispose_beside ..
        · rw [if_neg ht]
          cases env.doWork with
          | some e => exact quarantineAtLimit_beside ..
          | none => rfl
      | none => exact .inr ⟨⟨hstop, hsen, hret⟩, finishStage_calls w opts env final _⟩

theorem doWork_mem_workStage {task : Task} {sets : List DocSet} {h : Held} :
    Call.doWork h ∈ (workStage w opts env task sets).calls ↔ h = { task, sets } := by
  simp only [workStage, Turn.after, List.singleton_append, List.mem_cons, Call.doWork.injEq]
  refine or_iff_left fun hm => ?_
  split_ifs at hm
  · rcases workEnded_calls w opts env task _ _ with ⟨hb, -⟩ | ⟨-, rest, hb, heq⟩
    · exact hb.notMem rfl hm
    · rw [heq, List.mem_cons] at hm
      rcases hm with hm | hm
      · cases hm
      · exact hb.notMem rfl hm
  · cases hm

theorem finish_mem_workStage {task : Task} {sets : List DocSet} :
    (∃ h, Call.finish h ∈ (workStage w opts env task sets).calls) ↔
      (workPhase env { task, sets }).finished ∧ Commits env (workPhase env { task, sets }) := by
  simp only [workStage, Turn.after, List.singleton_append, List.mem_cons, reduceCtorEq, false_or]
  split_ifs with hf
  · simp only [hf, true_and]
    rcases workEnded_calls w opts env task (workPhase env { task, sets })
      ((workPhase env { task, sets }).final.getD { task, sets }) with ⟨hb, hc⟩ | ⟨hc, rest, -, heq⟩
    · exact ⟨fun ⟨h, hm⟩ => absurd hm (hb.notMem rfl), fun h => absurd h hc⟩
    · exact ⟨fun _ => hc, fun _ => ⟨_, by rw [heq]; exact List.mem_cons_self⟩⟩
  · simp [hf]

theorem doWork_mem_runOne {h : Held} :
    Call.doWork h ∈ (runOne w opts env).calls ↔ workHold opts env = some h := by
  simp only [mem_runOne w opts env (c := .doWork h) rfl, doWork_mem_workStage]
  exact ⟨fun ⟨h', hh, he⟩ => he ▸ hh, fun hh => ⟨h, hh, rfl⟩⟩

theorem finish_mem_runOne : (∃ h, Call.finish h ∈ (runOne w opts env).calls) ↔
    ∃ h, workHold opts env = some h ∧ (workPhase env h).finished ∧ Commits env (workPhase env h) := by
  simp only [mem_runOne w opts env (c := .finish _) rfl, ← finish_mem_workStage w opts env]
  exact ⟨fun ⟨h', h, hh, hm⟩ => ⟨h, hh, h', hm⟩, fun ⟨h, hh, h', hm⟩ => ⟨h', h, hh, hm⟩⟩

theorem workPhase_returned {h : Held} (hf : (workPhase env h).finished) :
    ∃ c : Option Err, (workPhase env h).returned = some (Renewal.workResult c (workReturn env)) ∧
      (workPhase env h).endedAtReturn = c.isSome ∧
      ((workPhase env h).stopErr.isSome → c.isSome) := by
  rw [Renewal.finished, Bool.and_eq_true] at hf
  cases (doWhileRenewing_sound h (workReturn env) env.events).stage with
  | ended _ _ c hret hend hstop => exact ⟨c, hret, hend, hstop⟩
  | working _ hr | stopping _ hr | received _ hr =>
    rw [workPhase, workOps, hr] at hf
    cases hf.2

/-- Every phase before `Finish` returned nil, and no renewal found the claim gone. -/
structure Succeeded (t : Turn) : Prop where
  takeDocs : env.takeDocs.isOk
  cueWork : env.cueWork = none
  doWork : env.doWork = none
  renewals : ∀ h, Call.doWork h ∈ t.calls → ∀ p ∈ (workPhase env h).log, Reply.stops p.1 p.2 = none

/-- `Finish` follows only success, unless `DoWork` returns an error, no sentinel, that wraps
`context.Canceled` while the context of the work is live. -/
theorem finish_follows_success_iff :
    ((∃ h, Call.finish h ∈ (runOne w opts env).calls) → Succeeded env (runOne w opts env)) ↔
      ∀ h e, workHold opts env = some h → (workPhase env h).finished →
        env.doWork = some e → isSentinelError e = false → e.isCanceled →
          (workPhase env h).endedAtReturn := by
  constructor
  · intro hsucc h e hh hf he hsen hcan
    obtain ⟨c, hret, hend, hstop⟩ := workPhase_returned env hf
    cases c with
    | some x => exact hend
    | none =>
      have hcommits : Commits env (workPhase env h) := by
        have hnone : ¬(workPhase env h).stopErr.isSome := fun h => nomatch hstop h
        refine ⟨Option.not_isSome_iff_eq_none.mp hnone, ?_, ?_⟩
        · simp [he, hsen]
        · simp [hret, workReturn, he, hsen, Renewal.workResult, Err.wrap, hcan]
      have := (hsucc ((finish_mem_runOne w opts env).mpr ⟨h, hh, hf, hcommits⟩)).doWork
      rw [he] at this
      cases this
  · intro hlive hfin
    obtain ⟨h, hh, hf, hcommits⟩ := (finish_mem_runOne w opts env).mp hfin
    obtain ⟨ht, hcue⟩ := workHold_phases opts hh
    refine ⟨ht, hcue, ?_, fun h' hm => ?_⟩
    · cases he : env.doWork with
      | none => rfl
      | some e =>
        have hsen : isSentinelError e = false := by
          have := hcommits.plain
          simpa [he] using this
        obtain ⟨c, hret, hend, -⟩ := workPhase_returned env hf
        have hres := hcommits.returned
        by_cases hcan : e.isCanceled
        · have := hlive h e hh hf he hsen hcan
          rw [hend] at this
          obtain ⟨x, rfl⟩ := Option.isSome_iff_exists.mp this
          simp [hret, workReturn, he, hsen, Renewal.workResult, Err.wrap, hcan] at hres
        · simp [hret, workReturn, he, hsen, Renewal.workResult, Err.wrap, hcan] at hres
    · obtain rfl := Option.some.inj (hh.symm.trans ((doWork_mem_runOne w opts env).mp hm))
      exact (doWhileRenewing_sound _ (workReturn env) env.events).logged hcommits.kept

end Turns

/-- A turn whose `DoWork` fails for a context of its own, with nothing else amiss. -/
def ownCancel : Env where
  claimant := "worker"
  claim := .ok { queue := "jobs", id := "job", claims := 1 }
  doWork := some (canceled.wrap "fetch")
  events := [.work, .seesStop, .sends, .work, .work]

/-- `Finish` is called although `DoWork` failed. -/
theorem finish_after_failed_work :
    ownCancel.doWork = some (canceled.wrap "fetch") ∧
      ∃ h, Call.finish h ∈ (runOne {} { qs := ["jobs"] } ownCancel).calls :=
  ⟨rfl, { task := { queue := "jobs", id := "job", claims := 1 }, sets := [] }, by decide⟩

end EntroQ.Worker
