import EntroQ.Async.LaneRun
import EntroQ.Worker.Phases

/-! # How a turn leaves its side

A commit lands and the worker stops if the turn asks for it; a refused commit ends the lane if the
result has a hook for it, and the worker claims again if not; a lost claim never comes to a commit,
and the worker claims again. -/

namespace EntroQ.Async
open Foundation Worker

section Turn
variable {V : Type} (k : LaneWorker V) {w : Work V} {r : LaneResult V} {e : Ending}

theorem result_deletes (r : LaneResult V) (task : Task) :
    (newModification "" (r.result k task).mods).deletes = [task.idVersion] := by
  rcases r with ⟨_ | ⟨q, v⟩, _ | _ | _, turn, dep⟩ <;> rfl

/-- What `Finish` returns. -/
def finishErr (r : LaneResult V) : Option Err → Option Err
  | none =>
    if r.turn != .next then
      some (errShutdown.wrap "stopping after a result that asked to be the last")
    else none
  | some e => some (commitFailed (some (r.result k w.task)) e)

theorem finish_err (answer : Option Err) :
    (doModifyFinish w.task (some (r.result k w.task)) ⟨w.task, w.sets⟩ k.claimant
      fun _ => answer).err = finishErr k (w := w) r answer := by
  have hver : ¬(⟨w.task, w.sets⟩ : Held).task.version < w.task.version := fun h => Int32.lt_irrefl h
  rw [doModifyFinish_deletes hver rfl (by rw [result_deletes]; exact List.cons_ne_nil _ _)]
  cases answer <;> rfl

/-- What comes after a turn whose handler returned a result. -/
inductive After
  | landed
  | again
  | broken
  deriving DecidableEq

def LaneResult.after (r : LaneResult V) : Ending → After
  | .lost _ => .again
  | .committed => if r.valid then .landed else .broken
  | .refused _ => if r.valid && r.onDependency.isNone then .again else .broken
  | .unanswered _ _ => .broken

theorem after_landed (h : r.after e = .landed) : e = .committed ∧ r.valid = true := by
  cases e with
  | committed =>
    refine ⟨rfl, ?_⟩
    by_contra hv
    simp [LaneResult.after, hv] at h
  | refused d => simp only [LaneResult.after] at h; split_ifs at h
  | _ => cases h

/-- A turn is made again if its claim is lost, or its commit is refused and there is no hook. -/
theorem after_again (h : r.after e = .again) :
    (∃ d, e = .lost d) ∨ r.onDependency = none ∧ ∃ d, e = .refused d := by
  cases e with
  | lost d => exact .inl ⟨d, rfl⟩
  | committed => simp only [LaneResult.after] at h; split_ifs at h
  | refused d =>
    simp only [LaneResult.after] at h
    split_ifs at h with hd
    rw [Bool.and_eq_true, Option.isNone_iff_eq_none] at hd
    exact .inr ⟨hd.2, d, rfl⟩
  | unanswered text applied => cases h

/-- A turn that is not lost ends with the error of its `Finish`. -/
theorem turn_finish (he : e.renewErr = none) :
    ∃ env : Env, (⟨w, .ok r⟩ : Pending V).turn k e =
        finishStage k.base k.opts env ⟨w.task, w.sets⟩ (k.base.errorQueueFor w.task.queue) ∧
      env.ctxErr = none ∧ env.finish = finishErr k (w := w) r
        (if r.valid then e.answer else some { msg := "inserting into no queue" }) := by
  simp only [Pending.turn, he, workEnded]
  exact ⟨_, rfl, rfl, finish_err k _⟩

theorem finishes_ok (he : e.renewErr = none) : (⟨w, .ok r⟩ : Pending V).finishes k e = true := by
  obtain ⟨env, hturn, -⟩ := turn_finish k (w := w) (r := r) he
  obtain ⟨rest, -, hcalls⟩ := finishStage_calls k.base k.opts env ⟨w.task, w.sets⟩
    (k.base.errorQueueFor w.task.queue)
  rw [Pending.finishes, hturn, hcalls]
  rfl

/-- The error that the turn leaves the worker with. -/
theorem turn_err : match r.after e with
    | .landed => ((⟨w, .ok r⟩ : Pending V).turn k e).err = finishErr k (w := w) r none
    | .again => ((⟨w, .ok r⟩ : Pending V).turn k e).err = none
    | .broken => ∃ err, ((⟨w, .ok r⟩ : Pending V).turn k e).err = some err ∧
        err.isShutdown = false := by
  by_cases hlost : e.renewErr = none
  · obtain ⟨env, hturn, hctx, hfin⟩ := turn_finish k (w := w) (r := r) hlost
    rw [hturn]
    cases hv : r.valid with
    | false =>
      have hafter : r.after e = .broken := by
        cases e with
        | lost d => cases hlost
        | _ => simp [LaneResult.after, hv]
      simp only [hafter]
      simp only [hv, Bool.false_eq_true, if_false, finishErr] at hfin
      exact finishStage_other hfin rfl rfl rfl
    | true =>
      simp only [hv, if_true] at hfin
      cases e with
      | lost d => cases hlost
      | committed =>
        simp only [LaneResult.after, hv, if_true]
        cases ht : r.turn != .next with
        | true =>
          simp only [Ending.answer, finishErr, ht, if_true] at hfin
          simp [finishStage, hfin, Turn.after, Err.wrap, errShutdown, finishErr, ht]
        | false =>
          simp only [Ending.answer, finishErr, ht, Bool.false_eq_true, if_false] at hfin
          simp [finishStage, hfin, Turn.after, finishErr, ht]
      | refused d =>
        simp only [Ending.answer, finishErr, commitFailed, LaneResult.result, Option.bind_some] at hfin
        cases hd : r.onDependency with
        | none =>
          simp only [hd, Option.map_none] at hfin
          simp [LaneResult.after, hv, hd, finishStage, hfin, Turn.after, Err.wrap,
            handleSentinelErrors]
        | some text =>
          simp only [hd, Option.map_some, Option.getD_some] at hfin
          simp [LaneResult.after, hv, hd, finishStage, hfin, Turn.after, FatalError.err,
            handleSentinelErrors]
      | unanswered text applied =>
        simp only [Ending.answer, finishErr] at hfin
        exact finishStage_other hfin rfl rfl rfl
  · cases e with
    | lost d => rfl
    | _ => exact absurd rfl hlost

/-- A turn whose handler failed does not come to its commit. -/
theorem finishes_error (err : Err) : (⟨w, .error err⟩ : Pending V).finishes k e = false := by
  unfold Pending.finishes Pending.turn
  rcases workEnded_calls k.base k.opts _ w.task _ _ with ⟨hb, -⟩ | ⟨hc, -⟩
  · rw [List.any_eq_false]
    intro c hc
    have := List.all_eq_true.mp hb c hc
    cases c <;> first | exact Bool.false_ne_true | cases this
  · -- the error is there, and so is the reason if it is a cancellation
    have hplain := hc.plain
    have hret := hc.returned
    simp only [Pending.err, Option.filter_some] at hplain
    have hsen : isSentinelError err = false := by
      by_contra h
      simp [h] at hplain
    simp only [Pending.err, workReturn, hsen, Bool.false_eq_true, if_false, Option.join_some,
      Renewal.workResult] at hret
    split_ifs at hret with hcan
    rw [Option.map_eq_none_iff] at hret
    cases hr : e.renewErr <;> simp [hr] at hret

/-- A handler's fatal error is the worker's, whether the claim is lost or not. -/
theorem turn_fatal {err : Err} (hf : err.asFatal.isSome) (hr : err.asRetry = none)
    (hm : err.asMove = none) :
    ∃ err', ((⟨w, .error err⟩ : Pending V).turn k e).err = some err' ∧ err'.isShutdown = false := by
  obtain ⟨fe, hfe⟩ := Option.isSome_iff_exists.mp hf
  unfold Pending.turn workEnded
  cases e.renewErr with
  | some renewErr =>
    simp only [Pending.err, Option.bind_some, hfe]
    exact ⟨_, rfl, rfl⟩
  | none =>
    have hsen : isSentinelError err = true := by simp [isSentinelError, hf]
    simp only [Pending.err, Option.filter_some, hsen, if_true, dispose, handleSentinelErrors, hr,
      hm, hfe]
    exact ⟨_, rfl, rfl⟩

theorem applies_ok : (⟨w, .ok r⟩ : Pending V).applies k e = (r.valid && e.applied) := by
  cases e with
  | lost d => simp [Pending.applies, Ending.applied]
  | _ =>
    rw [Pending.applies, finishes_ok k rfl, Bool.true_and]
    rfl

theorem applies_error (err : Err) : (⟨w, .error err⟩ : Pending V).applies k e = false := by
  rw [Pending.applies, finishes_error, Bool.false_and, Bool.false_and]

end Turn

/-! ## The side after a turn -/

section Sides
variable {σ ι V : Type} [Frame V] (k : LaneWorker V) (h : LaneHandler σ ι V) (x : Side σ V)
  {w : Work V} {r : LaneResult V} {e : Ending}

/-- A result whose modification is made names the queue its side is on from then. -/
theorem finish_status_ok : (x.finish k h ⟨w, .ok r⟩ e).status =
    match r.after e with
    | .landed =>
      match r.turn with
      | .next => x.status
      | .rotated => .claiming (h.lanes x.st).local_.queue
      | .done => .done
    | .again => x.status
    | .broken => .failed := by
  have herr := turn_err k (w := w) (r := r) (e := e)
  unfold Side.finish
  cases ha : r.after e with
  | again =>
    rw [ha] at herr
    simp only [herr]
  | broken =>
    rw [ha] at herr
    obtain ⟨err, he, hs⟩ := herr
    simp [he, hs]
  | landed =>
    rw [ha] at herr
    obtain ⟨rfl, hv⟩ := after_landed ha
    have hrec : (⟨w, .ok r⟩ : Pending V).recorded k .committed = r.turn := by
      have hans : (⟨w, .ok r⟩ : Pending V).answer .committed = none := by
        simp [Pending.answer, Pending.result, Except.toOption, hv, Ending.answer]
      have hfin : (⟨w, .ok r⟩ : Pending V).finishes k .committed = true := finishes_ok k rfl
      simp [Pending.recorded, Pending.result, Except.toOption, hfin, hans]
    simp only [herr, hrec, finishErr]
    cases r.turn <;> rfl

/-- A worker whose modification is not made goes on only to make the turn again. -/
theorem finish_unapplied (happ : (⟨w, .ok r⟩ : Pending V).applies k e = false) :
    r.after e = .again ∧ (x.finish k h ⟨w, .ok r⟩ e).status = x.status ∨
      (x.finish k h ⟨w, .ok r⟩ e).status = .failed := by
  rw [finish_status_ok]
  cases ha : r.after e with
  | landed =>
    obtain ⟨rfl, hv⟩ := after_landed ha
    rw [applies_ok, hv] at happ
    cases happ
  | again => exact .inl ⟨rfl, rfl⟩
  | broken => exact .inr rfl

/-- Only a turn that ends the direction finishes its side. -/
theorem finish_not_done (hturn : r.turn ≠ .done) (hx : x.status ≠ .done) :
    (x.finish k h ⟨w, .ok r⟩ e).status ≠ .done := by
  rw [finish_status_ok]
  cases r.after e with
  | landed =>
    cases ht : r.turn with
    | next => exact hx
    | rotated => nofun
    | done => exact absurd ht hturn
  | again => exact hx
  | broken => nofun

theorem finish_status_error (err : Err) :
    (x.finish k h ⟨w, .error err⟩ e).status = x.status ∨
      (x.finish k h ⟨w, .error err⟩ e).status = .failed := by
  unfold Side.finish
  dsimp only
  split
  · exact .inl rfl
  · split_ifs
    · exact .inr rfl
    · exact .inr rfl

/-- A fatal error of the handler ends the lane, lost or not. -/
theorem finish_status_fatal {err : Err} (hf : err.asFatal.isSome) (hr : err.asRetry = none)
    (hm : err.asMove = none) : (x.finish k h ⟨w, .error err⟩ e).status = .failed := by
  obtain ⟨err', he, hs⟩ := turn_fatal k (w := w) (e := e) hf hr hm
  simp [Side.finish, he, hs]

end Sides

end EntroQ.Async
