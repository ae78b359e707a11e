import EntroQ.Worker.Renewal

/-! # What the renewal hands over

Whatever order the two goroutines of `doWhileRenewing` take their steps in, and however often the
work asks for it, the hold that is handed over is the one left by the last renewal that was
answered in full; no renewal follows; and the renewal has an error exactly if a reply ended the
hold. -/

namespace EntroQ.Worker
open Foundation

/-- What a reply to a renewal of a hold says, in the order the worker asks. -/
inductive ReplyKind
  | full (h : Held)
  | incomplete (e : Err)
  | cancelled
  | lost (e : Err)
  | unsupported (e : Err)
  | transient (e : Err)
  deriving DecidableEq

def Reply.kind (h : Held) : Reply → ReplyKind
  | .ok resp =>
    match h.renewed resp with
    | .ok h' => .full h'
    | .error e => .incomplete e
  | .error e =>
    if e.isCanceled then .cancelled
    else if e.asDependency.isSome then .lost e
    else if e.isUnsupported then .unsupported e
    else .transient e

/-- The reply reports that the claim is lost, that the server cannot renew, or not everything that
was to be renewed. -/
def ReplyKind.endsHold : ReplyKind → Bool
  | .incomplete _ | .lost _ | .unsupported _ => true
  | _ => false

/-- The hold the last full reply leaves, or the first; replies and holds come latest first. -/
def holdAfter (h : Held) : List (Held × Reply) → Held
  | [] => h
  | (cur, reply) :: log =>
    match reply.kind cur with
    | .full h' => h'
    | _ => holdAfter h log

def Chained (h : Held) : List (Held × Reply) → Prop
  | [] => True
  | (cur, _) :: log => cur = holdAfter h log ∧ Chained h log

namespace Renewal

theorem renew_kind (s : Renewal) (reply : Reply) :
    (s.renew reply).log = (s.cur, reply) :: s.log ∧
      (s.renew reply).sent = s.sent ∧ (s.renew reply).final = s.final ∧
      (s.renew reply).cur = (match reply.kind s.cur with
        | .full h' => h'
        | _ => s.cur) ∧
      ((reply.kind s.cur).endsHold = true ∧ (s.renew reply).stopErr.isSome = true ∨
        (reply.kind s.cur).endsHold = false ∧ (s.renew reply).stopErr = s.stopErr) := by
  cases reply with
  | ok resp =>
    cases h : s.cur.renewed resp with
    | ok h' => simp [renew, Reply.kind, ReplyKind.endsHold, h]
    | error e => simp [renew, stop, Reply.kind, ReplyKind.endsHold, h]
  | error e =>
    by_cases hc : e.isCanceled
    · simp [renew, Reply.kind, ReplyKind.endsHold, hc]
    · by_cases hd : e.asDependency.isSome
      · simp [renew, stop, Reply.kind, ReplyKind.endsHold, hc, hd]
      · by_cases hu : e.isUnsupported
        · simp [renew, stop, Reply.kind, ReplyKind.endsHold, hc, hd, hu]
        · simp [renew, Reply.kind, ReplyKind.endsHold, hc, hd, hu]

/-- What every step keeps, whatever the work does. -/
structure HandsOver (h : Held) (s : Renewal) : Prop where
  cur : s.cur = holdAfter h s.log
  chained : Chained h s.log
  stopped : s.stopErr.isSome = true ↔ ∃ p ∈ s.log, (p.2.kind p.1).endsHold = true
  sent : ∀ f e, s.sent = some (f, e) → f = s.cur
  final : ∀ f, s.final = some f → s.sent.isSome = true ∧ f = s.cur

variable {h : Held} {s s' : Renewal}

theorem handsOver_start (h : Held) (todo : List WorkOp) : HandsOver h (start h todo) where
  cur := rfl
  chained := trivial
  stopped := by simp [start]
  sent := by simp [start]
  final := by simp [start]

/-- Steps that leave the renewal and the hand-over alone. -/
theorem HandsOver.of_eq (hs : HandsOver h s) (hcur : s'.cur = s.cur) (hlog : s'.log = s.log)
    (hstop : s'.stopErr = s.stopErr) (hsent : s'.sent = s.sent) (hfinal : s'.final = s.final) :
    HandsOver h s' where
  cur := by rw [hcur, hlog]; exact hs.cur
  chained := hlog ▸ hs.chained
  stopped := by rw [hstop, hlog]; exact hs.stopped
  sent := by rw [hsent, hcur]; exact hs.sent
  final := by rw [hfinal, hsent, hcur]; exact hs.final

theorem HandsOver.renew (hs : HandsOver h s) (hopen : s.sent = none) (hgo : s.stopErr = none)
    (reply : Reply) : HandsOver h (s.renew reply) := by
  obtain ⟨hlog, hsent, hfinal, hcur, hkind⟩ := renew_kind s reply
  have hnone : ∀ p ∈ s.log, (p.2.kind p.1).endsHold = false := by
    intro p hp
    rw [← Bool.not_eq_true]
    intro hends
    have := hs.stopped.mpr ⟨p, hp, hends⟩
    simp [hgo] at this
  constructor
  · rw [hcur, hlog, holdAfter, hs.cur]
  · rw [hlog]
    exact ⟨hs.cur, hs.chained⟩
  · rw [hlog]
    rcases hkind with ⟨hends, hstop⟩ | ⟨hends, hstop⟩
    · exact iff_of_true hstop ⟨_, List.mem_cons_self, hends⟩
    · rw [hstop, hgo]
      refine iff_of_false (by simp) ?_
      rintro ⟨p, hp, hp'⟩
      rcases List.mem_cons.mp hp with rfl | hp
      · rw [hends] at hp'
        cases hp'
      · rw [hnone p hp] at hp'
        cases hp'
  · rw [hsent, hopen]
    simp
  · intro f hf
    rw [hfinal] at hf
    have := (hs.final f hf).1
    simp [hopen] at this

theorem HandsOver.work (hs : HandsOver h s) (o : WorkOp) (rest : List WorkOp) :
    HandsOver h { s.op o with todo := rest } := by
  cases o with
  | finalize => exact hs.of_eq rfl rfl rfl rfl rfl
  | receive =>
    simp only [op]
    split
    · exact hs.of_eq rfl rfl rfl rfl rfl
    · next f e hsent =>
      refine ⟨hs.cur, hs.chained, hs.stopped, hs.sent, ?_⟩
      intro f' hf'
      cases hf'
      exact ⟨by rw [hsent]; rfl, hs.sent f e hsent⟩
  | ret e =>
    simp only [op]
    split
    · exact hs.of_eq rfl rfl rfl rfl rfl
    · exact hs.of_eq rfl rfl rfl rfl rfl

theorem HandsOver.step (hs : HandsOver h s) (e : Event) : HandsOver h (s.step e) := by
  cases e with
  | ctxEnds cause =>
    simp only [Renewal.step]
    split_ifs
    · exact hs
    · exact hs.of_eq rfl rfl rfl rfl rfl
  | tick reply =>
    simp only [Renewal.step]
    split_ifs with hc
    · exact hs
    · simp only [not_or, Option.not_isSome_iff_eq_none] at hc
      exact hs.renew hc.1 hc.2.2 reply
  | seesStop =>
    simp only [Renewal.step]
    split_ifs
    · exact hs.of_eq rfl rfl rfl rfl rfl
    · exact hs
  | seesDone =>
    simp only [Renewal.step]
    split_ifs
    · exact hs.of_eq rfl rfl rfl rfl rfl
    · exact hs
  | sends =>
    simp only [Renewal.step]
    split_ifs
    · refine ⟨hs.cur, hs.chained, hs.stopped, ?_, ?_⟩
      · intro f e hfe
        cases hfe
        rfl
      · intro f hf
        exact ⟨rfl, (hs.final f hf).2⟩
    · exact hs
  | work =>
    simp only [Renewal.step]
    split
    · exact hs
    · split_ifs
      · exact hs
      · exact hs.work .receive _
    · exact hs.work _ _

/-- Once the hold is handed over or lost, nothing is renewed. -/
theorem step_quiet (hq : s.sent.isSome = true ∨ s.stopErr.isSome = true) (e : Event) :
    (s.step e).log = s.log ∧
      ((s.step e).sent.isSome = true ∨ (s.step e).stopErr.isSome = true) := by
  have hop : ∀ (o : WorkOp) (rest : List WorkOp),
      ({ s.op o with todo := rest } : Renewal).log = s.log ∧
        (({ s.op o with todo := rest } : Renewal).sent.isSome = true ∨
          ({ s.op o with todo := rest } : Renewal).stopErr.isSome = true) := by
    intro o rest
    cases o with
    | finalize => exact ⟨rfl, hq⟩
    | receive =>
      simp only [op]
      split
      · exact ⟨rfl, hq⟩
      · next hsent => exact ⟨rfl, .inl (by rw [hsent]; rfl)⟩
    | ret e =>
      simp only [op]
      split
      · exact ⟨rfl, hq⟩
      · exact ⟨rfl, hq⟩
  cases e with
  | ctxEnds cause =>
    simp only [Renewal.step]
    split_ifs
    · exact ⟨rfl, hq⟩
    · exact ⟨rfl, hq⟩
  | tick reply =>
    simp only [Renewal.step]
    rw [if_pos (hq.imp_right .inr)]
    exact ⟨rfl, hq⟩
  | seesStop =>
    simp only [Renewal.step]
    split_ifs <;> exact ⟨rfl, hq⟩
  | seesDone =>
    simp only [Renewal.step]
    split_ifs <;> exact ⟨rfl, hq⟩
  | sends =>
    simp only [Renewal.step]
    split_ifs
    · exact ⟨rfl, .inl rfl⟩
    · exact ⟨rfl, hq⟩
  | work =>
    simp only [Renewal.step]
    split
    · exact ⟨rfl, hq⟩
    · split_ifs
      · exact ⟨rfl, hq⟩
      · exact hop .receive _
    · exact hop _ _

theorem after_quiet (hq : s.sent.isSome = true ∨ s.stopErr.isSome = true) (events : List Event) :
    (after Renewal.step s events).log = s.log := by
  induction events generalizing s with
  | nil => rfl
  | cons e events ih =>
    obtain ⟨hlog, hq'⟩ := step_quiet hq e
    rw [after_cons, ih hq', hlog]

end Renewal

theorem doWhileRenewing_handsOver (h : Held) (todo : List WorkOp) (events : List Event) :
    (doWhileRenewing h todo events).HandsOver h :=
  after_invariant (fun _ e hs => hs.step e) (Renewal.handsOver_start h todo) events

/-- For every order of the steps and every use the work makes of `finalize`: what `finalize` is
given is the hold after the last renewal answered in full; nothing is renewed once it has returned
or a reply ended the hold; and at the end there is a renewal error exactly if a reply did. -/
theorem handOver_sound (h : Held) (todo : List WorkOp) (events : List Event) :
    Chained h (doWhileRenewing h todo events).log ∧
    (∀ f, (doWhileRenewing h todo events).final = some f →
      f = holdAfter h (doWhileRenewing h todo events).log) ∧
    ((doWhileRenewing h todo events).final.isSome = true ∨
        (∃ p ∈ (doWhileRenewing h todo events).log, (p.2.kind p.1).endsHold = true) →
      ∀ more, (doWhileRenewing h todo (events ++ more)).log =
        (doWhileRenewing h todo events).log) ∧
    ((doWhileRenewing h todo events).finished = true →
      ((doWhileRenewing h todo events).stopErr.isSome = true ↔
        ∃ p ∈ (doWhileRenewing h todo events).log, (p.2.kind p.1).endsHold = true)) := by
  have hs := doWhileRenewing_handsOver h todo events
  refine ⟨hs.chained, ?_, ?_, fun _ => hs.stopped⟩
  · intro f hf
    rw [(hs.final f hf).2, hs.cur]
  · intro hquiet more
    have hq : (doWhileRenewing h todo events).sent.isSome = true ∨
        (doWhileRenewing h todo events).stopErr.isSome = true := by
      rcases hquiet with hf | hends
      · obtain ⟨f, hf⟩ := Option.isSome_iff_exists.mp hf
        exact .inl (hs.final f hf).1
      · exact .inr (hs.stopped.mpr hends)
    unfold doWhileRenewing
    rw [after_append]
    exact Renewal.after_quiet hq more

/-- A claim of one task, and what a renewal makes of it. -/
def heldAt (version : Int32) (now : Time) : Held where
  task := { queue := "q", id := "t", version, atTime := now + 30, claimant := "w", modified := now }
  sets := []

def finalizedTwice : Renewal :=
  doWhileRenewing (heldAt 1 0) [.finalize, .receive, .finalize, .receive, .ret none]
    [.tick (.ok { changedTasks := [(heldAt 2 20).task] }), .tick (.error { msg := "unavailable" }),
     .work, .seesStop, .sends, .work, .work, .work, .work, .tick (.ok {})]

theorem handOver_finalizedTwice :
    finalizedTwice.finished = true ∧ finalizedTwice.log.length = 2 ∧
    finalizedTwice.final = some (heldAt 2 20) ∧
    heldAt 2 20 = holdAfter (heldAt 1 0) finalizedTwice.log :=
  ⟨by decide, by decide, by decide,
    (handOver_sound _ _ _).2.1 _ (by decide)⟩

end EntroQ.Worker
