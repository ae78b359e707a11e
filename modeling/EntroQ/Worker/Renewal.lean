import EntroQ.Client.Changes
import EntroQ.Worker.Errors
import EntroQ.Foundation.Trace

/-! # Working while renewing

`doWhileRenewing` runs two goroutines. One renews the claim at each tick until it is told to stop,
its context ends, or the claim is lost; it then hands over what it holds. The other does the work,
stops the renewal, takes what was handed over, and returns. A state is what the two share, and an
event is one step of either, or the end of their context. -/

namespace EntroQ.Worker
open Foundation

/-- What a worker holds while it works. -/
structure Held where
  task : Task
  sets : List DocSet
  deriving DecidableEq

/-- The hold is gone, as a failed depend on the task. -/
def Held.lostClaim (h : Held) (message : Message) : Err :=
  { msg := message.format
    asDependency := some { depends := [h.task.idVersion], message } }

def relocked (g l : DocSet) : DocSet :=
  { g with version := l.version, claimant := l.claimant, atTime := l.atTime, numDocs := l.numDocs
           docs := g.docs.map fun d =>
            { d with version := l.version, claimant := l.claimant, atTime := l.atTime } }

def lockIn (resp : ModifyResponse) (g : DocSet) : Option DocSet :=
  resp.changedSets.reverse.find? fun l => l.ns == g.ns && l.key == g.key

def relockAll (resp : ModifyResponse) : List DocSet → Except DocSet (List DocSet)
  | [] => .ok []
  | g :: gs =>
    match lockIn resp g with
    | none => .error g
    | some l =>
      match relockAll resp gs with
      | .error g' => .error g'
      | .ok gs' => .ok (relocked g l :: gs')

def Held.renewed (h : Held) (resp : ModifyResponse) : Except Err Held :=
  match resp.changedTasks with
  | [t] =>
    if t.id ≠ h.task.id then .error (unnamed resp)
    else
      match relockAll resp h.sets with
      | .error g => .error (h.lostClaim
          { format := "renewal of task %s did not answer with doc set %q in %q"
            args := [.str h.task.id, .str g.key, .str g.ns] })
      | .ok sets => .ok { task := t, sets }
  | _ => .error (unnamed resp)
where
  unnamed (resp : ModifyResponse) : Err := h.lostClaim
    { format := "renewal of task %s answered with tasks %v"
      args := .str h.task.id :: resp.changedTasks.map fun t => .taskID t.idVersion }

theorem relockAll_ok {resp : ModifyResponse} {gs gs' : List DocSet}
    (h : relockAll resp gs = .ok gs') :
    List.Forall₂ (fun g g' => ∃ l, g' = relocked g l) gs gs' := by
  induction gs generalizing gs' with
  | nil =>
    cases h
    exact .nil
  | cons g gs ih =>
    rw [relockAll] at h
    split at h
    · cases h
    · next l _ =>
      split at h
      · cases h
      · next gs₁ hgs =>
        cases h
        exact .cons ⟨l, rfl⟩ (ih hgs)

theorem renewed_ok {h h' : Held} {resp : ModifyResponse} (hr : h.renewed resp = .ok h') :
    h'.task.id = h.task.id ∧ List.Forall₂ (fun g g' => ∃ l, g' = relocked g l) h.sets h'.sets := by
  unfold Held.renewed at hr
  split at hr
  · split_ifs at hr with hid
    split at hr
    · cases hr
    · next sets hsets =>
      cases hr
      exact ⟨not_not.mp hid, relockAll_ok hsets⟩
  · cases hr

def grantedLease (t : Task) : Duration := max 0 (t.atTime - t.modified)

def renewalDurationFor (lease : Duration) : Duration := (lease * 2).tdiv 3

def renewInterval (t : Task) : Duration := renewalDurationFor (grantedLease t)

def renewal (claimant : String) (granted : Duration) (h : Held) : Modification :=
  newModification claimant [arriving granted [h.task] h.sets]

/-- What `UpdateArrival` answers a renewal with. -/
abbrev Reply := Except Err ModifyResponse

def Reply.stops (h : Held) : Reply → Option Err
  | .ok resp =>
    match h.renewed resp with
    | .ok _ => none
    | .error e => some e
  | .error e =>
    if e.isCanceled then none
    else if e.asDependency.isSome || e.isUnsupported then some e
    else none

/-- What the work goroutine does once the work itself is over. -/
inductive WorkOp
  | finalize
  | receive
  | ret (e : Option Err)
  deriving DecidableEq

structure Renewal where
  interval : Duration
  cur : Held
  /-- The renewal is ready to hand over. -/
  out : Bool := false
  stopErr : Option Err := none
  stopClosed : Bool := false
  stopSeen : Bool := false
  ctxEnded : Bool := false
  doneSeen : Bool := false
  /-- What the renewal handed over, once it has returned. -/
  sent : Option (Held × Option Err) := none
  /-- Why the context of the work ended. -/
  cause : Option Err := none
  todo : List WorkOp
  final : Option Held := none
  returned : Option (Option Err) := none
  /-- The context of the work had ended when it returned. -/
  endedAtReturn : Bool := false
  /-- The replies to the renewals made, each with what was held, latest first. -/
  log : List (Held × Reply) := []
  deriving DecidableEq

inductive Event
  | ctxEnds (cause : Err)
  | tick (reply : Reply)
  | seesStop
  | seesDone
  | sends
  | work
  deriving DecidableEq

namespace Renewal

def start (h : Held) (todo : List WorkOp) : Renewal :=
  { interval := renewInterval h.task, cur := h, todo }

/-- The end of the context that both share, which ends the work's too. -/
def endCtx (s : Renewal) (cause : Err) : Renewal :=
  { s with ctxEnded := true, cause := s.cause <|> some cause }

def stop (s : Renewal) (e : Err) : Renewal :=
  { s with cause := s.cause <|> some e, stopErr := some e, out := true }

def renew (s : Renewal) (reply : Reply) : Renewal :=
  let s := { s with log := (s.cur, reply) :: s.log }
  match reply with
  | .ok resp =>
    match s.cur.renewed resp with
    | .error e => s.stop e
    | .ok h => { s with cur := h }
  | .error e =>
    if e.isCanceled then { s with out := true }
    else if e.asDependency.isSome || e.isUnsupported then s.stop e
    else s

/-- The error of the work, as `doWhileRenewing` returns it. -/
def workResult (cause : Option Err) : Option Err → Option Err
  | none => none
  | some e =>
    if e.isCanceled then cause.map (Err.wrap "work func canceled with error")
    else some (e.wrap "renewed user func")

def op (s : Renewal) : WorkOp → Renewal
  | .finalize => { s with stopClosed := true }
  | .receive =>
    match s.sent with
    | none => s
    | some (h, e) => { s with final := some h, cause := s.cause <|> e }
  | .ret e =>
    let res := workResult s.cause e
    let s := { s with returned := some res, endedAtReturn := s.cause.isSome }
    match res with
    | none => s
    | some e => s.endCtx e

/-- The work goroutine waits to receive until something is handed over. -/
def step (s : Renewal) : Event → Renewal
  | .ctxEnds cause => if s.ctxEnded then s else s.endCtx cause
  | .tick reply =>
    -- a renewal whose lease is empty has no tick, and one that has stopped renews no more
    if s.sent.isSome ∨ s.interval ≤ 0 ∨ s.stopErr.isSome then s else s.renew reply
  | .seesStop =>
    if s.sent.isNone ∧ s.stopClosed ∧ !s.stopSeen then { s with out := true, stopSeen := true }
    else s
  | .seesDone =>
    if s.sent.isNone ∧ s.ctxEnded ∧ !s.doneSeen then { s with out := true, doneSeen := true } else s
  | .sends => if s.sent.isNone ∧ s.out then { s with sent := some (s.cur, s.stopErr) } else s
  | .work =>
    match s.todo with
    | [] => s
    | .receive :: rest =>
      if s.sent.isNone ∧ s.final.isNone then s else { s.op .receive with todo := rest }
    | o :: rest => { s.op o with todo := rest }

/-- Both goroutines have returned. -/
def finished (s : Renewal) : Bool := s.sent.isSome && s.returned.isSome

end Renewal

/-- The state after the events, of work that does what is left to it once it is over. -/
def doWhileRenewing (h : Held) (todo : List WorkOp) (events : List Event) : Renewal :=
  after Renewal.step (Renewal.start h todo) events

end EntroQ.Worker
