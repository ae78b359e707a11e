import EntroQ.Eqmem.Stored
import EntroQ.Worker.DoModify

/-! # The handoff worker

A handoff worker claims tasks at a source and delivers them to an inbox at a destination. The
delivery is one modification of the destination: it inserts the task, and a tombstone under an ID
that the source task determines. Then the source task is deleted, and last the tombstone.

A state is the two stores and what each running worker is about; an event is a step of a worker, or
anyone else's call at one of the stores. A worker can take its next step at any time, also when its
claim has lapsed, and it can end anywhere. -/

namespace EntroQ.Handoff
open Foundation Eqmem Worker

/-- A handoff worker as `Run` accepts it, and the clients of those that run. -/
structure HandoffWorker where
  inbox : String
  graveyard : String
  ttl : Duration := hour
  source : String := ""
  /-- SHA-256 in base 64. -/
  sum : String → String
  base : Worker.Config := {}
  opts : RunOpt
  srcID : ℕ → String
  dstID : ℕ → String
  /-- The text of an error of a store. -/
  errText : Fault → String
  inbox_ne : inbox ≠ ""
  ttl_pos : 0 < ttl

/-- The function that `Run` gives to the worker has returned, or not yet. -/
inductive Stage
  | working
  | failed (e : Err)
  | returned (tombstone : Option Task)
  deriving DecidableEq

/-- A claimed task, as it was claimed and as renewal holds it. -/
structure Handling where
  task : Task
  held : Held
  lost : Bool := false
  stage : Stage := .working
  same : held.task.id = task.id

inductive Phase
  | idle
  | handling (h : Handling)
  | cleaning (tombstone : Task)

structure Sys where
  src : EQMem
  dst : EQMem
  turns : ℕ → Phase
  /-- The source tasks that an inbox task was inserted for, once for each. -/
  delivered : List String

/-- Steps of the worker `i`, and calls of others. A call whose reply is lost is not `answered`. -/
inductive Event
  | claim (i : ℕ) (attempts : List Attempt)
  | renew (i : ℕ) (now : Time) (answered : Bool)
  | deliver (i : ℕ) (gen : ℕ → String) (now : Time) (answered : Bool)
  | retry (i : ℕ) (now : Time)
  | commit (i : ℕ) (now : Time) (answered : Bool)
  | cleanUp (i : ℕ) (now : Time)
  | stop (i : ℕ)
  | source (c : Eqmem.Call)
  | destination (c : Eqmem.Call)

namespace HandoffWorker
variable (w : HandoffWorker)

def transferID (id : String) : String := "xfer-" ++ w.sum (w.source ++ "\x00" ++ id)

def delivery (i : ℕ) (task : Task) (gen : ℕ → String) : Modification :=
  (newModification (w.dstID i)
    [insertingInto w.graveyard [withID (w.transferID task.id), withArrivalTimeIn w.ttl],
      insertingInto w.inbox [withRawValue task.value]]).genIDs gen

def faultErr (m : Modification) (f : Fault) : Err :=
  { msg := "modify: " ++ w.errText f
    asDependency := match f with
      | .dependency e => some (e.nameArrivals m)
      | _ => none }

/-- What a client's `Modify` returns. -/
def reply (m : Modification) (answered : Bool) (r : Except Fault Modified) : Reply :=
  if answered then
    match r with
    | .ok m => .ok m.resp
    | .error f => .error (w.faultErr m f)
  else .error { msg := "modify: connection lost" }

/-- What the worker's function returns once the delivery has been answered. -/
def deliveryReturns : Reply → Stage
  | .ok resp => .returned resp.insertedTasks.head?
  | .error e =>
    if e.asDependency.any DependencyError.hasCollisions then .returned none
    else
      .failed <| RetryError.err
        { msg := w.base.sprintf { format := "delivery to remote %q: %v"
                                  args := [.str w.inbox, .str e.msg] } }

end HandoffWorker

/-- The hold after a renewal; a claim that is found lost stays lost. -/
def Handling.renew (h : Handling) (reply : Reply) : Handling :=
  match reply with
  | .ok resp =>
    match hr : h.held.renewed resp with
    | .ok held => { h with held, same := (renewed_ok hr).1.trans h.same }
    | .error _ => { h with lost := true }
  | .error _ => { h with lost := h.lost || (Reply.stops h.held reply).isSome }

def applyCalls (s : EQMem) (now : Time) (calls : List Worker.Call) : EQMem :=
  calls.foldl (fun s c => match c with | .modify m => (modify s m now).1 | _ => s) s

namespace Sys
variable (w : HandoffWorker) (s : Sys) (i : ℕ)

def put (p : Phase) : Sys := { s with turns := Function.update s.turns i p }

def claim (attempts : List Attempt) : Sys :=
  let r := tryClaim s.src ⟨w.opts.qs, w.srcID i, w.opts.lease⟩ attempts
  let s' := { s with src := r.1 }
  match r.2 with
  | .ok (some c) => s'.put i (.handling { task := c.task, held := ⟨c.task, []⟩, same := rfl })
  | _ => s'

variable (h : Handling)

def renew (now : Time) (answered : Bool) : Sys :=
  let m := renewal (w.srcID i) (grantedLease h.task) h.held
  let r := modify s.src m now
  { s with src := r.1 }.put i (.handling (h.renew (w.reply m answered r.2)))

def deliver (gen : ℕ → String) (now : Time) (answered : Bool) : Sys :=
  let m := w.delivery i h.task gen
  let r := modify s.dst m now
  { s with
    dst := r.1
    delivered := if r.2.isOk then h.task.id :: s.delivered else s.delivered }.put i
      (.handling { h with stage := w.deliveryReturns (w.reply m answered r.2) })

/-- The worker's disposition of a task whose delivery failed. -/
def retry (e : Err) (now : Time) : Sys :=
  let env : Env := { claimant := w.srcID i, claim := .ok h.task }
  let d := handleSentinelErrors w.opts env e h.held.task h.held.sets
    (w.base.errorQueueFor h.task.queue)
  { s with src := applyCalls s.src now d.calls }.put i .idle

/-- `Finish`, with the step after it still to come. -/
def commit (tombstone : Option Task) (now : Time) (answered : Bool) : Sys :=
  let answer (m : Modification) : Option Err :=
    match w.reply m answered (modify s.src m now).2 with
    | .ok _ => none
    | .error e => some e
  let fin := doModifyFinish h.task (some { mods := [h.task.delete] }) h.held (w.srcID i) answer
  let s' := match fin.modification with
    | some m => { s with src := (modify s.src m now).1 }
    | none => s
  s'.put i (match tombstone with
    | some t => if fin.succeeded then .cleaning t else .idle
    | none => .idle)

def cleanUp (tombstone : Task) (now : Time) : Sys :=
  { s with dst := (modify s.dst (newModification (w.dstID i) [tombstone.delete]) now).1 }.put i .idle

end Sys

section Run
variable (w : HandoffWorker)

/-- A step that the worker is not about to take does nothing. -/
def step (s : Sys) : Event → Sys
  | .claim i attempts =>
    match s.turns i with
    | .idle => s.claim w i attempts
    | _ => s
  | .renew i now answered =>
    match s.turns i with
    | .handling h => if h.lost then s else s.renew w i h now answered
    | _ => s
  | .deliver i gen now answered =>
    match s.turns i with
    -- the function goes on, whether the claim is lost or not
    | .handling h => if h.stage = .working then s.deliver w i h gen now answered else s
    | _ => s
  | .retry i now =>
    match s.turns i with
    | .handling h =>
      match h.stage with
      | .failed e => if h.lost then s else s.retry w i h e now
      | _ => s
    | _ => s
  | .commit i now answered =>
    match s.turns i with
    | .handling h =>
      match h.stage with
      | .returned tombstone => if h.lost then s else s.commit w i h tombstone now answered
      | _ => s
    | _ => s
  | .cleanUp i now =>
    match s.turns i with
    | .cleaning tombstone => s.cleanUp w i tombstone now
    | _ => s
  | .stop i => s.put i .idle
  | .source c => { s with src := (c.run s.src).1 }
  | .destination c => { s with dst := (c.run s.dst).1 }

def run (s : Sys) (events : List Event) : Sys := after (step w) s events

end Run

end EntroQ.Handoff
