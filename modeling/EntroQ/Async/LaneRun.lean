import EntroQ.Async.Lane
import EntroQ.Worker.DoModify

/-! # The workers of a lane

Each side of a lane runs a worker on its queue. A turn of the worker handles the frame it claims,
which changes the state of the side at once, and then ends: it commits its result, the commit is
refused, its reply is lost, or a renewal has found the claim lost. `runLane` starts a worker on the
new queue after a turn that rotated it, and returns after one that ended the direction.

A state is the two sides and the one frame between them. -/

namespace EntroQ.Async
open Foundation Worker

class Frame (V : Type) where
  control : V → FrameControl

instance : Frame Envelope := ⟨Envelope.toFrameControl⟩
instance : Frame Response := ⟨Response.toFrameControl⟩

inductive LaneTurn
  | next
  | rotated
  | done
  deriving DecidableEq

/-- A claimed frame, with the doc sets taken for it. -/
structure Work (V : Type) where
  task : Task
  value : V
  sets : List DocSet := []

/-- What becomes of the session doc. -/
inductive DocOp
  | delete (d : Doc)
  | change (d : Doc) (by_ : Duration)
  deriving DecidableEq

def DocOp.arg : DocOp → ModifyArg
  | .delete d => d.delete
  | .change d by_ => d.change [withDocArrivalTimeBy by_]

/-- What a lane's handler returns, beside the delete of its frame. -/
structure LaneResult (V : Type) where
  /-- The frame inserted, and its queue. -/
  reply : Option (String × V) := none
  doc : Option DocOp := none
  turn : LaneTurn := .next
  /-- The text of the fatal error that a refused commit is. -/
  onDependency : Option (DependencyError → String) := none

structure LaneWorker (V : Type) where
  base : Worker.Config := {}
  opts : RunOpt
  claimant : String
  marshal : V → RawMessage

/-- How a turn ends, as far as it is not its own doing. -/
inductive Ending
  | committed
  | refused (e : DependencyError)
  | unanswered (text : String) (applied : Bool)
  | lost (e : DependencyError)
  deriving DecidableEq

namespace Ending

/-- The error of the renewal that found the claim lost. -/
def renewErr : Ending → Option Err
  | .lost e => some { msg := e.message.format, asDependency := some e }
  | _ => none

/-- What the commit is answered with. -/
def answer : Ending → Option Err
  | .refused e => some { msg := e.message.format, asDependency := some e }
  | .unanswered text _ => some { msg := text }
  | _ => none

def applied : Ending → Bool
  | .committed => true
  | .unanswered _ applied => applied
  | _ => false

end Ending

/-- A turn whose handler has returned. -/
structure Pending (V : Type) where
  work : Work V
  handled : Except Err (LaneResult V)

inductive Status
  | claiming (queue : String)
  | done
  | failed
  deriving DecidableEq

structure Side (σ V : Type) where
  st : σ
  status : Status
  pending : Option (Pending V) := none
  /-- The reply queue of the last frame committed. -/
  last : Option String := none

section Turn
variable {V : Type} (k : LaneWorker V)

def LaneResult.result (r : LaneResult V) (task : Task) : Result where
  mods := task.delete ::
    (r.reply.toList.map fun (q, v) => insertingInto q [withRawValue (k.marshal v)]) ++
      r.doc.toList.map DocOp.arg
  onSuccess := some none
  onDependency := r.onDependency.map fun text d => some (FatalError.err { msg := text d })
  stop := r.turn != .next

/-- An insert into no queue is refused as invalid. -/
def LaneResult.valid (r : LaneResult V) : Bool := r.reply.all fun (q, _) => q != ""

namespace Pending
variable (p : Pending V) (e : Ending)

def result : Option (LaneResult V) := p.handled.toOption

def err : Option Err :=
  match p.handled with
  | .error e => some e
  | .ok _ => none

def held : Held := ⟨p.work.task, p.work.sets⟩

def answer : Option Err :=
  if p.result.all LaneResult.valid then e.answer else some { msg := "inserting into no queue" }

/-- The end of the turn in its worker. A handler that fails because its context has ended leaves
the reason there. -/
def turn : Turn :=
  let fin := doModifyFinish p.work.task (p.result.map fun r => r.result k p.work.task) p.held
    k.claimant fun _ => p.answer e
  let env : Env :=
    { claimant := k.claimant, claim := .ok p.work.task, doWork := p.err, finish := fin.err
      released := fin.released }
  let s : Renewal :=
    { Renewal.start p.held [] with
      stopErr := e.renewErr
      returned := some (Renewal.workResult (e.renewErr <|> p.err) (workReturn env)) }
  workEnded k.base k.opts env p.work.task s p.held

/-- The turn comes to its commit. -/
def finishes : Bool := (p.turn k e).calls.any fun
  | .finish _ => true
  | _ => false

def applies : Bool := p.finishes k e && p.result.all LaneResult.valid && e.applied

/-- The turn that `laneTurns` has recorded. -/
def recorded : LaneTurn :=
  match p.result with
  | some r => if p.finishes k e ∧ p.answer e = none then r.turn else .next
  | none => .next

end Pending
end Turn

/-! ## Handlers -/

/-- What a result says of the queue its side awaits the next frame on. -/
structure LaneResult.Announces {V : Type} [Frame V] (r : LaneResult V) (old new : ReceiveLane)
    (peer : String) : Prop where
  moved : r.turn ≠ .rotated → new = old
  to_peer : ∀ q v, r.reply = some (q, v) → q = peer
  opens : r.turn ≠ .done → ∃ q v, r.reply = some (q, v) ∧ (Frame.control v).replyQueue = new.queue
  closes : r.turn = .done → ∀ q v, r.reply = some (q, v) → (Frame.control v).replyQueue = ""

/-- What a handler that was called on the queue `old` leaves behind. -/
def Leaves {σ V : Type} [Frame V] (lanes : σ → SessionLanes) (old : ReceiveLane) (peer : String)
    (p : σ × Except Err (LaneResult V)) : Prop :=
  match p.2 with
  | .error _ => (lanes p.1).local_ = old
  | .ok r => r.Announces old (lanes p.1).local_ peer

structure LaneHandler (σ ι V : Type) [Frame V] where
  lanes : σ → SessionLanes
  handle : σ → ι → Work V → σ × Except Err (LaneResult V)
  leaves : ∀ st i w,
    Leaves lanes (lanes st).local_ (Frame.control w.value).replyQueue (handle st i w)

/-- The frame between the sides: to the one that sends data, or to the one that acknowledges. -/
inductive Flight (V : Type)
  | gone
  | toA (queue : String) (value : V)
  | toB (queue : String) (value : V)
  deriving DecidableEq

structure LaneSys (σ τ V : Type) where
  a : Side σ V
  b : Side τ V
  frame : Flight V

inductive Event (ι κ : Type)
  | handleA (task : Task) (sets : List DocSet) (i : ι)
  | handleB (task : Task) (sets : List DocSet) (i : κ)
  | endA (e : Ending)
  | endB (e : Ending)
  | stopA
  | stopB
  | vanish

section Step
variable {σ τ ι κ V : Type} [Frame V] (k : LaneWorker V)

namespace Side
variable (h : LaneHandler σ ι V) (x : Side σ V)

/-- The worker claims on the queue and has no frame yet. -/
def awaits (queue : String) : Bool := x.status = .claiming queue && x.pending.isNone

def handle (i : ι) (w : Work V) : Side σ V :=
  { x with st := (h.handle x.st i w).1, pending := some ⟨w, (h.handle x.st i w).2⟩ }

/-- `runLane`, once its worker has stopped without an error. -/
def resume : LaneTurn → Status
  | .rotated => .claiming (h.lanes x.st).local_.queue
  | .done => .done
  | .next => .failed

def finish (p : Pending V) (e : Ending) : Side σ V :=
  { x with
    pending := none
    status := match (p.turn k e).err with
      | none => x.status
      | some err => if err.isShutdown then x.resume h (p.recorded k e) else .failed
    last :=
      if p.applies k e then
        match p.result.bind LaneResult.reply with
        | some (_, v) =>
          if (Frame.control v).replyQueue = "" then none else some (Frame.control v).replyQueue
        | none => x.last
      else x.last }

def stop : Side σ V :=
  { x with status := if x.status = .done then .done else .failed, pending := none }

end Side

/-- The frame after a turn, to the side `to_`. -/
def Flight.answered (frame : Flight V) (p : Pending V) (e : Ending)
    (to_ : String → V → Flight V) : Flight V :=
  if p.applies k e then
    match p.result.bind LaneResult.reply with
    | some (q, v) => to_ q v
    | none => .gone
  else frame

variable (ha : LaneHandler σ ι V) (hb : LaneHandler τ κ V)

/-- A side that does not claim on the queue of the frame does not get it. -/
def LaneSys.step (s : LaneSys σ τ V) : Event ι κ → LaneSys σ τ V
  | .handleA task sets i =>
    match s.frame with
    | .toA q v => if s.a.awaits q then { s with a := s.a.handle ha i ⟨task, v, sets⟩ } else s
    | _ => s
  | .handleB task sets i =>
    match s.frame with
    | .toB q v => if s.b.awaits q then { s with b := s.b.handle hb i ⟨task, v, sets⟩ } else s
    | _ => s
  | .endA e =>
    match s.a.pending with
    | some p => { s with a := s.a.finish k ha p e, frame := s.frame.answered k p e .toB }
    | none => s
  | .endB e =>
    match s.b.pending with
    | some p => { s with b := s.b.finish k hb p e, frame := s.frame.answered k p e .toA }
    | none => s
  | .stopA => { s with a := s.a.stop }
  | .stopB => { s with b := s.b.stop }
  | .vanish => if s.a.pending.isNone && s.b.pending.isNone then { s with frame := .gone } else s

def LaneSys.run (s : LaneSys σ τ V) (events : List (Event ι κ)) : LaneSys σ τ V :=
  after (LaneSys.step k ha hb) s events

end Step

end EntroQ.Async
