import EntroQ.Foundation.Exchange
import EntroQ.Workgateway.Protocol

/-! # A session of the gateway

The phases of the worker's handler talk to the client in turn: each sends a response and waits for
the request that answers it. A phase is where the worker's goroutine is; what it is about to send
waits for an idle turn, in which the conn answers a request that has waited long and receives the
client's answer to that. Events are the client's, the conn's, and those of the worker and its
backend, in any order; a session over HTTP sends only what a request waits for, so it has fewer. -/

namespace EntroQ.Workgateway
open Foundation Worker

/-- A request, or why its frame does not read, and how many tasks the client had been given to work
on when it was sent. -/
structure Sent where
  frame : Except String Request
  given : ℕ

/-- A response that was sent, and how many requests were unanswered then. -/
structure Reply where
  response : Response
  last : Bool
  unanswered : ℤ
  deriving DecidableEq

inductive IdleFailure
  | silent
  | failed (e : Err)
  deriving DecidableEq

def IdleFailure.err : IdleFailure → Err
  | silent => { msg := "client did not answer an idle ready" }
  | failed e => e

structure KeptConn where
  owed : Bool := false
  /-- An idle turn is in progress. -/
  turn : Bool := false
  err : Option IdleFailure := none
  deriving DecidableEq

inductive Phase
  /-- `Handle` waits for the client's ready. -/
  | starting
  | claiming
  | taking (task : Task)
  | cueing (task : Task) (sets : List DocSet)
  /-- `DoModify` waits for the answer to the work response of that number. -/
  | working (n : ℕ) (h : Held)
  | worked (h : Held) (result : Except Err Result)
  | finishing (task : Task) (h : Held) (r : Result)
  /-- A hook waits for the client, with the error of the commit if it was refused. -/
  | reporting (task : Task) (h : Held) (r : Result) (dependency : Option Err)
  /-- `finish` sends the last response, underneath the kept conn or through it. -/
  | last (underneath : Bool)
  | ended

def Phase.isEnded : Phase → Bool
  | .ended => true
  | _ => false

/-- The phase waits for a request, unless it has something to send first. -/
def Phase.receives : Phase → Bool
  | .starting | .taking _ | .working _ _ | .reporting _ _ _ _ => true
  | _ => false

structure Line where
  kept : KeptConn := {}
  wire : Exchange Sent Response := {}
  /-- The work responses that the client has read. -/
  given : ℕ := 0
  /-- The work responses sent. -/
  works : ℕ := 0
  sent : List Reply := []
  /-- The answers that work phases have taken, each with the number of its work response. -/
  taken : List (ℕ × Sent) := []

namespace Line
variable (l : Line)

def deliver (r : Response) (last : Bool) : Line :=
  { l with
    wire := l.wire.answer r
    works := if r.type = .work then l.works + 1 else l.works
    sent := ⟨r, last, l.wire.unanswered⟩ :: l.sent }

def said (r : Response) : Line :=
  { l.deliver r false with kept := { l.kept with owed := false } }

/-- A request is taken, and is owed an answer from then on. -/
def heard (rest : List Sent) : Line :=
  { l with wire := l.wire.take rest, kept := { l.kept with owed := true } }

/-- The context of a `Send` ends, which then may or may not have gone out. -/
def abort (landed : Bool) (sending : Option Response) : Line :=
  match sending with
  | none => l
  | some r =>
    if l.kept.turn then l
    else if landed && l.kept.err.isNone then l.said r
    else { l with kept := { l.kept with owed := false } }

/-- A request of the client's, who waits for the response to one before the next. -/
def requests (frame : Except String Request) : Line :=
  { l with wire := l.wire.ask ⟨frame, l.given⟩ }

def reads : Line :=
  match l.wire.awaiting, l.wire.outbox with
  | true, r :: rest =>
    { l with wire := l.wire.read rest, given := if r.type = .work then l.given + 1 else l.given }
  | _, _ => l

end Line

structure Session where
  phase : Phase
  /-- What the phase is about to send. -/
  sending : Option Response := none
  armed : Bool := false
  quitting : Bool := false
  /-- The worker is to be shut down. -/
  draining : Bool := false
  shutDown : Bool := false
  line : Line := {}

/-- A client whose silence window ran out. -/
def silent (v : Server) : Err :=
  { msg := v.text "gateway recv: client fell silent while working (%v)" [.duration v.silenceTimeout] }

/-- What a silent client's task gets. -/
def silenced (e : Err) : Err := RetryError.err { msg := e.msg, stop := true }

/-- What the work phase stops waiting for. -/
inductive Interruption
  | lost
  | expired
  | silent
  deriving DecidableEq

inductive Event
  | requests (frame : Except String Request)
  | reads
  | sends (env : Env)
  | receives (env : Env) (readErr : Option Err)
  | silences (env : Env)
  | idles
  | idleReceives
  | idleSilent
  | claims (env : Env)
  | interrupts (why : Interruption) (env : Env) (renewErr : Option Err) (final : Held)
      (landed : Bool)
  | workEnds (env : Env) (renewErr : Option Err) (final : Held)
  | commits (env : Env) (answer : Option Err)
  | drains
  | shutsDown
  | closes

section Steps
variable (v : Server) (g : Gateway)

/-! ## Ends of a turn and of a session -/

/-- Say how the session ended, to a client that is owed it. -/
def Session.lastly (s : Session) (err : Option Err) (underneath : Bool) : Session :=
  let class_ := v.classify err
  if class_ ≠ .ok then
    { s with
      phase := .last underneath
      sending := some { g.newSend .error none with
        class_ := class_.text, message := err.elim "" Err.msg } }
  else if s.quitting then
    { s with phase := .last underneath, sending := some (g.newSend .quit none) }
  else { s with phase := .ended, sending := none }

/-- `finish`, where the failure of an idle turn is why the session ended. -/
def Session.finish (s : Session) (runErr : Option Err) : Session :=
  match s.line.kept.err with
  | some .silent => { s with phase := .ended, sending := none }
  | some (.failed e) => s.lastly v g (some e) true
  | none => s.lastly v g runErr false

def Session.turned (s : Session) (t : Turn) : Session :=
  match t.err with
  | none => { s with phase := .claiming, sending := none }
  | some e =>
    s.finish v g (if e.isShutdown || e.isCanceled || e.isTimeout then none
      else some (e.wrap (named (g.worker v) (g.runOpt v) "worker (%q)")))

/-! ## The phases -/

def Session.cueWork (s : Session) (env : Env) (task : Task) (sets : List DocSet) : Session :=
  match v.taskToWire task <|> v.setsToWire sets with
  | some e =>
    s.turned v g (phaseFailed (g.worker v) (g.runOpt v) env "cue work" task sets
      (MoveError.err { msg := v.text "cue work: %v" [.str e] }))
  | none =>
    { s with
      phase := .cueing task sets
      sending := some { g.newSend .work (some .modify) with task := some task, docSets := sets } }

/-- `acquireDocs`, and the cue if it comes to it. -/
def Session.acquireDocs (s : Session) (env : Env) (task : Task) (claims : List DocSetClaim) :
    Session :=
  let t := acquireStage (g.worker v) (g.runOpt v) env task claims
  if t.calls.contains .cueWork then
    s.cueWork v g env task (if claims.isEmpty then [] else env.claimDocs.toOption.getD [])
  else s.turned v g t

def Session.takeDocs (s : Session) (env : Env) (task : Task) : Session :=
  if !g.config.wantDocs then s.acquireDocs v g env task []
  else
    match v.taskToWire task with
    | some e =>
      s.turned v g (phaseFailed (g.worker v) (g.runOpt v) env "take docs" task []
        (MoveError.err { msg := v.text "take docs: %v" [.str e] }))
    | none =>
      { s with
        phase := .taking task
        sending := some { g.newSend .take (some .take) with task := some task } }

/-- The answer to a claim, and the first phase if the task comes to it. -/
def Session.claimed (s : Session) (env : Env) : Session :=
  let env := { env with shutDown := s.shutDown }
  let t := runOne (g.worker v) (g.runOpt v) env
  match env.claim with
  | .ok task => if t.calls.contains .takeDocs then s.takeDocs v g env task else s.turned v g t
  | .error _ => s.turned v g t

/-- The result of the work phase for a client's answer. -/
def doModify (quitting : Bool) (received : Request) : Except Err Result :=
  match disposition v received.outcome received.error with
  | some d => .error (drainAfter quitting d)
  | none =>
    match modifyArgs v received.modification with
    | .error e => .error (v.fatalf "work modification: %v" [.str e])
    | .ok args =>
      .ok { mods := args, onSuccess := some none, onDependency := some fun _ => none
            stop := quitting }

def workTurn (env : Env) (task : Task) (renewErr : Option Err) (final : Held) : Turn :=
  workEnded (g.worker v) (g.runOpt v) env task
    { Renewal.start ⟨task, []⟩ [] with
      stopErr := renewErr
      returned := some (Renewal.workResult (renewErr <|> env.doWork) (workReturn env)) } final

def Session.workEnds (s : Session) (env : Env) (h : Held) (result : Except Err Result)
    (renewErr : Option Err) (final : Held) : Session :=
  match result with
  | .error e => s.turned v g (workTurn v g { env with doWork := some e } h.task renewErr final)
  | .ok r =>
    let t := workTurn v g { env with doWork := none } h.task renewErr final
    if t.calls.contains (.finish final) then { s with phase := .finishing h.task final r }
    else s.turned v g t

/-- The type of the response that a hook sends. -/
def hookText (dependency : Option Err) : String :=
  if dependency.isNone then "success" else "dependency"

/-- What a post-commit hook returns, and with it `Finish` and the turn. -/
def Session.reported (s : Session) (env : Env) (task : Task) (h : Held) (r : Result)
    (dependency reported : Option Err) : Session :=
  let err := match dependency with
    | none => afterCommit { r with onSuccess := some reported, stop := r.stop || s.quitting }
    | some e =>
      let hook := match reported with
        | some d => some (drainAfter s.quitting d)
        | none => if s.quitting then some (errShutdown.wrap "client asked to drain") else none
      some (commitFailed (some { r with onDependency := some fun _ => hook }) e)
  s.turned v g (finishStage (g.worker v) (g.runOpt v) { env with finish := err } h
    ((g.worker v).errorQueueFor task.queue))

/-- `Finish` up to its hook, or to its end if the client does not want to be told. -/
def Session.commits (s : Session) (env : Env) (task : Task) (h : Held) (r : Result)
    (answer : Option Err) : Session :=
  let fin := doModifyFinish task (some r) h g.claimant fun _ => answer
  let ends := s.turned v g (finishStage (g.worker v) (g.runOpt v) { env with finish := fin.err } h
    ((g.worker v).errorQueueFor task.queue))
  if fin.succeeded then
    if g.config.wantSuccess then
      { s with phase := .reporting task h r none
               sending := some (g.newSend .success (some .done)) }
    else ends
  else
    match fin.modification.bind fun _ => answer.bind fun e => e.asDependency.map fun d => (e, d) with
    | none => ends
    | some (e, d) =>
      if g.config.wantDependency then
        { s with phase := .reporting task h r (some e)
                 sending := some { g.newSend .dependency (some .done) with deps := some d } }
      else s.reported v g env task h r (some e) none

/-! ## Receiving -/

/-- What a phase that waits for a request does with one. -/
inductive Received
  | beat (r : Response)
  | read (r : Response)
  | failed (e : Err)
  | got (m : Request)

def recv (expect : RequestType) (readErr : Option Err) : Except String Request → Received
  | .error e => .failed (v.fatalf "%v" [.str ("gateway recv: recv: " ++ e)])
  | .ok m =>
    if m.type = .working then .beat (g.newSend .ok none)
    else
      match m.type.read with
      | some type =>
        match readErr with
        | none => .read (g.newSend type none)
        | some e => .read { g.newSend .error none with
            class_ := (v.classify (some e)).text, message := e.msg }
      | none =>
        if m.type ≠ expect then
          .failed (v.fatalf "gateway recv expected %v, got %v"
            [.str expect.text, .str m.type.text])
        else .got m

def Session.hear (s : Session) (m : Sent) (rest : List Sent) : Session :=
  { s with line := s.line.heard rest, quitting := s.quitting || m.frame.toOption.any Request.quit }

/-- `Handle` has its first request. -/
def Session.handle (s : Session) (m : Sent) (rest : List Sent) : Session :=
  let s := { s with line := s.line.heard rest }
  match m.frame with
  | .error e => s.finish v g (some (v.fatalf "%v" [.str ("handle recv: recv: " ++ e)]))
  | .ok req =>
    if req.type ≠ .ready then
      s.finish v g (some (v.fatalf "expected %q to begin the session, got %q"
        [.str "ready", .str req.type.text]))
    else if req.quit then { s with quitting := true }.finish v g none
    else { s with phase := .claiming }

def Session.receives (s : Session) (env : Env) (readErr : Option Err) (m : Sent)
    (rest : List Sent) : Session :=
  let heard := s.hear m rest
  match s.phase with
  | .starting => s.handle v g m rest
  | .taking task =>
    let failed (e : Err) :=
      heard.turned v g (phaseFailed (g.worker v) (g.runOpt v) env "take docs" task [] e)
    match recv v g .take readErr m.frame with
    | .beat r => { heard with armed := true, sending := some r }
    | .read r => { heard with sending := some r }
    | .failed e => failed (e.wrap "take docs")
    | .got req =>
      match disposition v req.outcome req.error with
      | some d => failed (drainAfter heard.quitting d)
      | none =>
        match claimsFromWire v 0 req.docSetClaims with
        | .error e => failed (v.fatalf "take docs: %v" [.str e])
        | .ok claims => heard.acquireDocs v g env task claims
  | .working n h =>
    match recv v g .modify readErr m.frame with
    | .beat r => { heard with armed := true, sending := some r }
    | .read r => { heard with sending := some r }
    | .failed e => { heard with phase := .worked h (.error (e.wrap "work")) }
    | .got req =>
      { heard with
        armed := false
        line := { heard.line with taken := (n, m) :: heard.line.taken }
        phase := .worked h (doModify v heard.quitting req) }
  | .reporting task h r dependency =>
    match recv v g .done readErr m.frame with
    | .beat r => { heard with armed := true, sending := some r }
    | .read r => { heard with sending := some r }
    | .failed e => heard.reported v g env task h r dependency (some (e.wrap (hookText dependency)))
    | .got req =>
      heard.reported v g env task h r dependency (disposition v req.outcome req.error)
  | _ => s

/-! ## Sending -/

/-- The phase's `Send` has failed as the idle turn before it did. -/
def Session.sendFailed (s : Session) (env : Env) (e : Err) : Session :=
  match s.phase with
  | .taking task =>
    s.turned v g (phaseFailed (g.worker v) (g.runOpt v) env "take docs" task []
      (e.wrap "send take docs"))
  | .cueing task sets =>
    s.turned v g (phaseFailed (g.worker v) (g.runOpt v) env "cue work" task sets
      (e.wrap "cue work"))
  | .working _ h => { s with phase := .worked h (.error (e.wrap "work")), sending := none }
  | .reporting task h r dependency =>
    s.reported v g env task h r dependency (some (e.wrap ("send " ++ hookText dependency)))
  | .last _ => { s with phase := .ended, sending := none }
  | _ => s

def Session.sends (s : Session) (env : Env) (r : Response) : Session :=
  match s.phase, s.line.kept.err with
  | .last true, _ => { s with line := s.line.deliver r true, phase := .ended, sending := none }
  | _, some f => s.sendFailed v g env f.err
  | .last false, none => { s with line := s.line.deliver r true, phase := .ended, sending := none }
  | .cueing task sets, none =>
    { s with line := s.line.said r, sending := none
             phase := .working (s.line.said r).works ⟨task, sets⟩ }
  | phase, none => if phase.receives then { s with line := s.line.said r, sending := none } else s

def Session.interrupted (s : Session) (why : Interruption) (env : Env) (h : Held)
    (renewErr : Option Err) (final : Held) (landed : Bool) : Session :=
  let ends (e : Err) :=
    { s with line := s.line.abort landed s.sending }.turned v g
      (workTurn v g { env with doWork := some e } h.task renewErr final)
  match why with
  | .lost => if renewErr.isSome then ends (canceled.wrap "work: gateway recv") else s
  | .expired =>
    if 0 < g.workTimeout then
      ends (RetryError.err { msg := v.text "client did not answer within %v" [.duration g.workTimeout]
                             stop := true })
    else s
  | .silent => if s.armed && s.sending.isNone then ends (silenced (silent v)) else s

/-! ## Idle turns -/

def Session.idles (s : Session) : Session :=
  { s with
    line := { s.line.deliver (g.newSend .ready (some .ready)) false with
      kept := { s.line.kept with turn := true } } }

def Session.idleFails (s : Session) (f : IdleFailure) : Session :=
  { s with
    draining := true
    line := { s.line with kept := { s.line.kept with turn := false, err := some f } } }

def Session.idleReceives (s : Session) (m : Sent) (rest : List Sent) : Session :=
  let s := { s with line := { s.line with wire := s.line.wire.take rest } }
  match m.frame with
  | .error e => s.idleFails (.failed (v.fatalf "%v" [.str ("idle recv: recv: " ++ e)]))
  | .ok req =>
    if req.type ≠ .ready then
      s.idleFails (.failed (v.fatalf "idle recv expected %v, got %v"
        [.str "ready", .str req.type.text]))
    else
      { s with
        quitting := s.quitting || req.quit
        draining := s.draining || req.quit
        line := { s.line with kept := { s.line.kept with owed := true, turn := false } } }

/-! ## Runs -/

def Session.step (s : Session) : Event → Session
  | .requests frame => { s with line := s.line.requests frame }
  | .reads => { s with line := s.line.reads }
  | .sends env =>
    match s.sending with
    | some r => if s.line.kept.turn then s else s.sends v g env r
    | none => s
  | .receives env readErr =>
    match s.sending, s.line.wire.inbox with
    | none, m :: rest => s.receives v g env readErr m rest
    | _, _ => s
  | .silences env =>
    match s.phase with
    | .taking task =>
      if s.armed && s.sending.isNone then
        s.turned v g (phaseFailed (g.worker v) (g.runOpt v) env "take docs" task []
          (silenced (silent v)))
      else s
    | .reporting task h r dependency =>
      if s.armed && s.sending.isNone then
        s.reported v g env task h r dependency 
          (some ((silent v).wrap (hookText dependency)))
      else s
    | _ => s
  | .idles =>
    if s.line.kept.owed && !s.line.kept.turn && s.line.kept.err.isNone && !s.phase.isEnded then
      s.idles g
    else s
  | .idleReceives =>
    match s.line.kept.turn, s.line.wire.inbox with
    | true, m :: rest => s.idleReceives v m rest
    | _, _ => s
  | .idleSilent => if s.line.kept.turn then s.idleFails .silent else s
  | .claims env =>
    match s.phase with
    | .claiming => s.claimed v g env
    | _ => s
  | .interrupts why env renewErr final landed =>
    match s.phase with
    | .working _ h => s.interrupted v g why env h renewErr final landed
    | _ => s
  | .workEnds env renewErr final =>
    match s.phase with
    | .worked h result => s.workEnds v g env h result renewErr final
    | _ => s
  | .commits env answer =>
    match s.phase with
    | .finishing task h r => s.commits v g env task h r answer
    | _ => s
  | .drains => { s with quitting := true, draining := true }
  | .shutsDown => if s.draining then { s with shutDown := true } else s
  | .closes => { s with phase := .ended, sending := none }

/-- A session whose config has been answered. -/
def Session.opened (first : Request) : Session where
  phase := .starting
  line := ((({} : Line).requests (.ok first)).heard []).said (g.ready v)

def Session.run (s : Session) (events : List Event) : Session := after (Session.step v g) s events

end Steps

end EntroQ.Workgateway
