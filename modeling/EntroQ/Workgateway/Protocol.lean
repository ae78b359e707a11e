import EntroQ.Worker.DoModify

/-! # The messages of a work gateway

A gateway runs a worker for a client that speaks its protocol. The client opens a session with a
config; from then on each of its requests is the answer to the gateway's last response, with an
outcome for the task in hand. Payloads are the records they convert to; what may fail in a conversion
is given. -/

namespace EntroQ.Workgateway
open Worker

/-- A client's registration. -/
structure Config where
  queues : List String := []
  errorQueue : String := ""
  maxAttempts : Int32 := 0
  maxClaims : Int32 := 0
  wantDocs : Bool := false
  wantSuccess : Bool := false
  wantDependency : Bool := false
  protocolVersions : List Int32 := []
  dangerousClaimantOverride : String := ""
  retryDelayS : Int32 := 0
  workTimeoutS : Int32 := 0
  deriving DecidableEq

/-- The operator's settings. -/
structure GatewayOpts where
  lease : Duration := defaultClaimDuration
  maxWorkTimeout : Duration := 300 * second
  deriving DecidableEq

/-- What a client may hold a task for: what it asks for, up to the operator's bound. -/
def workTimeout (want ceiling : Duration) : Duration :=
  if want ≤ 0 then ceiling
  else if 0 < ceiling ∧ ceiling < want then ceiling
  else want

def supportedVersions : List Int32 := [1]

def highestOverlapping (a b : List Int32) : Int32 :=
  b.foldl (fun best v => if best < v ∧ v ∈ a.filter (0 < ·) then v else best) 0

/-- The claim limit that a client's `max_claims` asks for. -/
def maxClaims (asked : Int32) : Int32 :=
  if asked = 0 then 5 else if asked < 0 then 0 else asked

inductive ResponseType
  | ready | take | work | success | dependency | time | docs | tasks | queues | namespaces | quit
  | ok | error
  deriving DecidableEq

inductive RequestType
  | config | ready | take | modify | time | tasks | docs | queues | namespaces | working | done
  | other (type : String)
  deriving DecidableEq

def RequestType.text : RequestType → String
  | config => "config"
  | ready => "ready"
  | take => "take"
  | modify => "modify"
  | time => "time"
  | tasks => "tasks"
  | docs => "docs"
  | queues => "queues"
  | namespaces => "namespaces"
  | working => "working"
  | done => "done"
  | other type => type

def RequestType.read : RequestType → Option ResponseType
  | time => some .time
  | tasks => some .tasks
  | docs => some .docs
  | queues => some .queues
  | namespaces => some .namespaces
  | _ => none

inductive Outcome
  | ok | retry | move | fatal | error
  | other (outcome : String)
  deriving DecidableEq

structure TaskError where
  message : String := ""
  queue : String := ""
  deriving DecidableEq

/-- A doc set that a client names, if it does. -/
structure WireClaim where
  set : Option (String × String) := none
  omitMembers : Bool := false
  deriving DecidableEq

structure Request where
  type : RequestType
  docSetClaims : List WireClaim := []
  outcome : Outcome := .ok
  error : Option TaskError := none
  config : Option Config := none
  quit : Bool := false
  modification : Option Modification := none
  deriving DecidableEq

structure Response where
  type : ResponseType
  expect : Option RequestType := none
  version : Int32 := 0
  session : String := ""
  claimant : String := ""
  workTimeoutS : ℤ := 0
  silenceTimeoutS : ℤ := 0
  task : Option Task := none
  docSets : List DocSet := []
  deps : Option DependencyError := none
  class_ : String := ""
  message : String := ""
  deriving DecidableEq

/-- Why a gateway stopped. -/
inductive ExitClass
  | ok | transient | caller | gateway
  deriving DecidableEq

def ExitClass.text : ExitClass → String
  | ok => "ok"
  | transient => "transient"
  | caller => "caller"
  | gateway => "gateway"

/-- What sessions are served with. -/
structure Server where
  opts : GatewayOpts := {}
  sprintf : Message → String := Message.format
  dependencyText : DependencyError → String := fun e => e.message.format
  /-- The text of a template with the inbox in the place of its mark. -/
  replaceInbox : String → String → String := fun template _ => template
  /-- The texts of what does not convert. -/
  taskToWire : Task → Option String := fun _ => none
  setsToWire : List DocSet → Option String := fun _ => none
  modifyArgsFromProto : Modification → Except String (List ModifyArg)
  isUnavailable : Err → Bool := fun _ => false

namespace Server
variable (v : Server)

def text (format : String) (args : List MessageArg := []) : String := v.sprintf { format, args }

def fatalf (format : String) (args : List MessageArg := []) : Err :=
  FatalError.err { msg := v.text format args }

def errQTemplate (template : String) : String → String :=
  if template = "" then defaultErrQMap else v.replaceInbox template

def classify (err : Option Err) : ExitClass :=
  match err with
  | none => .ok
  | some e =>
    if e.isCanceled || e.isShutdown then .ok
    else if v.isUnavailable e then .transient
    else if e.asFatal.isSome then .caller
    else .gateway

end Server

/-! ## Opening a session -/

/-- A session's registration, and what it settled on. -/
structure Gateway where
  config : Config
  protocolVersion : Int32
  sessionID : String
  claimant : String
  workTimeout : Duration
  deriving DecidableEq

namespace Server
variable (v : Server)

def newGateway (sessionID scopedID : String) (first : Request) : Except String Gateway :=
  if first.type ≠ .config then
    .error (v.text "a session opens with %q, got %q" [.str "config", .str first.type.text])
  else
    match first.config with
    | none => .error (v.text "a %q message carries no config" [.str "config"])
    | some conf =>
      let versions := supportedVersions.map fun n => MessageArg.num n.toInt
      if conf.protocolVersions.isEmpty then
        .error (v.text "config names no protocol versions; this gateway speaks %v" versions)
      else if conf.queues.isEmpty then .error (v.text "config names no queues to work on")
      else
        let speaking := highestOverlapping conf.protocolVersions supportedVersions
        if speaking = 0 then
          .error (v.text "config asks for protocols %v; this gateway speaks %v"
            ((conf.protocolVersions.map fun n => MessageArg.num n.toInt) ++ versions))
        else
          .ok { config := conf, protocolVersion := speaking, sessionID
                claimant := if conf.dangerousClaimantOverride = "" then scopedID
                  else conf.dangerousClaimantOverride
                workTimeout := Workgateway.workTimeout (conf.workTimeoutS.toInt * second)
                  v.opts.maxWorkTimeout }

def serve (draining : Bool) (sessionID scopedID : String) (first : Request) :
    Except Response Gateway :=
  if first.quit then .error { type := .quit }
  else
    match v.newGateway sessionID scopedID first with
    | .error e => .error { type := .error, class_ := ExitClass.caller.text, message := e }
    | .ok g => if draining then .error { type := .quit } else .ok g

def silenceTimeout : Duration := 2 * v.opts.lease

end Server

namespace Gateway
variable (v : Server) (g : Gateway)

def newSend (type : ResponseType) (expect : Option RequestType) : Response :=
  { version := g.protocolVersion, type, expect, session := g.sessionID }

/-- The answer to the config. -/
def ready : Response :=
  { g.newSend .ready (some .ready) with
    claimant := g.claimant
    workTimeoutS := g.workTimeout.tdiv second
    silenceTimeoutS := v.silenceTimeout.tdiv second }

def retryDelay : Duration :=
  if g.config.retryDelayS ≤ 0 then 0 else g.config.retryDelayS.toInt * second

def worker : Worker.Config where
  errQMap := v.errQTemplate g.config.errorQueue
  sprintf := v.sprintf
  dependencyText := v.dependencyText
  valueType := "json.RawMessage"

def runOpt : RunOpt where
  qs := g.config.queues
  baseRetryDelay := if 0 < g.retryDelay then g.retryDelay else 30 * second
  maxAttempts := g.config.maxAttempts
  maxClaims := maxClaims g.config.maxClaims
  workTimeout := g.workTimeout
  lease := v.opts.lease

end Gateway

/-! ## The client's answers -/

def TaskError.reason (e : Option TaskError) : String :=
  match e with
  | none => "the client reported no reason"
  | some e => if e.message = "" then "the client reported no reason" else e.message

section Answers
variable (v : Server)

def disposition (outcome : Outcome) (te : Option TaskError) : Option Err :=
  let queue := te.elim "" TaskError.queue
  let said (format : String) := v.text format [.str (TaskError.reason te)]
  match outcome with
  | .ok => none
  | .retry => some (RetryError.err { msg := said "client asked to retry: %s", moveTo := queue })
  | .move => some (MoveError.err { msg := said "client asked to move: %s", to_ := queue })
  | .fatal => some (FatalError.err { msg := said "client reported a fatal error: %s" })
  | .error => some { msg := said "client reported an error it could not classify: %s" }
  | .other o => some (v.fatalf "unknown outcome %q" [.str o])

/-- Make a disposition the last of a session that is to stop. -/
def drainAfter (quitting : Bool) (d : Err) : Err :=
  if !quitting then d
  else
    match d.asRetry, d.asMove with
    | some re, _ => RetryError.err { re with stop := true }
    | none, some me => MoveError.err { me with stop := true }
    | none, none => d

def unqueued {α : Type} (queue : α → String) (xs : List α) : Option (ℕ × α) :=
  (xs.zipIdx.find? fun p => queue p.1 = "").map fun p => (p.2, p.1)

def namesQueues (req : Modification) : Option String :=
  match unqueued TaskData.queue req.inserts, unqueued (fun c => c.origin.queue) req.changes,
    unqueued TaskID.queue req.deletes, unqueued TaskID.queue req.depends with
  | some (i, _), _, _, _ => some (v.text "insert %d names no queue" [.num i])
  | none, some (i, c), _, _ =>
    some (v.text "change %d of task %q names no queue" [.num i, .str c.origin.id])
  | none, none, some (i, t), _ =>
    some (v.text "delete %d of task %q names no queue" [.num i, .str t.id])
  | none, none, none, some (i, t) =>
    some (v.text "depend %d on task %q names no queue" [.num i, .str t.id])
  | none, none, none, none => none

/-- The arguments of the modification that a client asked for. -/
def modifyArgs : Option Modification → Except String (List ModifyArg)
  | none => .ok []
  | some req =>
    if req.claimant ≠ "" then
      .error (v.text ("modification names claimant %q: the gateway owns the claim and attributes " ++
        "the commit itself") [.str req.claimant])
    else
      match namesQueues v req with
      | some e => .error e
      | none => v.modifyArgsFromProto req

/-- The doc sets that a client named, from the place `i` on. -/
def claimsFromWire (i : ℕ) : List WireClaim → Except String (List DocSetClaim)
  | [] => .ok []
  | c :: cs =>
    match c.set with
    | none => .error (v.text "doc set claim %d names no set" [.num i])
    | some (ns, key) =>
      if key = "" then
        .error (v.text "doc set claim %d names no key in namespace %q" [.num i, .str ns])
      else
        (claimsFromWire (i + 1) cs).map ({ ns, key, omitMembers := c.omitMembers } :: ·)

end Answers

end EntroQ.Workgateway
