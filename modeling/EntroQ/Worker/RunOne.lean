import EntroQ.Worker.Renewal

/-! # One turn of a worker

`runOne` claims a task and takes it through the phases of a handler. What the handler, the backend
and the clocks do is given, as the answers to the calls the worker makes; a turn is the calls made
and how it ended. -/

namespace EntroQ.Worker

structure Config where
  /-- Empty where there is no mapping. -/
  errQMap : String → String := fun _ => ""
  sprintf : Message → String := Message.format
  dependencyText : DependencyError → String := fun e => e.message.format
  /-- The name of the type that task values decode into. -/
  valueType : String := ""

def defaultErrQMap (inbox : String) : String := inbox ++ "/err"

def Config.errorQueueFor (w : Config) (inbox : String) : String :=
  if w.errQMap inbox ≠ "" then w.errQMap inbox else defaultErrQMap inbox

structure RunOpt where
  qs : List String
  baseRetryDelay : Duration := 30 * second
  docContentionDelay : Duration := 0
  maxAttempts : Int32 := 0
  maxClaims : Int32 := 5
  workTimeout : Duration := 300 * second
  lease : Duration := defaultClaimDuration

abbrev RunOption := RunOpt → RunOpt

def watching (qs : List String) : RunOption := fun ro => { ro with qs }
def withLease (d : Duration) : RunOption := fun ro => { ro with lease := d }
def withMaxAttempts (m : Int32) : RunOption := fun ro => { ro with maxAttempts := m }
def withMaxClaims (m : Int32) : RunOption := fun ro => { ro with maxClaims := m }
def withBaseRetryDelay (d : Duration) : RunOption := fun ro => { ro with baseRetryDelay := d }

/-- The options `Run` works with, from its defaults. -/
def runOpt (opts : List RunOption) : RunOpt := opts.foldl (fun ro opt => opt ro) { qs := [] }

/-- The delay after contention; up to a quarter more is drawn at random. -/
def RunOpt.contentionDelay (opts : RunOpt) (jitter : Duration) : Duration :=
  let d := if opts.docContentionDelay ≤ 0 then opts.baseRetryDelay else opts.docContentionDelay
  if d ≤ 0 then d else d + jitter

inductive Call
  | makeHandler
  | takeDocs
  | claimDocs (sets : List DocSetClaim)
  | cueWork
  | doWork (h : Held)
  | finish (h : Held)
  | modify (m : Modification)
  deriving DecidableEq

/-- The answers to the calls of a turn, and when its contexts end. -/
structure Env where
  claimant : String
  shutDown : Bool := false
  claim : Except Err Task
  makeHandler : Option Err := none
  decode : Option Err := none
  takeDocs : Except Err (List DocSetClaim) := .ok []
  claimDocs : Except Err (List DocSet) := .ok []
  cueWork : Option Err := none
  doWork : Option Err := none
  events : List Event := []
  /-- The deadline of the work has passed when it is looked at. -/
  workExpired : Bool := false
  finish : Option Err := none
  /-- The handler's commit only made the task arrive. -/
  released : Bool := false
  /-- The error of the context when the claim limit is looked at, and when a disposition is made. -/
  limitCtxErr : Option Err := none
  ctxErr : Option Err := none
  modify : Modification → Option Err := fun _ => none
  jitter : Duration := 0

structure Turn where
  calls : List Call := []
  outcome : Option Outcome := none
  err : Option Err := none
  /-- The work may still be going on. -/
  ended : Bool := true

def Turn.after (calls : List Call) (t : Turn) : Turn := { t with calls := calls ++ t.calls }

structure Disposition where
  calls : List Call := []
  isSentinel : Bool := true
  err : Option Err := none

def stopAfter (stop : Bool) (disposition : String) : Option Err :=
  if stop then
    some (errShutdown.wrap ("stopping after a " ++ disposition ++ " that asked to be the last"))
  else none

section Turns
variable (w : Config) (opts : RunOpt) (env : Env)

def commit (m : Modification) (stop : Bool) (disposition what : String) : Disposition :=
  { calls := [.modify m]
    err := match env.modify m with
      | none => stopAfter stop disposition
      | some e => if e.asDependency.isSome then stopAfter stop disposition else some (e.wrap what) }

/-- Do what a sentinel asks for, unless the worker's context has ended. -/
def handleSentinelErrors (sentinel : Err) (task : Task) (sets : List DocSet) (errQ : String) :
    Disposition :=
  match env.ctxErr, sentinel.asRetry, sentinel.asMove, sentinel.asFatal with
  | some c, some _, _, _ => { err := some (c.wrap "retry not applied, worker stopping") }
  | some c, none, some _, _ => { err := some (c.wrap "move not applied, worker stopping") }
  | none, some re, _, _ =>
    let m := newModification env.claimant
      [task.retryOrQuarantine re.msg (if re.moveTo ≠ "" then re.moveTo else errQ) opts.maxAttempts
        [arrivalTimeBy (re.after.getD opts.baseRetryDelay)], arriving 0 [] sets]
    commit env m re.stop "retry" "retry or quarantine modify"
  | none, none, some me, _ =>
    let m := newModification env.claimant
      [task.quarantine me.msg (if me.to_ ≠ "" then me.to_ else errQ) [], arriving 0 [] sets]
    commit env m me.stop "move" "quarantine modify"
  | _, none, none, some fe => { err := some fe.err }
  | _, none, none, none => { isSentinel := false }

def quarantineAtLimit (task : Task) (sets : List DocSet) (e : Err) : List Call × Bool :=
  if opts.maxClaims ≤ 0 ∨ task.claims < opts.maxClaims ∨ env.limitCtxErr.isSome then ([], false)
  else
    let move : MoveError :=
      { msg := w.sprintf
          { format := "handler failed at the claim limit (%d claims, limit %d): %v"
            args := [.num task.claims.toInt, .num opts.maxClaims.toInt, .str e.msg] } }
    let d := handleSentinelErrors opts env move.err task sets (w.errorQueueFor task.queue)
    (d.calls, d.err.isNone)

/-- The end of a turn whose handler failed outside its work. -/
def phaseFailed (what : String) (task : Task) (sets : List DocSet) (e : Err) : Turn :=
  if isSentinelError e then
    let d := handleSentinelErrors opts env e task sets (w.errorQueueFor task.queue)
    { calls := d.calls, outcome := some (sentinelOutcome e), err := d.err }
  else
    let q := quarantineAtLimit w opts env task sets e
    { calls := q.1, outcome := some (if q.2 then .moved else .failed), err := some (e.wrap what) }

/-- The end of a turn by a disposition of the worker's own. -/
def dispose (sentinel : Err) (task : Task) (sets : List DocSet) (errQ : String)
    (outcome onErr : Outcome) (what : String) : Turn :=
  let d := handleSentinelErrors opts env sentinel task sets errQ
  { calls := d.calls
    outcome := some (if d.err.isSome then onErr else outcome)
    err := d.err.map (Err.wrap what) }

/-- The text that names the queues of the run. -/
def named (format : String) : String :=
  w.sprintf { format, args := opts.qs.map .str }

/-- `Finish`, with the versions renewal left. -/
def finishStage (h : Held) (errQ : String) : Turn :=
  let success : Option Outcome := some (if env.released then .released else .done)
  Turn.after [.finish h] <|
    match env.finish with
    | none => { outcome := success }
    | some e =>
      if e.isShutdown then { outcome := success, err := some e }
      else
        let d := handleSentinelErrors opts env e h.task h.sets errQ
        if d.isSentinel then { calls := d.calls, outcome := some .failed, err := d.err }
        else if e.asDependency.isSome then { outcome := some .retried }
        else if e.isTimeout || e.isCanceled then
          { outcome := some .failed, err := some (e.wrap "canceled in finish") }
        else { outcome := some .failed, err := some (e.wrap (named w opts "worker finish (%q)")) }

def workReturn : Option Err :=
  match env.doWork with
  | none => none
  | some e => if isSentinelError e then none else some (e.wrap "task do")

/-- The work goroutine's steps, once `DoWork` has returned. -/
def workOps : List WorkOp := [.finalize, .receive, .ret (workReturn env)]

def workPhase (h : Held) : Renewal := doWhileRenewing h (workOps env) env.events

def workEnded (task : Task) (s : Renewal) (final : Held) : Turn :=
  let errQ := w.errorQueueFor task.queue
  match s.stopErr with
  | some renewErr =>
    match env.doWork.bind Err.asFatal with
    | some fe => { outcome := some .failed, err := some fe.err }
    | none =>
      if renewErr.asDependency.isSome then { outcome := some .lost }
      else
        { outcome := some .failed, err := some (renewErr.wrap (named w opts "worker (%q) renewal")) }
  | none =>
    match env.doWork.filter isSentinelError with
    | some sentinel =>
      dispose opts env sentinel final.task final.sets errQ (sentinelOutcome sentinel)
        (sentinelOutcome sentinel) "handle sentinel error"
    | none =>
      match s.returned.join with
      | none => finishStage w opts env final errQ
      | some e =>
        let handleErr := e.wrap "do with renew all"
        if 0 < opts.workTimeout ∧ env.workExpired then
          let retry : RetryError :=
            { msg := w.sprintf
                { format := "work did not finish within %v: %v"
                  args := [.duration opts.workTimeout, .str handleErr.msg] } }
          dispose opts env retry.err final.task final.sets errQ .retried .retried
            "handle work timeout"
        else
          let q := match env.doWork with
            | some workErr => quarantineAtLimit w opts env final.task final.sets workErr
            | none => ([], false)
          { calls := q.1, outcome := some (if q.2 then .moved else .failed)
            err := some (handleErr.wrap (named w opts "worker (%q)")) }

/-- `DoWork`, with renewal. -/
def workStage (task : Task) (sets : List DocSet) : Turn :=
  let h : Held := { task, sets }
  let s := workPhase env h
  Turn.after [.doWork h] <|
    if s.finished then workEnded w opts env task s (s.final.getD h) else { ended := false }

def cueStage (task : Task) (sets : List DocSet) : Turn :=
  Turn.after [.cueWork] <|
    match env.cueWork with
    | some e => phaseFailed w opts env "cue work" task sets e
    | none => workStage w opts env task sets

def acquireStage (task : Task) (claims : List DocSetClaim) : Turn :=
  if claims.isEmpty then cueStage w opts env task []
  else
    Turn.after [.claimDocs claims] <|
      match env.claimDocs with
      | .ok sets => cueStage w opts env task sets
      | .error e =>
        match e.asDependency with
        | some d =>
          let retry : RetryError :=
            { msg := w.sprintf
                { format := if d.hasMissing then "task lease lapsed while taking docs: %v"
                    else "doc contention: %v"
                  args := [.str (w.dependencyText d)] }
              after := some (opts.contentionDelay env.jitter) }
          dispose opts env retry.err task [] (w.errorQueueFor task.queue) .retried .retried
            "handle sentinel error"
        | none => { outcome := some .failed, err := some (e.wrap "acquire docs") }

def takeStage (task : Task) : Turn :=
  Turn.after [.takeDocs] <|
    match env.takeDocs with
    | .error e => phaseFailed w opts env "take docs" task [] e
    | .ok claims => acquireStage w opts env task claims

def overLimit (task : Task) : Turn :=
  let move : MoveError :=
    { msg := w.sprintf
        { format := "maximum claims exceeded: %d claims without modification (limit %d, lease %v)"
          args := [.num task.claims.toInt, .num opts.maxClaims.toInt, .duration opts.lease] } }
  dispose opts env move.err task [] (w.errorQueueFor task.queue) .moved .failed "handle max claims"

def handlerStage (task : Task) : Turn :=
  Turn.after [.makeHandler] <|
    match env.makeHandler with
    | some e =>
      { outcome := some .failed
        err := some (FatalError.err { msg := "failed to make handler: " ++ e.msg }) }
    | none =>
      match env.decode with
      | some e =>
        let move : MoveError :=
          { msg := w.sprintf { format := "value does not decode as %T: %v"
                               args := [.str w.valueType, .str e.msg] } }
        dispose opts env move.err task [] (w.errorQueueFor task.queue) .moved .moved
          (named w opts "worker (%q) move undecodable task")
      | none => takeStage w opts env task

def runOne : Turn :=
  if env.shutDown then { err := some errShutdown }
  else
    match env.claim with
    | .error e => { err := some (e.wrap (named w opts "worker (%q) claim")) }
    | .ok task =>
      if 0 < opts.maxClaims ∧ opts.maxClaims < task.claims then overLimit w opts env task
      else handlerStage w opts env task

end Turns

end EntroQ.Worker
