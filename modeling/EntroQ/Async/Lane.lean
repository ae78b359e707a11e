import EntroQ.Client.Types

/-! # Frames and lanes

A session of EQLink carries one HTTP exchange over tasks. Each direction is a lane: data frames one
way and acknowledgements the other, one at a time. A frame names the queue on which its sender
awaits the next one, and a side moves to a new queue by naming it in a frame. -/

namespace EntroQ.Async

abbrev Header := List (String × List String)
abbrev Bytes := List UInt8

/-- What request and response frames share. -/
structure FrameControl where
  session : String := ""
  replyQueue : String := ""
  final : Bool := false
  error : String := ""
  deriving DecidableEq

/-- A request frame, or the acknowledgement of one. -/
structure Envelope extends FrameControl where
  responseQueue : String := ""
  method : String := ""
  path : String := ""
  protocolMajor : ℤ := 0
  contentLength : ℤ := 0
  headers : Header := []
  trailerKeys : List String := []
  body : Bytes := []
  trailers : Header := []
  deriving DecidableEq

structure Response extends FrameControl where
  statusCode : ℤ := 0
  headers : Header := []
  trailerKeys : List String := []
  body : Bytes := []
  trailers : Header := []
  deriving DecidableEq

def hasRequestMetadata (env : Envelope) : Bool :=
  env.responseQueue != "" || env.method != "" || env.path != "" || env.protocolMajor != 0 ||
    env.contentLength != 0 || !env.headers.isEmpty || !env.trailerKeys.isEmpty

def responseDataEmpty (resp : Response) : Bool :=
  resp.statusCode == 0 && resp.headers.isEmpty && resp.trailerKeys.isEmpty && resp.body.isEmpty &&
    resp.trailers.isEmpty

def emptyResponse (resp : Response) : Bool := responseDataEmpty resp && resp.error == ""

def envelopeDataEmpty (env : Envelope) : Bool :=
  env.responseQueue == "" && env.method == "" && env.path == "" && env.protocolMajor == 0 &&
    env.contentLength == 0 && env.headers.isEmpty && env.trailerKeys.isEmpty && env.body.isEmpty &&
    env.trailers.isEmpty

/-! ## Queues and their rotation -/

/-- How queue names are put together and read. -/
structure Names where
  join : List String → String := "/".intercalate
  escapeComponent : String → String := id
  /-- The time in the last `gc=` parameter, if there is one. -/
  gcActivation : String → Except String (Option Time)

structure LaneTiming where
  lifetime : Duration := 1800 * second
  piggybackBefore : Duration := 600 * second
  forceBefore : Duration := 300 * second
  deriving DecidableEq

def LaneTiming.validate (t : LaneTiming) : Option String :=
  if t.lifetime ≤ 0 then some "queue lifetime must be positive"
  else if t.piggybackBefore ≤ t.forceBefore ∨ t.lifetime ≤ t.piggybackBefore then
    some "piggyback threshold must be after the forced threshold and before queue expiry"
  else if t.forceBefore ≤ 0 then some "forced threshold must be positive"
  else none

def unix (t : Time) : ℤ := (t - 62135596800 * second) / second

def ofUnix (n : ℤ) : Time := (n + 62135596800) * second

def sessionQueue (names : Names) (base session : String) (collectAt : Time) (direction : String) :
    String :=
  names.join [base, "sess=" ++ names.escapeComponent session ++ ";gc=" ++ toString (unix collectAt),
    direction]

/-- The queue on which one side awaits its next frame. -/
structure ReceiveLane where
  base : String
  session : String
  direction : String
  queue : String := ""
  collectAt : Time := 0
  timing : LaneTiming
  deriving DecidableEq

namespace ReceiveLane
variable (names : Names) (l : ReceiveLane) (now : Time)

/-- A queue of a later time, so a new one. -/
def rotate : ReceiveLane :=
  let at_ := ofUnix (unix (now + l.timing.lifetime))
  let collectAt := if at_ ≤ l.collectAt then l.collectAt + second else at_
  { l with collectAt, queue := sessionQueue names l.base l.session collectAt l.direction }

def shouldPiggyback : Bool := decide (l.collectAt - l.timing.piggybackBefore ≤ now)

end ReceiveLane

def newReceiveLane (names : Names) (base session direction : String) (now : Time)
    (timing : LaneTiming) : ReceiveLane :=
  ReceiveLane.rotate names { base, session, direction, timing } now

structure PeerLane where
  queue : String := ""
  collectAt : Time := 0
  deriving DecidableEq

def PeerLane.forceAt (l : PeerLane) (timing : LaneTiming) : Time :=
  l.collectAt - timing.forceBefore

/-- The peer's queue, and whether it is another one than before. -/
def PeerLane.observe (names : Names) (l : PeerLane) (queue : String) :
    Except Message (PeerLane × Bool) :=
  match names.gcActivation queue with
  | .error e =>
    .error { format := "parse reply queue %q: %w", args := [.str queue, .str e] }
  | .ok none => .error (noDeadline queue)
  | .ok (some collectAt) =>
    if collectAt = 0 then .error (noDeadline queue)
    else .ok ({ queue, collectAt }, l.queue != "" && queue != l.queue)
where
  noDeadline (queue : String) : Message :=
    { format := "reply queue %q has no finite gc deadline", args := [.str queue] }

structure SessionLanes where
  local_ : ReceiveLane
  peer : PeerLane := {}
  awaitingSwitch : Bool := false
  deriving DecidableEq

namespace SessionLanes
variable (names : Names) (l : SessionLanes)

/-- Note the peer's queue. A change is to be reciprocated, unless it completes a switch that this
side began. -/
def observePeer (queue : String) : Except Message (SessionLanes × Bool) :=
  match l.peer.observe names queue with
  | .error e => .error e
  | .ok (peer, false) => .ok ({ l with peer }, false)
  | .ok (peer, true) =>
    if l.awaitingSwitch then .ok ({ l with peer, awaitingSwitch := false }, false)
    else .ok ({ l with peer }, true)

def initiateSwitch (now : Time) : SessionLanes :=
  { l with awaitingSwitch := true, local_ := l.local_.rotate names now }

def reciprocateSwitch (now : Time) : SessionLanes :=
  { l with local_ := l.local_.rotate names now }

variable {names l}

theorem observePeer_local {queue : String} {l' : SessionLanes} {b : Bool}
    (h : l.observePeer names queue = .ok (l', b)) : l'.local_ = l.local_ := by
  unfold observePeer at h
  split at h
  · cases h
  · cases h
    rfl
  · split_ifs at h <;> cases h <;> rfl

end SessionLanes

end EntroQ.Async
