import EntroQ.Async.LaneRun

/-! # The handlers of a session

A session has two lanes. On the request lane the sender answers each acknowledgement with the next
part of the request body, and the receiver writes it to the upstream; on the response lane the
receiver answers each acknowledgement with the next event of the upstream's response, and the
sender writes it to its caller. -/

namespace EntroQ.Async
open Worker

/-- The side of a session, as it is configured. -/
structure Settings where
  names : Names
  sprintf : Message → String := Message.format
  dependencyText : DependencyError → String := fun e => e.message.format
  canonicalHeaderKey : String → String := id
  laneTiming : LaneTiming := {}
  heartbeatAfter : Duration := 60 * second
  heartbeatTimeout : Duration := 180 * second

def Settings.fatalf (c : Settings) (format : String) (args : List MessageArg) : Err :=
  FatalError.err { msg := c.sprintf { format, args } }

/-- The error of a commit that is refused, of the session's frame. -/
def Settings.lostDependency (c : Settings) (format session : String) (d : DependencyError) :
    String :=
  c.sprintf { format, args := [.str session, .str (c.dependencyText d)] }

/-! ## What the two lanes have in common -/

inductive Wait
  | event
  | deadline
  | ended (expired : Bool)
  deriving DecidableEq

def receiveBefore {α : Type} (events : List α) : Wait → Except Err (Option α) × List α
  | .ended expired => (.error (if expired then deadlineExceeded else canceled), events)
  | .deadline => (.ok none, events)
  | .event =>
    match events with
    | [] => (.ok none, [])
    | e :: rest => (.ok (some e), rest)

/-- The clock readings of a handler, and what it waits for. -/
structure AskInput where
  wait : Wait
  askedAt : Time
  now : Time
  rotateAt : Time

inductive Asked (α : Type)
  | badPeer (e : Message)
  | ended (lanes : SessionLanes) (e : Err)
  | control (lanes : SessionLanes) (turn : LaneTurn)
  | data (lanes : SessionLanes) (event : α) (rest : List α) (turn : LaneTurn)

section Common
variable (c : Settings)

def SessionLanes.ask {α : Type} (lanes : SessionLanes) (peer : String) (events : List α)
    (last : α → Bool) (i : AskInput) : Asked α :=
  match lanes.observePeer c.names peer with
  | .error e => .badPeer e
  | .ok (lanes, true) => .control (lanes.reciprocateSwitch c.names i.rotateAt) .rotated
  | .ok (lanes, false) =>
    match receiveBefore events i.wait with
    | (.error e, _) => .ended lanes e
    | (.ok none, _) =>
      if i.askedAt + c.heartbeatAfter < lanes.peer.forceAt c.laneTiming then .control lanes .next
      else .control (lanes.initiateSwitch c.names i.rotateAt) .rotated
    | (.ok (some e), rest) =>
      if last e then .data lanes e rest .done
      else if lanes.local_.shouldPiggyback i.now then
        .data (lanes.initiateSwitch c.names i.rotateAt) e rest .rotated
      else .data lanes e rest .next

/-- The queue for the acknowledgement of a frame that is not the last. -/
def SessionLanes.acknowledge (lanes : SessionLanes) (reciprocate : Bool) (now rotateAt : Time) :
    SessionLanes × LaneTurn :=
  if reciprocate then (lanes.reciprocateSwitch c.names rotateAt, .rotated)
  else if lanes.local_.shouldPiggyback now then
    (lanes.initiateSwitch c.names rotateAt, .rotated)
  else (lanes, .next)

/-- The peer's queue, if the frame is not the last and so names one. -/
def SessionLanes.observeUnless (lanes : SessionLanes) (final : Bool) (peer : String) :
    Except Message (SessionLanes × Bool) :=
  if final then .ok (lanes, false) else lanes.observePeer c.names peer

end Common

/-! ## The response lane -/

/-- An observation of the upstream's response. -/
structure SocketEvent where
  statusCode : ℤ := 0
  headers : Header := []
  trailerKeys : List String := []
  body : Bytes := []
  trailers : Header := []
  end_ : Bool := false
  err : Option String := none
  deriving DecidableEq

/-- One read of a response body. -/
inductive ReadErr
  | eof
  | other (text : String)
  deriving DecidableEq

structure BodyRead where
  bytes : Bytes
  err : Option ReadErr := none
  deriving DecidableEq

/-- What the upstream does with a request: no response, or one that is read to its end. -/
inductive Upstream
  | refused (statusCode : ℤ) (err : String)
  | responds (head : SocketEvent) (reads : List BodyRead) (trailers : Header)
      (closeErr : Option String)

/-- The events of the reads; a hundredth read without anything is an error. -/
def readEvents (trailers : Header) (closeErr : Option String) : ℕ → List BodyRead → List SocketEvent
  | _, [] => []
  | emptyReads, r :: reads =>
    match r.err with
    | none =>
      if r.bytes.isEmpty then
        if emptyReads + 1 < 100 then readEvents trailers closeErr (emptyReads + 1) reads
        else
          [{ end_ := true, trailers
             err := some (joined "multiple Read calls return no data or error") }]
      else { body := r.bytes } :: readEvents trailers closeErr 0 reads
    | some .eof => [{ body := r.bytes, end_ := true, trailers, err := closeErr }]
    | some (.other e) =>
      [{ body := r.bytes, end_ := true, trailers, err := some (joined e) }]
where
  /-- `errors.Join` with the error of the close. -/
  joined (e : String) : String := "\n".intercalate (e :: closeErr.toList)

/-- What the socket puts in its channel. -/
def Upstream.events : Upstream → List SocketEvent
  | .refused statusCode err => [{ statusCode, end_ := true, err := some err }]
  | .responds head reads trailers closeErr =>
    { head with body := [], trailers := [], end_ := false, err := none } ::
      readEvents trailers closeErr 0 reads

/-- The receiver's side of the response lane. -/
structure ResponseSource where
  session : String
  lanes : SessionLanes
  coming : List SocketEvent
  taken : List SocketEvent := []
  deriving DecidableEq

/-- The sender's side of the response lane, with what its caller has been sent. -/
structure ResponseSink where
  session : String
  lanes : SessionLanes
  responseStarted : Bool := false
  responseStatus : ℤ := 0
  responseErr : Option String := none
  header : Header := []
  written : Bytes := []
  /-- The error of a write to the caller. -/
  callerErr : Option String := none
  deriving DecidableEq

section Response
variable (c : Settings)

def SocketEvent.frame (e : SocketEvent) (session replyQueue : String) : Response where
  session := session
  final := e.end_
  replyQueue := if e.end_ then "" else replyQueue
  error := e.err.getD ""
  statusCode := e.statusCode
  headers := e.headers
  trailerKeys := e.trailerKeys
  body := e.body
  trailers := e.trailers

def answerAck (ack resp : Response) (doc : Doc) (turn : LaneTurn) (consumedBody : Bool) :
    LaneResult Response where
  reply := some (ack.replyQueue, resp)
  doc := some (if resp.final then .delete doc else .change doc c.heartbeatTimeout)
  turn := turn
  onDependency := if consumedBody then
      some (c.lostDependency "session %q response commit lost dependency after socket read: %v"
        ack.session)
    else none

def responseHandler (st : ResponseSource) (i : AskInput) (w : Work Response) :
    ResponseSource × Except Err (LaneResult Response) :=
  let ack := w.value
  if ack.session ≠ st.session then
    (st, .error (c.fatalf "session mismatch: ACK %q, worker %q" [.str ack.session, .str st.session]))
  else
  match w.sets.map DocSet.docs with
  | [[doc]] =>
    if !responseDataEmpty ack then
      (st, .error (c.fatalf "session %q received response data where an ACK was expected"
        [.str ack.session]))
    else if ack.final then
      if ack.error = "" ∨ ack.replyQueue ≠ "" then
        (st, .error (c.fatalf "session %q received invalid terminal response ACK"
          [.str ack.session]))
      else (st, .ok { doc := some (.delete doc), turn := .done })
    else if ack.error ≠ "" ∨ ack.replyQueue = "" then
      (st, .error (c.fatalf "session %q received invalid response ACK" [.str ack.session]))
    else
      match st.lanes.ask c ack.replyQueue st.coming SocketEvent.end_ i with
      | .badPeer e =>
        (st, .error (c.fatalf "session %q response lane: %v" [.str ack.session, .str (c.sprintf e)]))
      | .ended lanes e => ({ st with lanes }, .error e)
      | .control lanes turn =>
        ({ st with lanes },
          .ok (answerAck c ack { session := ack.session, replyQueue := lanes.local_.queue } doc turn
            false))
      | .data lanes e rest turn =>
        ({ st with lanes, coming := rest, taken := st.taken ++ [e] },
          .ok (answerAck c ack (e.frame ack.session lanes.local_.queue) doc turn true))
  | _ =>
    (st, .error (c.fatalf
      "session %q claimed %d receiver session doc sets, want one holding one doc"
      [.str ack.session, .num w.sets.length]))

/-! ### Writing to the caller -/

/-- What the caller's writer does: an error after so many bytes, and an error of the flush. -/
structure WriteInput where
  write : Option (ℕ × String) := none
  flush : Option String := none
  now : Time
  rotateAt : Time

def Header.add (h : Header) (key value : String) : Header :=
  let key := c.canonicalHeaderKey key
  if h.any fun p => p.1 == key then
    h.map fun p => if p.1 = key then (p.1, p.2 ++ [value]) else p
  else h ++ [(key, [value])]

def Header.set (h : Header) (key : String) (values : List String) : Header :=
  h.filter (fun p => p.1 != key) ++ [(key, values)]

def declareTrailers (h : Header) (keys : List String) : Header :=
  if keys.isEmpty then h else h.set "Trailer" [", ".intercalate keys]

def applyTrailers (h : Header) (trailers : Header) : Header :=
  trailers.foldl (fun h p => h.set (c.canonicalHeaderKey p.1) p.2) h

def ResponseSink.start (st : ResponseSink) (resp : Response) : Except Err ResponseSink :=
  if !st.responseStarted && resp.statusCode != 0 then
    let header := resp.headers.foldl
      (fun h p => p.2.foldl (fun h v => Header.add c h p.1 v) h) st.header
    .ok { st with header := declareTrailers header resp.trailerKeys
                  responseStarted := true, responseStatus := resp.statusCode }
  else if st.responseStarted &&
      (resp.statusCode != 0 || !resp.headers.isEmpty || !resp.trailerKeys.isEmpty) then
    .error (c.fatalf "session %q received repeated response metadata" [.str st.session])
  else if !st.responseStarted && !emptyResponse resp then
    .error (c.fatalf "session %q response body arrived before response metadata" [.str st.session])
  else .ok st

def ResponseSink.noted (st : ResponseSink) (wasStarted : Bool) (resp : Response) : ResponseSink :=
  { st with
    header := if resp.final then applyTrailers c st.header resp.trailers else st.header
    responseErr := if resp.error ≠ "" ∧ wasStarted then some resp.error else st.responseErr }

def ResponseSink.finish (st : ResponseSink) (wasStarted reciprocate : Bool) (i : WriteInput)
    (resp : Response) : ResponseSink × Except Err (LaneResult Response) :=
  let st := st.noted c wasStarted resp
  let onDependency := some
    (c.lostDependency "session %q response commit lost dependency after socket write: %v" st.session)
  if resp.final then (st, .ok { turn := .done, onDependency })
  else
    match (if st.responseStarted && !emptyResponse resp then i.flush else none) with
    | some e =>
      (st, .error (c.fatalf "session %q flush response: %v" [.str st.session, .str e]))
    | none =>
      let (lanes, turn) := st.lanes.acknowledge c reciprocate i.now i.rotateAt
      let ack : Response := { session := st.session, replyQueue := lanes.local_.queue }
      ({ st with lanes }, .ok { reply := some (resp.replyQueue, ack), turn, onDependency })

/-- The sender's handler of response frames. -/
def handleResponse (st : ResponseSink) (i : WriteInput) (w : Work Response) :
    ResponseSink × Except Err (LaneResult Response) :=
  let resp := w.value
  if resp.session ≠ st.session then
    (st, .error (c.fatalf "response session mismatch: got %q, want %q"
      [.str resp.session, .str st.session]))
  else if !resp.final && resp.replyQueue == "" then
    (st, .error (c.fatalf "session %q received response data without an ACK queue"
      [.str st.session]))
  else if resp.final && resp.replyQueue != "" then
    (st, .error (c.fatalf "session %q received terminal response with an ACK queue"
      [.str st.session]))
  else if resp.error ≠ "" ∧ !resp.final then
    (st, .error (c.fatalf "session %q received nonterminal response error" [.str st.session]))
  else
    match st.lanes.observeUnless c resp.final resp.replyQueue with
    | .error e =>
      (st, .error (c.fatalf "session %q response lane: %v" [.str st.session, .str (c.sprintf e)]))
    | .ok (lanes, reciprocate) =>
      let st := { st with lanes }
      match st.start c resp with
      | .error e => (st, .error e)
      | .ok started =>
        match (if resp.body.isEmpty then none else i.write) with
        | some (n, e) =>
          let failure : Response := { session := st.session, final := true, error := e }
          ({ started with written := started.written ++ resp.body.take n, callerErr := some e },
            .ok { reply := if resp.replyQueue ≠ "" then some (resp.replyQueue, failure) else none
                  turn := .done
                  onDependency := some (c.lostDependency
                    "session %q response failure commit lost dependency: %v" st.session) })
        | none =>
          { started with written := started.written ++ resp.body }.finish c st.responseStarted
            reciprocate i resp

end Response

/-! ## The request lane -/

/-- A part of the request body. -/
structure BodyEvent where
  body : Bytes := []
  trailers : Header := []
  end_ : Bool := false
  err : Option String := none
  deriving DecidableEq

/-- The sender's side of the request lane. -/
structure RequestSource where
  session : String
  lanes : SessionLanes
  coming : List BodyEvent
  deriving DecidableEq

/-- The receiver's side of the request lane, with what the socket has been given. -/
structure RequestSink where
  session : String
  lanes : SessionLanes
  opened : Bool := false
  deliveries : List BodyEvent := []
  deriving DecidableEq

section Request
variable (c : Settings)

/-- The sender's handler of request acknowledgements. -/
def handleRequestAck (st : RequestSource) (i : AskInput) (w : Work Envelope) :
    RequestSource × Except Err (LaneResult Envelope) :=
  let ack := w.value
  if ack.session ≠ st.session then
    (st, .error (c.fatalf "request ACK session mismatch: got %q, want %q"
      [.str ack.session, .str st.session]))
  else if !envelopeDataEmpty ack then
    (st, .error (c.fatalf "session %q received request data where an ACK was expected"
      [.str st.session]))
  else if ack.final then
    if ack.error = "" ∨ ack.replyQueue ≠ "" then
      (st, .error (c.fatalf "session %q received invalid terminal request ACK" [.str st.session]))
    else (st, .ok { turn := .done })
  else if ack.error ≠ "" ∨ ack.replyQueue = "" then
    (st, .error (c.fatalf "session %q received invalid request ACK" [.str st.session]))
  else
    match st.lanes.ask c ack.replyQueue st.coming BodyEvent.end_ i with
    | .badPeer e =>
      (st, .error (c.fatalf "session %q request lane: %v" [.str st.session, .str (c.sprintf e)]))
    | .ended lanes e => ({ st with lanes }, .error e)
    | .control lanes turn =>
      let env : Envelope := { session := st.session, replyQueue := lanes.local_.queue }
      ({ st with lanes }, .ok { reply := some (ack.replyQueue, env), turn })
    | .data lanes e rest turn =>
      let env : Envelope :=
        { session := st.session, final := e.end_, error := e.err.getD "", body := e.body
          replyQueue := if e.end_ then "" else lanes.local_.queue, trailers := e.trailers }
      ({ st with lanes, coming := rest },
        .ok { reply := some (ack.replyQueue, env), turn
              onDependency := some (c.lostDependency
                "session %q request commit lost dependency after body read: %v" st.session) })

/-- What the socket answers the receiver with. -/
structure SocketInput where
  open_ : Option String := none
  write : Option String := none
  now : Time
  rotateAt : Time

def RequestSink.finish (st : RequestSink) (reciprocate consumedBody : Bool) (i : SocketInput)
    (env : Envelope) : RequestSink × LaneResult Envelope :=
  let onDependency := if consumedBody then
      some (c.lostDependency "session %q request commit lost dependency after socket write: %v"
        env.session)
    else none
  if env.final then (st, { turn := .done, onDependency })
  else
    let (lanes, turn) := st.lanes.acknowledge c reciprocate i.now i.rotateAt
    let ack : Envelope := { session := env.session, replyQueue := lanes.local_.queue }
    ({ st with lanes }, { reply := some (env.replyQueue, ack), turn, onDependency })

def requestHandler (st : RequestSink) (i : SocketInput) (w : Work Envelope) :
    RequestSink × Except Err (LaneResult Envelope) :=
  let env := w.value
  if env.session ≠ st.session then
    (st, .error (c.fatalf "request session mismatch: got %q, want %q"
      [.str env.session, .str st.session]))
  else if env.final ∧ env.replyQueue ≠ "" then
    (st, .error (c.fatalf "session %q terminal request has an ACK queue" [.str env.session]))
  else if !env.final ∧ env.replyQueue = "" then
    (st, .error (c.fatalf "session %q request data has no ACK queue" [.str env.session]))
  else if env.error ≠ "" ∧ !env.final then
    (st, .error (c.fatalf "session %q has a nonterminal request error" [.str env.session]))
  else if !st.opened ∧ (env.method = "" ∨ env.responseQueue = "") then
    (st, .error (c.fatalf "session %q initial request metadata is incomplete" [.str env.session]))
  else
    match (if st.opened then none else i.open_) with
    | some e =>
      let ack : Envelope := { session := env.session, final := true, error := e }
      (st, .ok { reply := some (env.replyQueue, ack), turn := .done })
    | none =>
      if st.opened ∧ hasRequestMetadata env then
        (st, .error (c.fatalf "session %q received repeated request metadata" [.str env.session]))
      else
        let st := { st with opened := true }
        match st.lanes.observeUnless c env.final env.replyQueue with
        | .error e =>
          (st, .error (c.fatalf "session %q request lane: %v"
            [.str env.session, .str (c.sprintf e)]))
        | .ok (lanes, reciprocate) =>
          let consumedBody := !env.body.isEmpty || env.final
          let event : BodyEvent :=
            { body := env.body, trailers := env.trailers, end_ := env.final
              err := if env.error = "" then none else some env.error }
          let st := { st with lanes }
          if consumedBody then
            let st := { st with deliveries := st.deliveries ++ [event] }
            match i.write with
            | some e =>
              let failure : Envelope := { session := env.session, final := true, error := e }
              (st, .ok
                { reply := if env.replyQueue ≠ "" then some (env.replyQueue, failure) else none
                  turn := .done
                  onDependency := some (c.lostDependency
                    "session %q request failure commit lost dependency: %v" env.session) })
            | none =>
              let r := st.finish c reciprocate true i env
              (r.1, .ok r.2)
          else
            let r := st.finish c reciprocate false i env
            (r.1, .ok r.2)

end Request

end EntroQ.Async
