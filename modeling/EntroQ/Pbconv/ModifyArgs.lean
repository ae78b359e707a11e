import EntroQ.Client.Changes

/-! # Modifications from the wire

The messages a modification is asked for with, and how they are read into the arguments of a
modification under the protocol that the request declares. -/

namespace EntroQ.Pb

structure TaskID where
  id : String := ""
  version : Int32 := 0
  queue : String := ""
  deriving DecidableEq

/-- `V` is the type of a JSON value on the wire. -/
structure TaskData (V : Type) where
  queue : String := ""
  atMs : Int64 := 0
  byMs : Int64 := 0
  value : Option V := none
  id : String := ""
  attempt : Int32 := 0
  err : String := ""

/-- How a change is to be read; an enumeration on the wire may hold any number. -/
inductive ChangeMode
  | changeDefault | changeResetClaims | changeLease
  | other (n : Int32)
  deriving DecidableEq

structure TaskChange (V : Type) where
  oldID : Option TaskID := none
  newData : Option (TaskData V) := none
  mode : ChangeMode := .changeDefault

inductive DocRef
  | id (id : String)
  | key (key : String)
  deriving DecidableEq

structure DocID where
  ns : String := ""
  ref : Option DocRef := none
  secondaryKey : String := ""
  version : Int32 := 0
  deriving DecidableEq

structure DocData (V : Type) where
  ns : String := ""
  id : String := ""
  key : String := ""
  secondaryKey : String := ""
  content : Option V := none
  atMs : Int64 := 0
  byMs : Int64 := 0

structure DocChange (V : Type) where
  oldID : Option DocID := none
  newData : Option (DocData V) := none
  mode : ChangeMode := .changeDefault

structure ModifyRequest (V : Type) where
  claimantID : String := ""
  inserts : List (TaskData V) := []
  changes : List (TaskChange V) := []
  deletes : List TaskID := []
  depends : List TaskID := []
  docInserts : List (DocData V) := []
  docChanges : List (DocChange V) := []
  docDeletes : List DocID := []
  docDepends : List DocID := []

def ChangeMode.arg : ChangeMode → MessageArg
  | .changeDefault => .str "CHANGE_DEFAULT"
  | .changeResetClaims => .str "CHANGE_RESET_CLAIMS"
  | .changeLease => .str "CHANGE_LEASE"
  | .other n => .num n.toInt

def DocID.getID (d : DocID) : String :=
  match d.ref with
  | some (.id id) => id
  | _ => ""

end EntroQ.Pb

namespace EntroQ.Pbconv

/-- Why a request is refused: it is malformed, it is not carried out yet, or a value in it does not
convert. -/
inductive RequestError
  | invalidRequest (m : Message)
  | unsupportedRequest (m : Message)
  | conversion (what err : String)
  deriving DecidableEq

/-- A text that starts with what it is about. -/
def about (what : Message) (format : String) (args : List MessageArg) : Message where
  format := what.format ++ format
  args := what.args ++ args

def invalidf (format : String) (args : List MessageArg) : RequestError :=
  .invalidRequest { format, args }

def unsupportedf (format : String) (args : List MessageArg) : RequestError :=
  .unsupportedRequest { format, args }

/-- Milliseconds since 1970. -/
def fromMS (ms : Int64) : Time := (ms * 1000000).toInt + 62135596800 * second

def fromMSOrUnset (ms : Int64) : Time := if ms ≤ 0 then 0 else fromMS ms

/-- The time between two instants, within what a duration holds. -/
def sub (t u : Time) : Duration := max (-2 ^ 63) (min (t - u) (2 ^ 63 - 1))

def arrivalBy (atMs byMs : Int64) (protocol : Int32) (now : Time) (what : Message) :
    Except RequestError Duration :=
  let at_ := fromMSOrUnset atMs
  if at_ ≠ 0 ∧ 2 ≤ protocol then
    .error (.invalidRequest (about what (" names an arrival instant in at_ms: protocol 2 sends " ++
      "by_ms, a duration the server resolves on its own clock") []))
  else if byMs ≠ 0 then .ok (byMs * 1000000).toInt
  else if at_ = 0 ∨ at_ < now - arrivalPastWindow then .ok 0
  else .ok (sub at_ now)

def docByID (d : Pb.DocID) (what : String) : Except RequestError String :=
  match d.ref with
  | some (.id id) => .ok id
  | some (.key _) => .error (unsupportedf (what ++ " naming a doc by key is not supported yet") [])
  | none => .error (invalidf (what ++ " names no doc") [])

def docDepend (d : Pb.DocID) (protocol : Int32) : Except RequestError DocID :=
  match d.ref with
  | some (.id id) => .ok (newDocID d.ns id d.version)
  | some (.key key) =>
    if protocol < 2 then
      .error (invalidf ("doc depend naming a set by key is protocol 2, and the request declares " ++
        "protocol %d") [.num protocol.toInt])
    else if d.secondaryKey ≠ "" then
      .error (invalidf ("doc depend on set %q names secondary key %q: a key names the whole set, " ++
        "so name a doc by its ID instead") [.str key, .str d.secondaryKey])
    else .ok (newDocSetRef d.ns key d.version)
  | none => .error (invalidf "doc depend names no doc" [])

def changeMode (mode : Pb.ChangeMode) (protocol : Int32) (what : Message) :
    Except RequestError Unit :=
  match mode with
  | .changeDefault => .ok ()
  | .changeResetClaims | .changeLease =>
    if protocol < 2 then
      .error (.invalidRequest (about what
        ": mode %v is protocol 2, and the request declares protocol %d"
        [mode.arg, .num protocol.toInt]))
    else .ok ()
  | .other _ => .error (.invalidRequest (about what ": unknown mode %v" [mode.arg]))

section Args
variable {V : Type} (marshalJSON : V → Except String RawMessage) (protocol : Int32) (now : Time)

def protoToJSON (what : String) (v : Option V) : Except RequestError RawMessage :=
  match v with
  | none => .ok ""
  | some v => (marshalJSON v).mapError fun err => .conversion what ("proto to json: " ++ err)

/-- A lease may name the task's own queue, and else only when the task is ready again. -/
def taskLease (old : Pb.TaskID) (lease : Pb.TaskData V) : Except RequestError ModifyArg :=
  if lease.queue ≠ "" ∧ lease.queue ≠ old.queue then
    .error (invalidf "lease of task %s cannot move it: %q -> %q"
      [.str old.id, .str old.queue, .str lease.queue])
  else if lease.value.isSome ∨ lease.attempt ≠ 0 ∨ lease.err ≠ "" ∨ lease.id ≠ "" then
    .error (invalidf "lease of task %s may set only its arrival time" [.str old.id])
  else do
    let by_ ← arrivalBy lease.atMs lease.byMs protocol now ⟨"lease of task %s", [.str old.id]⟩
    return arriving by_ [{ id := old.id, version := old.version, queue := old.queue }] []

def docLease (old : Pb.DocID) (lease : Pb.DocData V) : Except RequestError ModifyArg :=
  match old.ref with
  | none => .error (invalidf "doc lease names no doc set" [])
  | some (.id _) => .error (invalidf "doc lease names a doc by ID; name its set by key" [])
  | some (.key key) =>
    if lease.ns ≠ "" ∧ lease.ns ≠ old.ns then
      .error (invalidf "doc lease of %q cannot name another namespace %q"
        [.str old.ns, .str lease.ns])
    else if lease.key ≠ "" ∧ lease.key ≠ key then
      .error (invalidf "doc lease of set %q cannot name another key %q" [.str key, .str lease.key])
    else if lease.secondaryKey ≠ "" ∧ lease.secondaryKey ≠ old.secondaryKey then
      .error (invalidf "doc lease of set %q cannot name another secondary key %q"
        [.str key, .str lease.secondaryKey])
    else if lease.content.isSome ∨ lease.id ≠ "" then
      .error (invalidf "doc lease of set %q may set only its arrival time" [.str key])
    else do
      let by_ ← arrivalBy lease.atMs lease.byMs protocol now ⟨"lease of doc set %s", [.str key]⟩
      return arriving by_ [] [{ ns := old.ns, key, version := old.version }]

def insertArg (insert : Pb.TaskData V) : Except RequestError ModifyArg := do
  let val ← protoToJSON marshalJSON "insert value" insert.value
  let by_ ← arrivalBy insert.atMs insert.byMs protocol now ⟨"insert into %s", [.str insert.queue]⟩
  return insertingInto insert.queue [withArrivalTimeIn by_, withRawValue val,
    withAttempt insert.attempt, withErr insert.err, withID insert.id]

def changeArg (claimantID : String) (change : Pb.TaskChange V) : Except RequestError ModifyArg :=
  match change.oldID, change.newData with
  | none, _ => .error (invalidf "task change names no task" [])
  | some old, none => .error (invalidf "change of task %s carries no data" [.str old.id])
  | some old, some nd => do
    let what : Message := ⟨"change of task %s", [.str old.id]⟩
    changeMode change.mode protocol what
    if change.mode = .changeLease then taskLease protocol now old nd
    else
      let val ← protoToJSON marshalJSON "change value" nd.value
      -- an empty destination is the queue the task is in
      let newQueue := if nd.queue = "" then old.queue else nd.queue
      let t : Task :=
        { id := old.id, version := old.version, claimant := claimantID, queue := old.queue
          value := val, attempt := nd.attempt, err := nd.err }
      let by_ ← arrivalBy nd.atMs nd.byMs protocol now what
      return t.change ((if newQueue ≠ old.queue then [queueTo newQueue] else []) ++
        [arrivalTimeBy by_] ++
        (if change.mode = .changeResetClaims then [resettingClaims] else []))

def docInsertArg (di : Pb.DocData V) : Except RequestError ModifyArg := do
  let val ← protoToJSON marshalJSON "doc insert content" di.content
  let by_ ← arrivalBy di.atMs di.byMs protocol now ⟨"insert into namespace %s", [.str di.ns]⟩
  return puttingDocInto di.ns [withIDKeys di.id di.key di.secondaryKey, withRawContent val,
    withDocArrivalTimeBy by_]

/-- Docs do not move between namespaces, and have no claim count to reset. -/
def docChangeArg (dc : Pb.DocChange V) : Except RequestError ModifyArg :=
  match dc.oldID, dc.newData with
  | none, _ => .error (invalidf "doc change names no doc" [])
  | some old, none => .error (invalidf "doc change in %q carries no data" [.str old.ns])
  | some old, some nd => do
    let what : Message := ⟨"doc change in %q", [.str old.ns]⟩
    changeMode dc.mode protocol what
    if dc.mode = .changeLease then docLease protocol now old nd
    else if dc.mode = .changeResetClaims then
      throw (.invalidRequest (about what ": a doc has no claim count to reset" []))
    else
      let id ← docByID old "doc change"
      if nd.ns ≠ "" ∧ nd.ns ≠ old.ns then
        throw (invalidf "doc change cannot move namespaces: %q -> %q" [.str old.ns, .str nd.ns])
      else
        let val ← protoToJSON marshalJSON "doc change content" nd.content
        let d : Doc :=
          { ns := old.ns, id, version := old.version, key := nd.key
            secondaryKey := nd.secondaryKey, content := val }
        let by_ ← arrivalBy nd.atMs nd.byMs protocol now ⟨"change of doc %s", [.str old.getID]⟩
        return d.change [withDocArrivalTimeBy by_]

def docDeleteArg (dd : Pb.DocID) : Except RequestError ModifyArg := do
  let id ← docByID dd "doc delete"
  return (newDocID dd.ns id dd.version).delete

def docDependArg (ddep : Pb.DocID) : Except RequestError ModifyArg := do
  let ref ← docDepend ddep protocol
  return ref.depend

/-- The arguments that make the modification a request asks for. -/
def modifyArgsFromProto (req : Pb.ModifyRequest V) : Except RequestError (List ModifyArg) := do
  let inserts ← req.inserts.mapM (insertArg marshalJSON protocol now)
  let changes ← req.changes.mapM (changeArg marshalJSON protocol now req.claimantID)
  let deletes := req.deletes.map fun del => (TaskID.mk del.id del.version del.queue).delete
  let depends := req.depends.map fun dep => (TaskID.mk dep.id dep.version dep.queue).depend
  let docInserts ← req.docInserts.mapM (docInsertArg marshalJSON protocol now)
  let docChanges ← req.docChanges.mapM (docChangeArg marshalJSON protocol now)
  let docDeletes ← req.docDeletes.mapM docDeleteArg
  let docDepends ← req.docDepends.mapM (docDependArg protocol)
  return [modifyAs req.claimantID] ++ inserts ++ changes ++ deletes ++ depends ++ docInserts ++
    docChanges ++ docDeletes ++ docDepends

end Args
end EntroQ.Pbconv
