import Mathlib

/-! # Tasks, docs and modifications

The records a client hands to a backend and gets back. Times are nanoseconds after Go's zero
time, so `IsZero` is `= 0`, `After` is `>` and `Add` is `+`. Versions, claim counts and attempts
are the source's 32-bit integers, which wrap. JSON payloads are opaque text.

The unexported `by` of a changed task or doc is an instruction to the backend and never part of
what is stored or read back, so a change here is the stored shape together with its `by`. -/

namespace EntroQ

abbrev Time := ℤ
abbrev Duration := ℤ
abbrev RawMessage := String

def second : Duration := 1000000000
def hour : Duration := 3600 * second

/-- The longest any claim may hold a task or doc set. -/
def maxClaimDuration : Duration := 30 * 24 * hour
def defaultClaimDuration : Duration := 45 * second
def arrivalPastWindow : Duration := 365 * 24 * hour

/-- An arrival too far back is an omitted one and becomes now. -/
def normalizeArrival (at_ now : Time) : Time := if at_ < now - arrivalPastWindow then now else at_

structure TaskID where
  id : String
  version : Int32
  queue : String := ""
  deriving DecidableEq

structure Task where
  queue : String
  id : String
  version : Int32 := 0
  atTime : Time := 0
  claimant : String := ""
  claims : Int32 := 0
  value : RawMessage := ""
  created : Time := 0
  modified : Time := 0
  fromQueue : String := ""
  attempt : Int32 := 0
  err : String := ""
  deriving DecidableEq

def Task.idVersion (t : Task) : TaskID := ⟨t.id, t.version, t.queue⟩

/-- A task to insert. `atTime`, `created` and `modified` are set only when a journal is read. -/
structure TaskData where
  queue : String
  id : String
  byDur : Duration := 0
  value : RawMessage := ""
  attempt : Int32 := 0
  err : String := ""
  atTime : Time := 0
  created : Time := 0
  modified : Time := 0
  deriving DecidableEq

def Task.data (t : Task) : TaskData where
  queue := t.queue
  id := t.id
  value := t.value
  attempt := t.attempt
  err := t.err
  atTime := t.atTime
  created := t.created
  modified := t.modified

/-- A task as `Task.Change` builds it, with the arrival it asks for. -/
structure TaskChange where
  task : Task
  byDur : Duration := 0
  deriving DecidableEq

def TaskChange.origin (c : TaskChange) : TaskID := ⟨c.task.id, c.task.version, c.task.fromQueue⟩

structure TaskArrival where
  taskID : TaskID
  byDur : Duration := 0
  deriving DecidableEq

def TaskArrival.change (a : TaskArrival) (stored : Option Task) : TaskChange :=
  let c : Task := stored.getD { queue := "", id := a.taskID.id }
  { task := { c with version := a.taskID.version, queue := a.taskID.queue,
                     fromQueue := a.taskID.queue, atTime := 0 }
    byDur := a.byDur }

structure DocID where
  ns : String
  id : String := ""
  key : String := ""
  version : Int32 := 0
  deriving DecidableEq

def newDocID (ns id : String) (version : Int32) : DocID := { ns, id, version }
def newDocSetRef (ns key : String) (version : Int32) : DocID := { ns, key, version }

def DocID.isSetRef (r : DocID) : Bool := r.id == "" && r.key != ""

structure Doc where
  ns : String
  id : String
  version : Int32 := 0
  claimant : String := ""
  atTime : Time := 0
  key : String := ""
  secondaryKey : String := ""
  content : RawMessage := ""
  created : Time := 0
  modified : Time := 0
  deriving DecidableEq

structure DocData where
  ns : String
  id : String
  byDur : Duration := 0
  atTime : Time := 0
  key : String := ""
  secondaryKey : String := ""
  content : RawMessage := ""
  created : Time := 0
  modified : Time := 0
  deriving DecidableEq

def Doc.data (d : Doc) : DocData where
  ns := d.ns
  id := d.id
  atTime := d.atTime
  key := d.key
  secondaryKey := d.secondaryKey
  content := d.content
  created := d.created
  modified := d.modified

structure DocChange where
  doc : Doc
  byDur : Duration := 0
  deriving DecidableEq

structure DocArrival where
  docID : DocID
  byDur : Duration := 0
  deriving DecidableEq

/-- A doc set as a claim or an arrival returns it. -/
structure DocSet where
  ns : String
  key : String
  version : Int32 := 0
  claimant : String := ""
  atTime : Time := 0
  numDocs : ℤ := 0
  docs : List Doc := []
  deriving DecidableEq

/-- One batch of operations, made all together or not at all. -/
structure Modification where
  claimant : String := ""
  inserts : List TaskData := []
  changes : List TaskChange := []
  deletes : List TaskID := []
  depends : List TaskID := []
  arrives : List TaskArrival := []
  docInserts : List DocData := []
  docChanges : List DocChange := []
  docDeletes : List DocID := []
  docDepends : List DocID := []
  docArrives : List DocArrival := []
  resetClaims : List String := []
  deriving DecidableEq

def Modification.resetsClaims (m : Modification) (id : String) : Bool := m.resetClaims.contains id

def Modification.isEmpty (m : Modification) : Bool :=
  m.inserts.isEmpty && m.changes.isEmpty && m.deletes.isEmpty && m.depends.isEmpty &&
    m.arrives.isEmpty && m.docInserts.isEmpty && m.docChanges.isEmpty && m.docDeletes.isEmpty &&
    m.docDepends.isEmpty && m.docArrives.isEmpty

structure ModifyResponse where
  insertedTasks : List Task := []
  changedTasks : List Task := []
  insertedDocs : List Doc := []
  changedDocs : List Doc := []
  changedSets : List DocSet := []
  deriving DecidableEq

structure ClaimQuery where
  queues : List String
  claimant : String
  duration : Duration
  deriving DecidableEq

structure DocSetClaim where
  ns : String
  key : String
  omitMembers : Bool := false
  deriving DecidableEq

structure DocClaim where
  sets : List DocSetClaim
  claimant : String
  duration : Duration := 0
  taskToMatch : Option TaskID := none
  leases : ℕ := 0
  deriving DecidableEq

structure TasksQuery where
  queue : String := ""
  claimant : String := ""
  limit : ℤ := 0
  ids : List String := []
  omitValues : Bool := false

structure DocQuery where
  ns : String
  ids : List String := []
  keyExact : String := ""
  keyStart : String := ""
  keyEnd : String := ""
  limit : ℤ := 0
  omitValues : Bool := false

/-- An argument of a formatted message. -/
inductive MessageArg
  | str (s : String)
  | num (n : ℤ)
  | duration (d : Duration)
  | time (t : Time)
  | docID (r : DocID)
  | taskID (r : TaskID)
  deriving DecidableEq

/-- An error text, as the format and the arguments it is printed from. -/
structure Message where
  format : String := ""
  args : List MessageArg := []
  deriving DecidableEq

end EntroQ
