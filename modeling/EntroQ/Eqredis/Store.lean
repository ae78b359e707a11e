import EntroQ.Docset.Sets
import EntroQ.Eqredis.Keys
import EntroQ.Foundation.Keyspace

/-! # What Redis holds

Tasks, docs and set locks are hashes. A queue is a sorted set of task IDs scored by arrival, a
namespace a sorted set of index entries, all scored alike and so ordered by their text. The names
of queues and namespaces are kept in two sets. Times are stored as milliseconds. -/

namespace EntroQ.Eqredis
open Foundation Docset

def millisecond : Duration := 1000000

def unixEpoch : Time := 62135596800 * second

def unixMilli (t : Time) : ℤ := (t - unixEpoch) / millisecond

def ofUnixMilli (ms : ℤ) : Time := ms * millisecond + unixEpoch

/-- A reading of the clock is before a stored time if its milliseconds are. -/
theorem lt_ofUnixMilli (t : Time) (ms : ℤ) : t < ofUnixMilli ms ↔ unixMilli t < ms := by
  rw [unixMilli, ofUnixMilli, Int.ediv_lt_iff_lt_mul (by decide)]
  exact Int.sub_lt_iff.symm

theorem unixMilli_ofUnixMilli (ms : ℤ) : unixMilli (ofUnixMilli ms) = ms := by
  rw [unixMilli, ofUnixMilli, add_sub_cancel_right]
  exact Int.mul_ediv_cancel ms (by decide)

structure TaskFields where
  id : String
  queue : String
  value : RawMessage := ""
  atMs : ℤ := 0
  created : ℤ := 0
  modified : ℤ := 0
  claimant : String := ""
  version : Int32 := 0
  claims : Int32 := 0
  attempt : Int32 := 0
  err : String := ""
  deriving DecidableEq

def TaskFields.toTask (f : TaskFields) : Task where
  id := f.id
  queue := f.queue
  atTime := ofUnixMilli f.atMs
  created := ofUnixMilli f.created
  modified := ofUnixMilli f.modified
  claimant := f.claimant
  value := f.value
  version := f.version
  claims := f.claims
  attempt := f.attempt
  err := f.err

/-- A stored doc. Its version and claim are its set's. -/
structure DocFields where
  ns : String
  id : String
  keyPrimary : String := ""
  keySecondary : String := ""
  content : RawMessage := ""
  created : ℤ := 0
  modified : ℤ := 0
  deriving DecidableEq

def DocFields.toDoc (f : DocFields) : Doc where
  ns := f.ns
  id := f.id
  key := f.keyPrimary
  secondaryKey := f.keySecondary
  content := f.content
  created := ofUnixMilli f.created
  modified := ofUnixMilli f.modified

structure LockFields where
  version : Int32
  claimant : String
  atMs : ℤ
  deriving DecidableEq

/-- A hash, by what it is written and parsed as. -/
inductive Hash
  | task (f : TaskFields)
  | doc (f : DocFields)
  | lock (f : LockFields)
  deriving DecidableEq

abbrev Redis := Keyspace String Hash String
abbrev Cmd := Command String Hash String

section Read
variable (db : Redis)

def taskHash (id : String) : Option TaskFields :=
  match db.hashes (taskKey id) with
  | some (.task f) => some f
  | _ => none

def docHash (key : String) : Option DocFields :=
  match db.hashes key with
  | some (.doc f) => some f
  | _ => none

def lockHash (g : SetName) : Option LockFields :=
  match db.hashes (lockKey g) with
  | some (.lock f) => some f
  | _ => none

/-- The members of a sorted set of equal scores, from the first text on, before the second. -/
def zrangeByLex (key : String) (range : String × String) : List String :=
  ((db.zsets key).keys.filter (fun m => range.1 ≤ m ∧ m < range.2)).sort (· ≤ ·)

def zlexcount (key : String) (range : String × String) : ℕ :=
  ((db.zsets key).keys.filter (fun m => range.1 ≤ m ∧ m < range.2)).card

def parseLock : Option LockFields → Lock
  | none => absent
  | some f =>
    { stored := true, version := f.version, claimant := f.claimant, atTime := ofUnixMilli f.atMs }

/-- A lock's doc count is counted from the index of its namespace. -/
def readLock (g : SetName) : Lock :=
  { parseLock (lockHash db g) with
    numDocs := zlexcount db (docNSIndexKey g.ns) (setMembersRange g.key) }

def readLocks (sets : List SetName) : FMap SetName Lock :=
  FMap.gather (fun g => some (readLock db g)) sets

def readOccupants (mod : Modification) : FMap String Doc :=
  let wants := mod.docInserts.flatMap fun ins =>
    (zrangeByLex db (docNSIndexKey ins.ns) (occupantRange ins.key ins.secondaryKey)).map
      fun m => (ins.ns, (parseDocIndexMember m).2.2)
  wants.foldl
    (fun found w => match docHash db (docKey w.1 w.2) with
      | some f => found.insert (occupantKey f.ns f.keyPrimary f.keySecondary) f.toDoc
      | none => found)
    ∅

def setMembers (g : SetName) : List Doc :=
  (zrangeByLex db (docNSIndexKey g.ns) (setMembersRange g.key)).filterMap fun m =>
    (docHash db (docKey g.ns (parseDocIndexMember m).2.2)).map DocFields.toDoc

end Read

def writeLock (g : SetName) (l : Lock) (now : Time) : List Cmd :=
  [.hset (lockKey g) (.lock { version := l.version, claimant := l.claimant,
                              atMs := unixMilli l.atTime }),
   .sadd (lockIndexKey g.ns) g.key, .sadd namespacesKey g.ns,
   if l.held now then .zadd (heldGroupsKey g.ns) g.key (unixMilli l.atTime)
   else .zrem (heldGroupsKey g.ns) g.key]

/-! ## Listing docs

A listing by key scans the index of the namespace between two texts; the entries found name the
docs that are read, with the locks of their sets. The index, the docs and the locks are read at
one state here. -/

/-- The texts between which the index is scanned, from the first on and before the second. -/
def docsBounds (rq : DocQuery) : Option String × Option String :=
  if rq.keyExact ≠ "" then
    (some (rq.keyExact ++ docIndexSep), some (rq.keyExact ++ "\x01"))
  else
    (if rq.keyStart ≠ "" then some rq.keyStart else none,
     if rq.keyEnd ≠ "" then some rq.keyEnd else none)

/-- A bound that is not given does not exclude anything. -/
def inBounds (bounds : Option String × Option String) (m : String) : Bool :=
  bounds.1.all (fun b => decide (b ≤ m)) && bounds.2.all fun b => decide (m < b)

section Docs
variable (db : Redis)

def zrangeArgs (key : String) (bounds : Option String × Option String) : List String :=
  ((db.zsets key).keys.filter fun m => inBounds bounds m = true).sort (· ≤ ·)

/-- A doc with its set's version and claim, if it is there. -/
def readDocWithLock (rq : DocQuery) (id : String) : Option Doc :=
  (docHash db (docKey rq.ns id)).map fun f =>
    let d := overlay f.toDoc (parseLock (lockHash db ⟨f.ns, f.keyPrimary⟩))
    if rq.omitValues then { d with content := "" } else d

def docs (rq : DocQuery) : Except InvalidArgument (List Doc) :=
  match Validate.docQuery rq with
  | some e => .error e
  | none =>
    if rq.ids ≠ [] then .ok (rq.ids.filterMap (readDocWithLock db rq))
    else
      let members := zrangeArgs db (docNSIndexKey rq.ns) (docsBounds rq)
      let kept := if 0 < rq.limit then members.take rq.limit.toNat else members
      .ok ((kept.map fun m => (parseDocIndexMember m).2.2).filterMap (readDocWithLock db rq))

end Docs

end EntroQ.Eqredis
