import EntroQ.Docset.Evaluate
import EntroQ.Eqmem.Store

/-! # Modify

`modPrep` reads the index under the global lock. `modApply` is everything after it: lock what
was prepared, find the records the operations name, check them, write, and journal the outcome.
`modifyImpl` is both with nothing in between. -/

namespace EntroQ.Eqmem
open Foundation Docset

/-- A doc set's lock as journaled or snapshotted. -/
structure JournalLock where
  ns : String
  key : String
  version : Int32
  claimant : String := ""
  atTime : Time
  deleted : Bool := false
  deriving DecidableEq

def JournalLock.lock (l : JournalLock) : Lock :=
  { stored := true, version := l.version, claimant := l.claimant, atTime := l.atTime }

def newJournalLock (g : SetName) (l : Lock) : JournalLock :=
  { ns := g.ns, key := g.key, version := l.version, claimant := l.claimant, atTime := l.atTime }

/-- One journal record: a committed modification and the locks it leaves. -/
structure JournalEntry where
  mod : Modification := {}
  docLocks : List JournalLock := []
  deriving DecidableEq

def journalLockLE (a b : JournalLock) : Bool :=
  decide (a.ns < b.ns) || (a.ns == b.ns && decide (a.key ≤ b.key))

/-- The locks in a stable order. -/
def journalLocksOf (locks : List (SetName × Lock)) : List JournalLock :=
  (locks.map (fun gl => newJournalLock gl.1 gl.2)).insertionSort (fun a b => journalLockLE a b)

/-- Why a call did not return a result. -/
inductive Fault
  | panic (text : String)
  | missingID (text : String)
  | invalid (e : InvalidArgument)
  | dependency (e : DependencyError)
  deriving DecidableEq

/-- What `modPrep` returns, and the modification as it leaves it. -/
structure Prepared where
  mod : Modification
  queues : List String
  namespaces : List String
  misplaced : FMap String String
  queueDeps : Option DependencyError

section Prep
variable (qByID : FMap String String) (mod : Modification)

/-- The queue the index gives, or the empty one. -/
def queueOf (id : String) : String := (qByID.lookup id).getD ""

/-- Give the queues that older journals left out. -/
def backfill : Modification :=
  { mod with
    changes := mod.changes.map (fun c =>
      if c.task.fromQueue = "" then
        { c with task := { c.task with fromQueue := queueOf qByID c.task.id } }
      else c)
    deletes := mod.deletes.map (fun d =>
      if d.queue = "" then { d with queue := queueOf qByID d.id } else d)
    depends := mod.depends.map (fun d =>
      if d.queue = "" then { d with queue := queueOf qByID d.id } else d) }

/-- Every operation must name the queue the task is in. -/
def ensureModQueues : Option DependencyError :=
  let wrong (d : TaskID) : Bool := d.queue == "" || d.queue != queueOf qByID d.id
  DependencyError.reported
    { deletes := mod.deletes.filter wrong
      depends := mod.depends.filter wrong
      changes := (mod.changes.map
        (fun c => (⟨c.task.id, c.task.version, c.task.fromQueue⟩ : TaskID))).filter wrong
      message := { format := "modification queue does not match the task's current queue" } }

def misplacedQueue (ins : TaskData) : Option String :=
  if ins.id = "" then none else (qByID.lookup ins.id).filter (fun q => q != ins.queue)

def prepQueues : List String :=
  let named :=
    mod.inserts.flatMap (fun ins => (misplacedQueue qByID ins).toList ++ [ins.queue]) ++
    mod.changes.flatMap (fun c => [c.task.fromQueue, c.task.queue]) ++
    mod.deletes.map TaskID.queue ++ mod.depends.map TaskID.queue ++
    mod.arrives.map (fun a => a.taskID.queue)
  (named.filter (· ≠ "")).dedup

def prepNamespaces : List String :=
  let named :=
    mod.docInserts.map DocData.ns ++ mod.docChanges.map (fun c => c.doc.ns) ++
    mod.docDeletes.map DocID.ns ++ mod.docDepends.map DocID.ns ++
    mod.docArrives.map (fun a => a.docID.ns)
  (named.filter (· ≠ "")).dedup

def misplacedInsIDs : FMap String String :=
  mod.inserts.foldl
    (fun m ins => match misplacedQueue qByID ins with
      | some q => m.insert ins.id q
      | none => m)
    ∅

end Prep

def modPrep (s : EQMem) (mod : Modification) (replay : Bool) : Prepared :=
  let mod := if replay then backfill s.qByID mod else mod
  { mod
    queues := prepQueues s.qByID mod
    namespaces := prepNamespaces mod
    misplaced := misplacedInsIDs s.qByID mod
    queueDeps := ensureModQueues s.qByID mod }

/-- The writer holds a task that is not yet available; no one holds an available one. -/
def holder (claimant : String) (at_ now : Time) : String := if now < at_ then claimant else ""

namespace Prepared
variable (p : Prepared)

/-- There is nothing to lock and no failure to report. -/
def shortCircuits : Bool :=
  p.queueDeps.isNone && p.queues.isEmpty && p.namespaces.isEmpty && p.mod.deletes.isEmpty &&
    p.mod.depends.isEmpty

/-- Where the operations look for tasks, in order. -/
def taskRefs : List (String × String) :=
  p.mod.deletes.map (fun d => (d.queue, d.id)) ++ p.mod.depends.map (fun d => (d.queue, d.id)) ++
    p.mod.changes.map (fun c => (c.task.fromQueue, c.task.id)) ++
    p.mod.arrives.map (fun a => (a.taskID.queue, a.taskID.id)) ++
    p.mod.inserts.flatMap (fun t =>
      (t.queue, t.id) :: ((p.misplaced.lookup t.id).map (fun q => (q, t.id))).toList)

def docRefs : List (String × String) :=
  p.mod.docDeletes.map (fun d => (d.ns, d.id)) ++ p.mod.docDepends.map (fun d => (d.ns, d.id)) ++
    p.mod.docChanges.map (fun c => (c.doc.ns, c.doc.id)) ++
    p.mod.docInserts.map (fun d => (d.ns, d.id))

def addFound (s : EQMem) (found : FMap String Task) (r : String × String) : FMap String Task :=
  if r.1 = "" ∨ r.2 = "" ∨ r.1 ∉ p.queues then found
  else match s.stored r.1 r.2 with
    | some t => found.insert t.id t
    | none => found

def found (s : EQMem) : FMap String Task := p.taskRefs.foldl (p.addFound s) ∅

def addFoundDoc (s : EQMem) (found : FMap String Doc) (r : String × String) : FMap String Doc :=
  if r.1 = "" ∨ r.2 = "" ∨ r.1 ∉ p.namespaces then found
  else match s.doc? r.1 r.2 with
    | some d => found.insert (docKey r.1 d.id) d
    | none => found

def foundDocs (s : EQMem) : FMap String Doc := p.docRefs.foldl (p.addFoundDoc s) ∅

/-- The sets whose locks are read by name, whatever is stored. -/
def namedSets : List SetName :=
  p.mod.docInserts.map (fun d => ⟨d.ns, d.key⟩) ++
    (p.mod.docDepends.filter DocID.isSetRef).map (fun d => ⟨d.ns, d.key⟩) ++
    p.mod.docArrives.map (fun a => ⟨a.docID.ns, a.docID.key⟩)

def changed (s : EQMem) : Modification := arrivalChanges p.mod (p.found s)

/-- What the docs' rules say. Replay applies recorded doc state without checking it. -/
def docPlan (s : EQMem) (now : Time) (replay : Bool) : Plan :=
  if replay then {}
  else evaluate (p.changed s) now (fun ns id => (p.foundDocs s).lookup (docKey ns id)) s.occupant
    s.lockOf

def taskMod (s : EQMem) : Modification :=
  { p.changed s with docInserts := [], docChanges := [], docDeletes := [], docDepends := [] }

/-- What fails of what was found. -/
def foundDeps (s : EQMem) (now : Time) (replay : Bool) : Option DependencyError :=
  let taskDeps := (p.taskMod s).dependencyError (p.found s) ∅ now
  match (p.docPlan s now replay).err with
  | some e => DependencyError.merge taskDeps (some e)
  | none => taskDeps

/-- The failures of all checks together. -/
def depErr (s : EQMem) (now : Time) (replay : Bool) : Option DependencyError :=
  if p.queueDeps.isSome || (p.foundDeps s now replay).isSome then
    DependencyError.merge p.queueDeps (p.foundDeps s now replay)
  else none

section Writes
variable (s : EQMem) (now : Time) (replay : Bool)

def changedTask (c : TaskChange) : Task :=
  let t := { c.task with version := c.task.version + 1 }
  if replay then { t with modified := if t.modified = 0 then now else t.modified }
  else
    let old := ((p.found s).lookup c.task.id).getD c.task
    let at_ := normalizeArrival (now + c.byDur) now
    { t with
      claims := if p.mod.resetsClaims c.task.id then 0 else old.claims
      created := old.created
      atTime := at_
      claimant := holder p.mod.claimant at_ now
      modified := now }

def insertedTask (td : TaskData) : Task :=
  let at_ := if replay then td.atTime else normalizeArrival (now + td.byDur) now
  { id := td.id, queue := td.queue, atTime := at_, value := td.value
    claimant := holder p.mod.claimant at_ now
    created := if td.created = 0 then now else td.created
    modified := if td.modified = 0 then now else td.modified
    attempt := td.attempt, err := td.err }

/-- A change that moves the task deletes it from one queue and inserts it in the other. -/
def changeOps (c : TaskChange) : List TaskOp :=
  if c.task.fromQueue ≠ c.task.queue then
    [.delete c.task.fromQueue c.task.id, .insert (p.changedTask s now replay c)]
  else [.update (p.changedTask s now replay c)]

def taskOps : List TaskOp :=
  p.mod.deletes.map (fun d => .delete d.queue d.id) ++
    (p.changed s).changes.flatMap (p.changeOps s now replay) ++
    p.mod.inserts.map (fun td => .insert (p.insertedTask now replay td))

/-- Each written member carries its set's new lock. -/
def withLock (d : Doc) : Doc :=
  if replay then d
  else overlay d (((p.docPlan s now replay).locks.lookup ⟨d.ns, d.key⟩).getD
    (s.lockOf ⟨d.ns, d.key⟩))

def changedDoc (c : DocChange) : Doc :=
  let d := match (p.foundDocs s).lookup (docKey c.doc.ns c.doc.id) with
    | some old =>
      { c.doc with key := old.key, secondaryKey := old.secondaryKey, created := old.created }
    | none => c.doc
  p.withLock s now replay
    { d with
      version := if replay then d.version + 1 else d.version
      modified := if !replay || d.modified = 0 then now else d.modified }

def insertedDoc (rd : DocData) : Doc :=
  p.withLock s now replay
    { ns := rd.ns, id := rd.id, atTime := rd.atTime, content := rd.content, key := rd.key
      secondaryKey := rd.secondaryKey
      created := if rd.created = 0 then now else rd.created
      modified := if rd.modified = 0 then now else rd.modified }

def docWrites : List DocWrite :=
  p.mod.docDeletes.map (fun d => .delete d.ns d.id) ++
    p.mod.docChanges.map (fun c => .set (p.changedDoc s now replay c)) ++
    p.mod.docInserts.map (fun d => .set (p.insertedDoc s now replay d))

def lockWrites : List (SetName × Lock) :=
  (p.docPlan s now replay).locks.entries.map (fun gl => (gl.1, gl.2))

def response : ModifyResponse where
  insertedTasks := p.mod.inserts.map (p.insertedTask now replay)
  changedTasks := (p.changed s).changes.map (p.changedTask s now replay)
  insertedDocs := p.mod.docInserts.map (p.insertedDoc s now replay)
  changedDocs := p.mod.docChanges.map (p.changedDoc s now replay)
  changedSets := (p.docPlan s now replay).arrived

def journalEntry : JournalEntry where
  mod :=
    { claimant := p.mod.claimant
      deletes := p.mod.deletes
      depends := p.mod.depends
      changes := (p.response s now replay).changedTasks.map (fun t => { task := t })
      inserts := (p.response s now replay).insertedTasks.map Task.data
      docDeletes := p.mod.docDeletes
      docDepends := p.mod.docDepends
      docChanges := (p.response s now replay).changedDocs.map (fun d => { doc := d })
      docInserts := (p.response s now replay).insertedDocs.map Doc.data }
  docLocks := journalLocksOf (p.lockWrites s now replay)

end Writes
end Prepared

/-- A successful modification: its response, and what is journaled, if anything. -/
structure Modified where
  resp : ModifyResponse := {}
  entry : Option JournalEntry := none
  deriving DecidableEq

/-- Under the locks: check everything, then write everything. -/
def modLocked (s : EQMem) (p : Prepared) (now : Time) (replay : Bool) :
    EQMem × Except Fault Modified :=
  if !replay && p.namedSets.any (fun g => g.ns ∉ p.namespaces) then
    (s, .error (.panic "invalid memory address or nil pointer dereference"))
  else
    match (p.depErr s now replay).filter (fun e => !replay || !e.onlyClaims) with
    | some e => (s, .error (.dependency e))
    | none =>
      match s.write p.queues p.namespaces (p.taskOps s now replay) (p.docWrites s now replay)
          (p.lockWrites s now replay) with
      | (s', true) =>
        (s', .ok { resp := p.response s now replay
                   entry := some (p.journalEntry s now replay) })
      | (s', false) => (s', .error (.panic "Inconsistent state"))

def EQMem.locked (s : EQMem) (p : Prepared) : EQMem :=
  (s.lockQueues p.queues).lockNamespaces p.namespaces

/-- The state after the call, which has its locks released also where it panics, and its result. -/
def modApply (s : EQMem) (p : Prepared) (now : Time) (replay : Bool) :
    EQMem × Except Fault Modified :=
  if p.shortCircuits then (s, .ok {})
  else
    let r := modLocked (s.locked p) p now replay
    ((r.1.unlockNamespaces p.namespaces).unlockQueues p.queues, r.2)

def missingInsertID (mod : Modification) : Option Fault :=
  if mod.inserts.any (fun t => t.id == "") then
    some (.missingID "eqmem modify: task to insert is missing ID")
  else if mod.docInserts.any (fun d => d.id == "") then
    some (.missingID "eqmem modify: resource to insert is missing ID")
  else none

def modifyImpl (s : EQMem) (mod : Modification) (now : Time) (replay : Bool) :
    EQMem × Except Fault Modified :=
  match missingInsertID mod with
  | some e => (s, .error e)
  | none => modApply s (modPrep s mod replay) now replay

def modify (s : EQMem) (mod : Modification) (now : Time) : EQMem × Except Fault Modified :=
  match Validate.modification mod with
  | some e => (s, .error (.invalid e))
  | none => modifyImpl s mod now false

end EntroQ.Eqmem
