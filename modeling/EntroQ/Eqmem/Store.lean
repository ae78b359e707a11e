import EntroQ.Eqmem.DocNamespace
import EntroQ.Eqmem.QueueStore
import EntroQ.Foundation.Registry

/-! # The store

`queues` is both the queue registry and its locks, which the source keeps in step. A critical
section is one step here, so locking a queue or a namespace comes down to making its entry, and
unlocking to dropping an entry left with nothing in it. The order of locking has no effect. -/

namespace EntroQ.Eqmem
open Foundation Docset

structure EQMem where
  queues : FMap String QLock := ∅
  namespaces : FMap String DocNamespace := ∅
  qByID : FMap String String := ∅

def DocNamespace.idle (n : DocNamespace) : Bool := decide (n.len = 0)

namespace EQMem
variable (s : EQMem)

def lockQueues (qs : List String) : EQMem :=
  { s with queues := Registry.acquire newQLock qs s.queues }

def unlockQueues (qs : List String) : EQMem :=
  { s with queues := Registry.release QLock.idle qs s.queues }

def lockNamespaces (ns : List String) : EQMem :=
  { s with namespaces := Registry.acquire newDocNamespace ns s.namespaces }

def unlockNamespaces (ns : List String) : EQMem :=
  { s with namespaces := Registry.release DocNamespace.idle ns s.namespaces }

/-! ## What is stored -/

def stored (q id : String) : Option Task := (s.queues.lookup q).bind (fun ql => ql.task id)

def doc? (ns id : String) : Option Doc := (s.namespaces.lookup ns).bind (fun n => n.byID.lookup id)

def lock? (g : SetName) : Option Lock := (s.namespaces.lookup g.ns).bind (fun n => n.lock? g.key)

def lockOf (g : SetName) : Lock :=
  match s.namespaces.lookup g.ns with
  | some n => n.lock g.key
  | none => absent

def members (g : SetName) : List Doc :=
  match s.namespaces.lookup g.ns with
  | some n => n.members g.key
  | none => []

def occupant (g : SetName) (secondary : String) : Option Doc :=
  (s.namespaces.lookup g.ns).bind (fun n => n.occupant g.key secondary)

end EQMem

/-! ## Writes under the locks -/

/-- A write to the queue stores. -/
inductive TaskOp
  | delete (q id : String)
  | insert (t : Task)
  | update (t : Task)

namespace TaskOp

/-- The write under the locks of `locked`, or `none` where it panics. -/
def run (locked : List String) (queues : FMap String QLock) : TaskOp → Option (FMap String QLock)
  | .delete q id => Registry.modify locked q (fun ql => some (ql.deleteID id)) queues
  | .insert t => Registry.modify locked t.queue (fun ql => some (ql.insertTask t)) queues
  | .update t => Registry.modify locked t.queue (fun ql => ql.updateTask t) queues

/-- The step left for the global lock. -/
def finish (qByID : FMap String String) : TaskOp → FMap String String
  | .delete _ id => qByID.erase id
  | .insert t => qByID.insert t.id t.queue
  | .update _ => qByID

end TaskOp

inductive DocWrite
  | delete (ns id : String)
  | set (d : Doc)

def DocWrite.run (locked : List String) (namespaces : FMap String DocNamespace) :
    DocWrite → Option (FMap String DocNamespace)
  | .delete ns id => Registry.modify locked ns (fun n => some (n.delete id)) namespaces
  | .set d => Registry.modify locked d.ns (fun n => some (n.set d.id d)) namespaces

def writeLock (locked : List String) (namespaces : FMap String DocNamespace)
    (gl : SetName × Lock) : Option (FMap String DocNamespace) :=
  Registry.modify locked gl.1.ns (fun n => some (n.setLock gl.1.key gl.2)) namespaces

/-- Every write is made in place, and the index follows under the global lock once all are made. One
that panics leaves what the ones before it wrote. -/
def EQMem.write (s : EQMem) (queues namespaces : List String) (ops : List TaskOp)
    (docs : List DocWrite) (locks : List (SetName × Lock)) : EQMem × Bool :=
  match Registry.writeAll (TaskOp.run queues) s.queues ops with
  | (qs, false) => ({ s with queues := qs }, false)
  | (qs, true) =>
    match Registry.writeAll (DocWrite.run namespaces) s.namespaces docs with
    | (ns, false) => ({ s with queues := qs, namespaces := ns }, false)
    | (ns, true) =>
      match Registry.writeAll (writeLock namespaces) ns locks with
      | (ns, false) => ({ s with queues := qs, namespaces := ns }, false)
      | (ns, true) =>
        ({ queues := qs, namespaces := ns, qByID := ops.foldl TaskOp.finish s.qByID }, true)

end EntroQ.Eqmem
