import EntroQ.Eqmem.Claim

/-! # Journal replay and snapshots

`playJournalEntry` applies one record to a store being loaded, `finishDocReplay` completes the
locks once all have been applied. A snapshot is one entry for each task, doc and lock. -/

namespace EntroQ.Eqmem
open Foundation Docset

/-! ## Replay -/

def restoreLock (s : EQMem) (jl : JournalLock) : EQMem :=
  let locked := s.lockNamespaces [jl.ns]
  match locked.namespaces.lookup jl.ns with
  | none => s
  | some n =>
    let n' := if jl.deleted then n.deleteLock jl.key else n.setLock jl.key jl.lock
    EQMem.unlockNamespaces { locked with namespaces := locked.namespaces.insert jl.ns n' } [jl.ns]

def restoreLocks (s : EQMem) (jls : List JournalLock) : EQMem := jls.foldl restoreLock s

def JournalEntry.replayed (e : JournalEntry) : Modification :=
  { e.mod with
    changes := e.mod.changes.map (fun c =>
      { c with task := { c.task with version := c.task.version - 1 } })
    docChanges := e.mod.docChanges.map (fun c =>
      { c with doc := { c.doc with version := c.doc.version - 1 } }) }

def playJournalEntry (s : EQMem) (e : JournalEntry) (now : Time) : Except Fault EQMem :=
  match modifyImpl s e.replayed now true with
  | (s', .ok _) => .ok (restoreLocks s' e.docLocks)
  | (_, .error f) => .error f

/-- The journal in append order, each entry with the clock reading of its replay. -/
def playJournal (s : EQMem) : List (JournalEntry × Time) → Except Fault EQMem
  | [] => .ok s
  | (e, now) :: rest =>
    match playJournalEntry s e now with
    | .ok s' => playJournal s' rest
    | .error f => .error f

def DocNamespace.docList (n : DocNamespace) : List Doc :=
  (n.byID.keys.sort (· ≤ ·)).filterMap n.byID.lookup

def highestVersion : List Doc → Int32
  | [] => 0
  | d :: ds => ds.foldl (fun v d => if v < d.version then d.version else v) d.version

/-- The set's lock with its doc count, past its highest member if it had none. -/
def finishedLock (n : DocNamespace) (key : String) : Lock :=
  let docs := n.docList.filter (fun d => d.key == key)
  let l := if n.lock key = absent then { stored := true, version := highestVersion docs + 1 }
    else n.lock key
  { l with numDocs := docs.length }

def finishNamespace (n : DocNamespace) : DocNamespace :=
  (n.docList.map Doc.key).dedup.foldl (fun n key => n.setLock key (finishedLock n key)) n

def finishDocReplay (s : EQMem) : EQMem :=
  { s with namespaces := FMap.map finishNamespace s.namespaces }

/-! ## Snapshots -/

end EntroQ.Eqmem
