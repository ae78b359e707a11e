import EntroQ.Eqmem.Modify

/-! # Claims, listings and lock collection

The other calls of the backend. A call that searches at random takes its draws, and one that
visits a map takes the order of the visit; the clock readings of a call are arguments too. -/

namespace EntroQ.Eqmem
open Foundation Docset

/-! ## Task claims -/

def claimedTask (claimant : String) (newAt now : Time) (t : Task) : Task :=
  { t with atTime := newAt, claimant, version := t.version + 1, claims := t.claims + 1,
           modified := now }

/-- Claim the task of a heap item, or `none` where the task store does not have it. -/
def QLock.claimItem (ql : QLock) (p : ℕ) (claimant : String) (newAt now : Time) :
    Option (QLock × Task) := do
  let id := (ql.heap.cell p).id
  let t ← ql.task id
  let tasks ← ql.tasks.update id (claimedTask claimant newAt now)
  return ({ ql with heap := ql.heap.updateItem p newAt, tasks }, claimedTask claimant newAt now t)

/-- A claim is journaled as the change it made, which does not move the task. -/
def claimEntry (claimant : String) (t : Task) : JournalEntry :=
  { mod := { claimant, changes := [{ task := { t with fromQueue := t.queue } }] } }

structure Claimed where
  task : Task
  entry : JournalEntry
  deriving DecidableEq

def queueLen (s : EQMem) (q : String) : ℤ :=
  match s.queues.lookup q with
  | some ql => ql.tasks.len
  | none => 0

def mustTryClaimOne (s : EQMem) (q : String) (cq : ClaimQuery) (now : Time) (draws : ℕ → ℕ) :
    EQMem × Except Fault (Option Claimed) :=
  if queueLen s q = 0 then (s, .ok none)
  else
    let locked := s.lockQueues [q]
    match locked.queues.lookup q with
    | none => (s, .error (.panic "invalid memory address or nil pointer dereference"))
    | some ql =>
      match ql.heap.randomAvailable now draws with
      | none => (locked.unlockQueues [q], .ok none)
      | some p =>
        match ql.claimItem p cq.claimant (now + cq.duration) now with
        | none => (locked, .error (.panic "Inconsistent internal state"))
        | some (ql', t) =>
          (EQMem.unlockQueues { locked with queues := locked.queues.insert q ql' } [q],
            .ok (some ⟨t, claimEntry cq.claimant t⟩))

/-- One visit of a queue by `TryClaim`: when, and with which draws. -/
structure Attempt where
  q : String
  now : Time
  draws : ℕ → ℕ

def tryQueues (cq : ClaimQuery) (s : EQMem) : List Attempt → EQMem × Except Fault (Option Claimed)
  | [] => (s, .ok none)
  | a :: rest =>
    match mustTryClaimOne s a.q cq a.now a.draws with
    | (s', .ok none) => tryQueues cq s' rest
    | r => r

/-- `attempts` visits the queues of the query in the order they were shuffled to. -/
def tryClaim (s : EQMem) (cq : ClaimQuery) (attempts : List Attempt) :
    EQMem × Except Fault (Option Claimed) :=
  match Validate.claim cq with
  | some e => (s, .error (.invalid e))
  | none => tryQueues cq s attempts

/-! ## Doc set claims -/

structure DocsClaimed where
  sets : List DocSet
  entry : JournalEntry
  deriving DecidableEq

def claimUntil (s : EQMem) (cq : DocClaim) (now : Time) : Except Fault Time :=
  match cq.taskToMatch with
  | none => .ok (now + cq.duration)
  | some r =>
    match (s.stored r.queue r.id).filter (fun t => t.version == r.version) with
    | some t => .ok t.atTime
    | none => .error (.dependency (missingTaskError r "eqmem claim docs" []))

def claimNamespaces (cq : DocClaim) : List String := ((setsOf cq).map SetName.ns).dedup

def claimDocs (s : EQMem) (cq : DocClaim) (now : Time) : EQMem × Except Fault DocsClaimed :=
  match Validate.docClaim cq with
  | some e => (s, .error (.invalid e))
  | none =>
    match claimUntil s cq now with
    | .error e => (s, .error e)
    | .ok until_ =>
      let names := claimNamespaces cq
      let locked := s.lockNamespaces names
      match claimAll cq now until_ locked.lockOf locked.members with
      | .error (.dependency e) => (locked.unlockNamespaces names, .error (.dependency e))
      | .error (.invalid e) => (locked.unlockNamespaces names, .error (.invalid e))
      | .ok claimed =>
        let written := (setsOf cq).zip claimed
        match written.foldlM (writeLock names) locked.namespaces with
        | none => (locked, .error (.panic "invalid memory address or nil pointer dereference"))
        | some ns =>
          let s' := { locked with namespaces := ns }
          (s'.unlockNamespaces names,
            .ok { sets := claimedSets cq s'.members claimed
                  entry := { docLocks := journalLocksOf written } })

/-! ## Lock collection -/

/-- The locks of empty sets that no one holds, at most `room` of them. -/
def idleLocks (n : DocNamespace) (now : Time) (room : ℕ) : List LockEntry :=
  (n.locks.toList.filter (fun e => !e.lock.held now && (n.members e.key).isEmpty)).take room

def collectNamespace (s : EQMem) (name : String) (now : Time) (batch : ℕ)
    (collected : List (SetName × Lock)) : EQMem × List (SetName × Lock) :=
  if batch ≤ collected.length then (s, collected)
  else
    let locked := s.lockNamespaces [name]
    match locked.namespaces.lookup name with
    | none => (s, collected)
    | some n =>
      let empty := idleLocks n now (batch - collected.length)
      let n' := empty.foldl (fun n e => n.deleteLock e.key) n
      (EQMem.unlockNamespaces { locked with namespaces := locked.namespaces.insert name n' } [name],
        collected ++ empty.map (fun e => (⟨name, e.key⟩, e.lock)))

/-- The record of a collection, if it collected anything. -/
def collectEntry (collected : List (SetName × Lock)) : Option JournalEntry :=
  if collected.isEmpty then none
  else some { docLocks := (journalLocksOf collected).map (fun l => { l with deleted := true }) }

/-- `names` are the namespaces visited: all there were, in some order, or those before the
context ended. -/
def collectLocksOnce (s : EQMem) (names : List String) (now : Time) (batch : ℕ) :
    EQMem × Option JournalEntry :=
  let r := names.foldl (fun r name => collectNamespace r.1 name now batch r.2) (s, [])
  (r.1, collectEntry r.2)

/-! ## Listings -/

def docsResult (rq : DocQuery) (d : Doc) (l : Lock) : Doc :=
  let res := overlay d l
  if rq.omitValues then { res with content := "" } else res

def docs (s : EQMem) (rq : DocQuery) : Except Fault (List Doc) :=
  match Validate.docQuery rq with
  | some e => .error (.invalid e)
  | none =>
    let n := (s.namespaces.lookup rq.ns).getD (newDocNamespace rq.ns)
    if rq.ids ≠ [] then
      .ok (rq.ids.filterMap (fun id =>
        (n.byID.lookup id).map (fun d => docsResult rq d (n.lock d.key))))
    else
      let visited :=
        if rq.keyExact ≠ "" then
          (n.byKey.ascendGreaterOrEqual { key := rq.keyExact }).takeWhile
            (fun e => e.key == rq.keyExact)
        else if rq.keyEnd ≠ "" then
          n.byKey.ascendRange { key := rq.keyStart } { key := rq.keyEnd }
        else if rq.keyStart ≠ "" then n.byKey.ascendGreaterOrEqual { key := rq.keyStart }
        else n.byKey.toList
      let kept := if 0 < rq.limit then visited.take rq.limit.toNat else visited
      .ok (kept.map (fun e => docsResult rq e.doc (n.lock e.doc.key)))

/-- Whether a listing keeps the task. -/
def tasksMatch (tq : TasksQuery) (now : Time) (t : Task) : Bool :=
  !(tq.queue != "" && tq.queue != t.queue) &&
    !(tq.claimant != "" && tq.claimant != t.claimant && decide (now < t.atTime))

def rangeTasks (tq : TasksQuery) (now : Time) : List Task → List Task → List Task
  | found, [] => found
  | found, t :: rest =>
    if tq.limit ≠ 0 ∧ tq.limit ≤ found.length then found
    else rangeTasks tq now (if tasksMatch tq now t then found ++ [t] else found) rest

/-- `order` is the order in which the queue's map is visited. -/
def tasks (s : EQMem) (tq : TasksQuery) (now : Time) (order : List String) :
    Except Fault (List Task) :=
  match Validate.tasksQuery tq with
  | some e => .error (.invalid e)
  | none =>
    let result (t : Task) : Task := if tq.omitValues then { t with value := "" } else t
    if tq.ids ≠ [] then
      .ok ((tq.ids.filterMap (fun id =>
        ((s.qByID.lookup id).filter (fun q => !(tq.queue != "" && tq.queue != q))).bind
          (fun q => (s.stored q id).filter (tasksMatch tq now)))).map result)
    else
      .ok ((rangeTasks tq now [] (order.filterMap (s.stored tq.queue))).map result)

end EntroQ.Eqmem
