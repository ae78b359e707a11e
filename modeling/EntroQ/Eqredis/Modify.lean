import EntroQ.Eqredis.Store

/-! # `Modify` on Redis

The tasks, docs and locks a modification names are read under a watch, checked, and written in
one block, which is not made if what was watched has changed. So a modification is a function
from what was read to the failures found or to the block. -/

namespace EntroQ.Eqredis
open Foundation Docset

/-- What was read for a modification. -/
structure Reads where
  states : FMap String TaskFields
  docState : String → Option DocFields
  locks : FMap SetName Lock
  occupants : FMap String Doc

section Reading
variable (mod : Modification)

def allIDs : List String :=
  mod.depends.map TaskID.id ++ mod.deletes.map TaskID.id ++
    mod.changes.map (fun c => c.task.id) ++ mod.arrives.map (fun a => a.taskID.id) ++
    (mod.inserts.filter (fun t => t.id != "")).map TaskData.id

/-- What the docs read are filed under. -/
def docStateKey (ns id : String) : String := ns ++ "/" ++ id

/-- The Redis key that is read for each of the names docs are filed under. -/
def docCmds : FMap String String :=
  let depends := mod.docDepends.foldl
    (fun m d => m.insert (docStateKey d.ns d.id) (docKey d.ns d.id)) ∅
  let rest := mod.docDeletes.map (fun d => (d.ns, d.id)) ++
    mod.docChanges.map (fun c => (c.doc.ns, c.doc.id)) ++
    (mod.docInserts.filter (fun d => d.id != "")).map (fun d => (d.ns, d.id))
  rest.foldl
    (fun m r => if docStateKey r.1 r.2 ∈ m then m
      else m.insert (docStateKey r.1 r.2) (docKey r.1 r.2))
    depends

def readDocs (db : Redis) (k : String) : Option DocFields :=
  ((docCmds mod).lookup k).bind (docHash db)

/-- The stored doc that the operations on a doc are checked against. -/
def member (docState : String → Option DocFields) (ns id : String) : Option Doc :=
  (docState (docStateKey ns id)).map DocFields.toDoc

def read (db : Redis) : Reads where
  states := FMap.gather (taskHash db) (allIDs mod)
  docState := readDocs mod db
  locks := readLocks db (sets mod (member (readDocs mod db)))
  occupants := readOccupants db mod

variable {mod}

theorem states_eq (db : Redis) (id : String) :
    (read mod db).states.lookup id = if id ∈ allIDs mod then taskHash db id else none :=
  FMap.lookup_gather _ _ _

theorem lookup_states {db : Redis} {id : String} (hid : id ∈ allIDs mod) :
    (read mod db).states.lookup id = taskHash db id := by
  rw [states_eq, if_pos hid]

theorem mem_allIDs_of_insert {ins : TaskData} (hins : ins ∈ mod.inserts) (hid : ins.id ≠ "") :
    ins.id ∈ allIDs mod := by
  simp only [allIDs, List.mem_append, List.mem_map, List.mem_filter, bne_iff_ne]
  exact .inr ⟨ins, ⟨hins, hid⟩, rfl⟩

end Reading

def heldByOther (f : TaskFields) (callerClaimant : String) (nowMs : ℤ) : Bool :=
  f.claimant != "" && f.claimant != callerClaimant && decide (nowMs < f.atMs)

inductive Failure
  | invalid (e : InvalidArgument)
  | dependency (e : DependencyError)
  | badKey (message : String)
  deriving DecidableEq

structure Multi where
  block : List Cmd
  resp : ModifyResponse

section Checks
variable (states : FMap String TaskFields) (mod : Modification) (nowMs : ℤ)

/-- The reference as it is reported if the task is not there as named. -/
def missing (t : TaskID) : Option TaskID :=
  match states.lookup t.id with
  | none => some { id := t.id, version := t.version }
  | some f =>
    if f.version ≠ t.version then some { id := t.id, version := t.version }
    else if t.queue = "" ∨ t.queue ≠ f.queue then some t
    else none

/-- The reference as it is reported if the task is there and someone else holds it. -/
def held (t : TaskID) : Option TaskID :=
  match missing states t, states.lookup t.id with
  | none, some f =>
    if heldByOther f mod.claimant nowMs then some { id := t.id, version := t.version } else none
  | _, _ => none

def checkTasks : DependencyError where
  depends := mod.depends.filterMap (missing states)
  deletes := mod.deletes.filterMap (missing states)
  changes := (mod.changes.map TaskChange.origin).filterMap (missing states)
  claims := mod.deletes.filterMap (held states mod nowMs) ++
    (mod.changes.map TaskChange.origin).filterMap (held states mod nowMs)
  inserts := mod.inserts.filterMap fun t =>
    if t.id = "" then none
    else (states.lookup t.id).map fun f => { id := t.id, version := f.version }

end Checks

section Writes
variable (r : Reads) (mod : Modification) (nowMs : ℤ) (plan : Plan) (gen : ℕ → String)

def changedFields (c : TaskChange) : TaskFields :=
  let old := (r.states.lookup c.task.id).getD { id := "", queue := "" }
  let now := ofUnixMilli nowMs
  let newAtMs := unixMilli (normalizeArrival (now + c.byDur) now)
  { id := c.task.id, queue := c.task.queue, value := c.task.value, atMs := newAtMs
    created := old.created, modified := nowMs
    claimant := if nowMs < newAtMs then mod.claimant else ""
    version := old.version + 1
    claims := if mod.resetsClaims c.task.id then 0 else old.claims
    attempt := c.task.attempt, err := c.task.err }

def insertedFields (id : String) (td : TaskData) : TaskFields :=
  let now := ofUnixMilli nowMs
  let atMs := unixMilli (normalizeArrival (now + td.byDur) now)
  { id, queue := td.queue, value := td.value, atMs, created := nowMs, modified := nowMs
    claimant := if nowMs < atMs then mod.claimant else ""
    attempt := td.attempt, err := td.err }

def deleteBlock (t : TaskID) : List Cmd :=
  let q := ((r.states.lookup t.id).map TaskFields.queue).getD ""
  [.del (taskKey t.id), .zrem (queueKey q) t.id, .zrem (qsclaimedKey q) t.id,
   .zrem (qsclaimsKey q) t.id]

def changeBlock (c : TaskChange) : List Cmd :=
  let f := changedFields r mod nowMs c
  let id := c.task.id
  let oldQueue := ((r.states.lookup id).map TaskFields.queue).getD ""
  [.hset (taskKey id) (.task f), .zadd (queueKey f.queue) id f.atMs, .sadd queuesKey f.queue] ++
  (if f.queue ≠ oldQueue then
    [.zrem (queueKey oldQueue) id, .zrem (qsclaimedKey oldQueue) id,
     .zrem (qsclaimsKey oldQueue) id] ++
    (if 0 < f.claims then [.zadd (qsclaimsKey f.queue) id f.claims.toInt] else [])
  else if f.claims = 0 then [.zrem (qsclaimsKey f.queue) id]
  else []) ++
  -- claimed means not yet available and claimed at least once
  (if nowMs < f.atMs ∧ 0 < f.claims then [.zadd (qsclaimedKey f.queue) id f.atMs]
  else [.zrem (qsclaimedKey f.queue) id])

def insertBlock (f : TaskFields) : List Cmd :=
  [.hset (taskKey f.id) (.task f), .zadd (queueKey f.queue) f.id f.atMs, .sadd queuesKey f.queue]

def docDeleteBlock (d : DocID) : List Cmd :=
  .del (docKey d.ns d.id) ::
    ((r.docState (docStateKey d.ns d.id)).toList.map fun f =>
      .zrem (docNSIndexKey d.ns) (docIndexMember f.keyPrimary f.keySecondary d.id))

def insertedDocFields (id : String) (d : DocData) : DocFields :=
  { ns := d.ns, id, keyPrimary := d.key, keySecondary := d.secondaryKey, content := d.content
    created := nowMs, modified := nowMs }

def docInsertBlock (f : DocFields) : List Cmd :=
  [.hset (docKey f.ns f.id) (.doc f),
   .zadd (docNSIndexKey f.ns) (docIndexMember f.keyPrimary f.keySecondary f.id) 0,
   .sadd namespacesKey f.ns]

def changedDocFields (c : DocChange) : DocFields :=
  let old := (r.docState (docStateKey c.doc.ns c.doc.id)).getD { ns := "", id := "" }
  { ns := c.doc.ns, id := c.doc.id, keyPrimary := old.keyPrimary, keySecondary := old.keySecondary
    content := c.doc.content, created := old.created, modified := nowMs }

def docChangeBlock (c : DocChange) : List Cmd :=
  [.hset (docKey c.doc.ns c.doc.id) (.doc (changedDocFields r nowMs c))]

/-- A written member as its set's new lock has it. -/
def withLock (f : DocFields) : Doc :=
  let g : SetName := ⟨f.ns, f.keyPrimary⟩
  overlay f.toDoc ((plan.locks.lookup g).getD ((r.locks.lookup g).getD absent))

/-- The ID given, or a generated one. -/
def idOr (id : String) (i : ℕ) : String := if id = "" then gen i else id

def taskInserts : List TaskFields :=
  mod.inserts.mapIdx fun i td => insertedFields mod nowMs (idOr gen td.id i) td

def docInserts : List DocFields :=
  mod.docInserts.mapIdx fun i d => insertedDocFields nowMs (idOr gen d.id (mod.inserts.length + i)) d

def lockBlock : List Cmd :=
  plan.locks.entries.flatMap fun gl => writeLock gl.1 gl.2 (ofUnixMilli nowMs)

def multi : Multi where
  block := mod.deletes.flatMap (deleteBlock r) ++ mod.changes.flatMap (changeBlock r mod nowMs) ++
    (taskInserts mod nowMs gen).flatMap insertBlock ++ mod.docDeletes.flatMap (docDeleteBlock r) ++
    (docInserts mod nowMs gen).flatMap docInsertBlock ++
    mod.docChanges.flatMap (docChangeBlock r nowMs) ++ lockBlock nowMs plan
  resp :=
    { insertedTasks := (taskInserts mod nowMs gen).map TaskFields.toTask
      changedTasks := mod.changes.map fun c => (changedFields r mod nowMs c).toTask
      insertedDocs := (docInserts mod nowMs gen).map (withLock r plan)
      changedDocs := mod.docChanges.map fun c => withLock r plan (changedDocFields r nowMs c)
      changedSets := plan.arrived }

end Writes

def validateDocKeys (d : DocData) : Option String :=
  if d.key.toList.contains '\x00' then some "doc key_primary must not contain null bytes"
  else if d.secondaryKey.toList.contains '\x00' then
    some "doc key_secondary must not contain null bytes"
  else none

section Once
variable (mod : Modification) (nowMs : ℤ) (r : Reads)

def changed : Modification :=
  arrivalChanges mod (FMap.gather (fun id => (r.states.lookup id).map TaskFields.toTask) (allIDs mod))

def docPlan : Plan :=
  evaluate (changed mod r) (ofUnixMilli nowMs) (member r.docState)
    (fun g secondary => r.occupants.lookup (occupantKey g.ns g.key secondary))
    (fun g => (r.locks.lookup g).getD absent)

/-- What fails of what was read. -/
def depErr : Option DependencyError :=
  DependencyError.merge (some (checkTasks r.states (changed mod r) nowMs)) (docPlan mod nowMs r).err

def taskVerdict : Option DependencyError :=
  (checkTasks r.states (changed mod r) nowMs).reported

def modifyOnce (gen : ℕ → String) : Except Failure Multi :=
  match depErr mod nowMs r with
  | some e => .error (.dependency e)
  | none =>
    match mod.docInserts.findSome? validateDocKeys with
    | some m => .error (.badKey m)
    | none => .ok (multi r (changed mod r) nowMs (docPlan mod nowMs r) gen)

/-- A block is made only if nothing that was read fails. -/
theorem modifyOnce_ok {mod : Modification} {nowMs : ℤ} {r : Reads} {gen : ℕ → String} {m : Multi}
    (h : modifyOnce mod nowMs r gen = .ok m) :
    depErr mod nowMs r = none ∧ m = multi r (changed mod r) nowMs (docPlan mod nowMs r) gen := by
  unfold modifyOnce at h
  cases hd : depErr mod nowMs r with
  | some e =>
    rw [hd] at h
    cases h
  | none =>
    rw [hd] at h
    dsimp only at h
    split at h
    · cases h
    · cases h
      exact ⟨rfl, rfl⟩

end Once

/-- A call that nothing comes in between. -/
def modify (db : Redis) (mod : Modification) (nowMs : ℤ) (gen : ℕ → String) :
    Redis × Except Failure ModifyResponse :=
  match Validate.modification mod with
  | some e => (db, .error (.invalid e))
  | none =>
    match modifyOnce mod nowMs (read mod db) gen with
    | .error e => (db, .error e)
    | .ok m => (db.exec m.block, .ok m.resp)

end EntroQ.Eqredis
