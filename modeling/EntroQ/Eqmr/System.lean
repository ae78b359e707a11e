import EntroQ.Eqmr.Intermediate
import EntroQ.Foundation.Trace
import EntroQ.Foundation.Versioned

/-! # A map-reduce run and its workers

The queues, docs, store and sink of one run, and any number of workers on them. Every read of the
docs, every claim, every call of the store or the sink and every Modify is one step, and between
two steps of a worker any other may act. A task can be claimed whoever holds it, as after a lapsed
lease, and its earlier holder then works on with a version that no longer commits. -/

namespace EntroQ.Eqmr
open Foundation

inductive Phase where
  | map | reduce | done | failed
  deriving DecidableEq

structure RunState where
  phase : Phase
  reason : String := ""
  reduceParts : ℕ
  deriving DecidableEq

namespace RunState

def terminal (st : RunState) : Bool := st.phase = .done ∨ st.phase = .failed

def failed (st : RunState) (reason : String) : RunState := { st with phase := .failed, reason }

end RunState

/-- A run of records, by where the store put it. -/
structure IntermediateRun where
  partition : ℕ
  ref : ℕ
  deriving DecidableEq

structure SplitDoc where
  id : ℕ
  records : List KV
  deriving DecidableEq

structure MapDone where
  splitKey : ℕ
  split : ℕ
  runs : List IntermediateRun
  deriving DecidableEq

/-- The key of a pointer doc: partition, split and number of the run. -/
abbrev Place := ℕ × ℕ × ℕ

structure ReduceDone where
  partition : ℕ
  pointers : List Place
  runs : List IntermediateRun
  staged : ℕ
  deriving DecidableEq

inductive Work where
  | map (key reduceShards : ℕ)
  | mapDone (md : MapDone)
  | mapCheck
  | reduce (partition : ℕ)
  | reduceDone (rd : ReduceDone)
  | reduceCheck
  | gc (runs : List IntermediateRun) (sweep : Bool)
  deriving DecidableEq

def Work.queue : Work → String
  | .map _ _ => "/map"
  | .mapDone _ => "/map-done"
  | .mapCheck => "/map-check"
  | .reduce _ => "/reduce"
  | .reduceDone _ => "/reduce-done"
  | .reduceCheck => "/reduce-check"
  | .gc _ _ => "/gc"

/-- The queue a task is in: the one for its work, that one's error queue, or the quarantine. -/
inductive Box where
  | inbox | err | quarantine
  deriving DecidableEq

/-- Where a worker on the queue moves a task that it gives up. -/
def Box.errQ : Box → Box
  | .inbox => .err
  | _ => .quarantine

structure QueuedTask where
  work : Work
  box : Box := .inbox
  err : String := ""
  deriving DecidableEq

def sixDigits (n : ℕ) : String :=
  String.ofList (List.replicate (6 - (toString n).length) '0') ++ toString n

def splitDocKey (n : ℕ) : String := "split/" ++ sixDigits n

def quoted (text : String) : String := "\"" ++ text ++ "\""

/-- A mapper emits records and then succeeds or fails. -/
abbrev Mapper := KV → List KV × Bool

/-- What was set up, and the functions every worker runs. -/
structure Job where
  prefix_ : String
  splits : List (List KV)
  reduceParts : ℕ
  mapFn : Mapper
  reduceFn : Reducer
  reduceParts_pos : 0 < reduceParts
  splits_ne_nil : splits ≠ []

def emitted (kv : KV) : IntermediateRecord := { primary := kv.key, value := kv.value }

/-- The records emitted up to the first failure, and whether there was none. -/
def runMapper (mapFn : Mapper) : List KV → List IntermediateRecord × Bool
  | [] => ([], true)
  | kv :: rest =>
    let (out, ok) := mapFn kv
    if ok then
      let (more, ok) := runMapper mapFn rest
      (out.map emitted ++ more, ok)
    else (out.map emitted, false)

def defaultIntermediateRunBytes : ℕ := 2 ^ 20

def runBytes (n : ℕ) : ℕ := if n = 0 then defaultIntermediateRunBytes else n

/-- The runs an attempt puts. One whose mapper fails does not flush what is left. -/
def putsOfAttempt (partitions maxBytes : ℕ) (out : List IntermediateRecord × Bool) :
    List (ℕ × List IntermediateRecord) :=
  if out.2 then putsOf partitions (runBytes maxBytes) out.1
  else (out.1.foldl (IntermediateWriter.write partitions (runBytes maxBytes)) {}).puts

/-! ## What the workers share -/

/-- The docs of the run, the runs put into the store by reference, and what was staged at the sink
and committed for each partition. -/
structure RunData where
  state : Cell RunState
  splits : Versioned ℕ SplitDoc
  mapOut : Versioned Place IntermediateRun := ∅
  results : Versioned ℕ Unit := ∅
  store : List (List IntermediateRecord) := []
  staged : List (ℕ × List KV) := []
  committed : ℕ → Option (List KV) := fun _ => none
  /-- The finishes accepted so far; nothing reads it. -/
  accepted : List MapDone := []

/-- The queues besides, and what was deleted from the store, swept from the sink and finished. -/
structure Shared extends RunData where
  tasks : Versioned ℕ QueuedTask := ∅
  nextTask : ℕ := 0
  deleted : List ℕ := []
  swept : List ℕ := []
  finished : Option (ℕ × List ℕ) := none

/-- A claimed task, at the version of the claim. -/
structure Held where
  key : ℕ
  version : ℕ
  deriving DecidableEq

namespace Shared
variable (s : Shared)

def insert (work : Work) : Shared :=
  { s with
    tasks := AList.insert s.nextTask { value := { work } } s.tasks
    nextTask := s.nextTask + 1 }

def insertAll (works : List Work) : Shared := works.foldl insert s

def retire (t : Held) : Option Shared :=
  (s.tasks.deleteAt t.key t.version).map fun tasks => { s with tasks }

def changeTask (t : Held) (change : QueuedTask → QueuedTask) : Option Shared := do
  let task ← s.tasks.value? t.key
  let tasks ← s.tasks.changeAt t.key t.version (change task)
  return { s with tasks }

/-- Changes the state doc, which releases it. -/
def setState (version : ℕ) (st : RunState) : Option Shared :=
  if s.state.version = version then some { s with state := ⟨version + 1, st⟩ } else none

def collecting (runs : List IntermediateRun) : Shared :=
  if runs = [] then s else s.insert (.gc runs false)

def ending : Shared := s.insert (.gc [] true)

/-- The pointer docs of a partition. -/
def pointersOf (p : ℕ) : List (Place × Cell IntermediateRun) :=
  (s.mapOut.entries.filter fun e => e.1.1 = p).map fun e => (e.1, e.2)

def openRun (ref : ℕ) : Option (List IntermediateRecord) :=
  if ref ∈ s.deleted then none else s.store[ref]?

/-- The first commit for a partition wins. -/
def sinkCommit (p staged : ℕ) : Option Shared :=
  match s.committed p with
  | some _ => some s
  | none =>
    if staged ∈ s.swept then none
    else
      s.staged[staged]?.map fun x =>
        { s with committed := Function.update s.committed p (some x.2) }

def sinkFinish (partitions : ℕ) (empty : List ℕ) : Shared :=
  { s with finished := s.finished.or (some (partitions, empty)) }

/-- Every run of the store and every staged attempt that was not committed. -/
def sweep : Shared :=
  { s with deleted := List.range s.store.length, swept := List.range s.staged.length }

end Shared

def mapOutDocs (md : MapDone) : List (Place × IntermediateRun) :=
  md.runs.zipIdx.map fun x => ((x.1.partition, md.splitKey, x.2), x.1)

def allPartitions (n : ℕ) : List ℕ := List.range n

/-- In order and without repeats. -/
def keyPartitions (partitions : List ℕ) : List ℕ :=
  partitions.foldl (fun parts p => if p ∈ parts then parts else parts.orderedInsert (· ≤ ·) p) []

def samePointers (published consumed : List Place) : Bool :=
  published.length = consumed.length ∧ ∀ p ∈ consumed, p ∈ published

/-! ## Commits -/

namespace Shared
variable (s : Shared) (t : Held)

def discard (runs : List IntermediateRun) : Option Shared :=
  (s.retire t).map fun s => s.collecting runs

def release (version : ℕ) (st : RunState) : Option Shared := do
  let s ← s.retire t
  s.setState version st

def finishMap (md : MapDone) : Option Shared := (s.retire t).map fun s => s.insert (.mapDone md)

def accept (md : MapDone) (version : ℕ) : Option Shared := do
  let s ← s.retire t
  let splits ← s.splits.deleteAt md.splitKey version
  let mapOut ← s.mapOut.addAll (mapOutDocs md)
  return { s with splits, mapOut, accepted := s.accepted ++ [md] }.insert .mapCheck

def fanOut (version : ℕ) (st : RunState) (parts : List ℕ) : Option Shared := do
  let s ← s.retire t
  let s ← s.setState version { st with phase := .reduce }
  return s.insertAll (parts.map Work.reduce)

def finishReduce (rd : ReduceDone) : Option Shared :=
  (s.retire t).map fun s => s.insert (.reduceDone rd)

def acceptReduce (rd : ReduceDone) (docs : List (Place × ℕ)) : Option Shared := do
  let s ← s.retire t
  let mapOut ← s.mapOut.deleteAll docs
  let results ← s.results.add rd.partition ()
  return ({ s with mapOut, results }.insert .reduceCheck).collecting rd.runs

def markDone (version : ℕ) (st : RunState) : Option Shared := do
  let s ← s.retire t
  let s ← s.setState version { st with phase := .done }
  return s.ending

def failState (version : ℕ) (st : RunState) (reason : String) : Option Shared :=
  if st.terminal then s.setState version st
  else (s.setState version (st.failed reason)).map ending

def failing (version : ℕ) (st : RunState) (reason : String) : Option Shared := do
  let s ← s.changeTask t fun task => { task with box := .quarantine, err := task.err ++ reason }
  s.failState version st reason

/-- Keeps a task from an error queue in the quarantine, and fails the run for it unless it was a
collection. -/
def quarantine (prefix_ : String) (task : QueuedTask) (version : ℕ) (st : RunState) :
    Option Shared := do
  let s ← s.changeTask t fun task => { task with box := .quarantine }
  match task.work with
  | .gc _ _ => s.setState version st
  | work =>
    s.failState version st ("task quarantined from " ++ prefix_ ++ work.queue ++ ": " ++ task.err)

end Shared

/-! ## Workers -/

/-- The checks at the end of the two phases. -/
inductive Barrier where
  | map | reduce
  deriving DecidableEq

def Barrier.phase : Barrier → Phase
  | .map => .map
  | .reduce => .reduce

/-- Whether docs are left that the phase has to consume. -/
def Barrier.left (s : Shared) : Barrier → Bool
  | .map => s.splits.entries ≠ []
  | .reduce => s.mapOut.entries ≠ []

/-- The partitions with pointer docs, or those with a result marker. -/
def Barrier.partitions (s : Shared) : Barrier → List ℕ
  | .map => keyPartitions (s.mapOut.keys.map (·.1))
  | .reduce => keyPartitions s.results.keys

/-- How a handler fails: the task is retried, moved to the error queue, or kept until its lease
has lapsed. -/
inductive Failure where
  | retry | move (err : String) | quit
  deriving DecidableEq

/-- A worker between two steps, with what it has read so far. -/
inductive Proc where
  | idle
  | leaving (t : Held) (why : Failure)
  | retiring (t : Held)
  -- A mapper, with the runs it has still to put and those it has put.
  | mapClaimed (t : Held) (key reduceShards maxBytes : ℕ)
  | mapping (t : Held) (key split : ℕ) (ok : Bool) (todo : List (ℕ × List IntermediateRecord))
      (runs : List IntermediateRun)
  | aborting (t : Held) (why : Failure) (runs : List IntermediateRun)
  -- The acceptance of a split, with the version and id of the split doc it claimed.
  | mapDoneClaimed (t : Held) (md : MapDone)
  | splitHeld (t : Held) (md : MapDone) (doc : Option (ℕ × ℕ))
  | accepting (t : Held) (md : MapDone) (doc : Option (ℕ × ℕ)) (st : RunState)
  | discarding (t : Held) (runs : List IntermediateRun)
  -- A check, without and then with the claim on the state doc.
  | check (t : Held) (k : Barrier)
  | checkDocs (t : Held) (k : Barrier)
  | claimState (t : Held) (k : Barrier)
  | stateHeld (t : Held) (k : Barrier) (version : ℕ) (st : RunState)
  | consumed (t : Held) (k : Barrier) (version : ℕ) (st : RunState)
  | parted (t : Held) (k : Barrier) (version : ℕ) (st : RunState) (parts : List ℕ)
  | finished (t : Held) (version : ℕ) (st : RunState)
  | releasing (t : Held) (version : ℕ) (st : RunState)
  | failing (t : Held) (version : ℕ) (st : RunState) (reason : String)
  -- A reducer, with the runs it has still to read and what it has read.
  | reduceClaimed (t : Held) (p : ℕ)
  | reading (t : Held) (p : ℕ) (pointers : List Place) (runs todo : List IntermediateRun)
      (got : List (List IntermediateRecord))
  | reduced (t : Held) (rd : ReduceDone)
  -- The acceptance of a partition.
  | reduceDoneClaimed (t : Held) (rd : ReduceDone)
  | resultHeld (t : Held) (rd : ReduceDone) (marked : Bool)
  | unmarked (t : Held) (rd : ReduceDone)
  | pointersRead (t : Held) (rd : ReduceDone) (docs : List (Place × ℕ))
  | sinkCommitted (t : Held) (rd : ReduceDone) (docs : List (Place × ℕ))
  | gcClaimed (t : Held) (runs : List IntermediateRun) (sweep : Bool)
  -- The judge of a task from an error queue.
  | errClaimed (t : Held) (task : QueuedTask)
  | errHeld (t : Held) (task : QueuedTask) (version : ℕ) (st : RunState)
  | errJudged (t : Held) (task : QueuedTask) (loser : Bool) (version : ℕ) (st : RunState)
  -- A failure from outside any worker.
  | failNow (reason : String)
  | failNowHeld (reason : String) (version : ℕ) (st : RunState)

/-- After a Modify, which may have failed on a dependency. -/
def commit (s : Shared) (result : Option Shared) (failed : Proc) : Shared × Proc :=
  match result with
  | some s => (s, .idle)
  | none => (s, failed)

/-- Where the worker of a task's queue starts. -/
def start (t : Held) (maxBytes : ℕ) (task : QueuedTask) : Proc :=
  match task.box with
  | .quarantine => .idle
  | .err => .errClaimed t task
  | .inbox =>
    match task.work with
    | .map key reduceShards => .mapClaimed t key reduceShards maxBytes
    | .mapDone md => .mapDoneClaimed t md
    | .mapCheck => .check t .map
    | .reduce p => .reduceClaimed t p
    | .reduceDone rd => .reduceDoneClaimed t rd
    | .reduceCheck => .check t .reduce
    | .gc runs sweep => .gcClaimed t runs sweep

def Shared.claimState (s : Shared) (next : ℕ → RunState → Proc) : Shared × Proc :=
  ({ s with state := { s.state with version := s.state.version + 1 } },
    next (s.state.version + 1) s.state.value)

/-- Whether a task from an error queue duplicates a unit that is complete. -/
def isLoser (s : Shared) : Work → Bool
  | .map key _ => (s.splits.value? key).isNone
  | .reduce p => (s.results.value? p).isSome
  | _ => false

section Steps
variable (job : Job) (s : Shared) (t : Held)

def leave (why : Failure) : Shared × Proc :=
  match why with
  | .retry => commit s (s.changeTask t id) .idle
  | .move err =>
    commit s (s.changeTask t fun task => { task with box := task.box.errQ, err := err }) .idle
  | .quit => (s, .idle)

def readSplit (key reduceShards maxBytes : ℕ) : Shared × Proc :=
  match s.splits.value? key with
  | none => (s, .retiring t)
  | some doc =>
    if reduceShards = 0 then
      (s, .leaving t (.move ("map task for " ++ quoted (splitDocKey key) ++
        " carries no partition count")))
    else
      let out := runMapper job.mapFn doc.records
      (s, .mapping t key doc.id out.2 (putsOfAttempt reduceShards maxBytes out) [])

def putRun (key split : ℕ) (ok : Bool) (todo : List (ℕ × List IntermediateRecord))
    (runs : List IntermediateRun) : Shared × Proc :=
  match todo with
  | (p, records) :: todo =>
    ({ s with store := s.store ++ [records] },
      .mapping t key split ok todo (runs ++ [{ partition := p, ref := s.store.length }]))
  | [] =>
    if ok then
      commit s (s.finishMap t { splitKey := key, split, runs }) (.aborting t .quit runs)
    else (s, .aborting t .quit runs)

def abort (why : Failure) (runs : List IntermediateRun) : Shared × Proc :=
  match runs with
  | run :: runs => ({ s with deleted := run.ref :: s.deleted }, .aborting t why runs)
  | [] => (s, .leaving t why)

def claimSplit (md : MapDone) : Shared × Proc :=
  let splits := s.splits.touch md.splitKey
  ({ s with splits },
    .splitHeld t md ((splits.lookup md.splitKey).map fun c => (c.version, c.value.id)))

/-- The first finish for a split is accepted. -/
def acceptMap (md : MapDone) (doc : Option (ℕ × ℕ)) (st : RunState) : Shared × Proc :=
  match doc with
  | none => (s, .discarding t md.runs)
  | some (version, id) =>
    if st.terminal ∨ id ≠ md.split then (s, .discarding t md.runs)
    else
      match md.runs.find? fun run => st.reduceParts ≤ run.partition with
      | some run =>
        (s, .leaving t (.move ("split " ++ quoted (splitDocKey md.splitKey) ++
          " produced a run for partition " ++ toString run.partition ++ " of " ++
          toString st.reduceParts)))
      | none => commit s (s.accept t md version) .idle

/-- The read of a check under its claim. -/
def readConsumed (k : Barrier) (version : ℕ) (st : RunState) : Shared × Proc :=
  if st.phase ≠ k.phase ∨ k.left s then (s, .releasing t version st)
  else (s, .consumed t k version st)

def endPhase (k : Barrier) (version : ℕ) (st : RunState) (parts : List ℕ) : Shared × Proc :=
  match k, parts with
  | .map, [] => (s.sinkFinish st.reduceParts (allPartitions st.reduceParts), .finished t version st)
  | .map, parts => commit s (s.fanOut t version st parts) .idle
  | .reduce, done =>
    (s.sinkFinish st.reduceParts ((allPartitions st.reduceParts).filter (· ∉ done)),
      .finished t version st)

def readPointers (p : ℕ) : Shared × Proc :=
  match s.pointersOf p with
  | [] => (s, .retiring t)
  | docs =>
    let runs := docs.map (·.2.value)
    match runs.find? (·.partition ≠ p) with
    | some run =>
      (s, .leaving t (.move ("map-output pointer names partition " ++ toString run.partition ++
        ", want " ++ toString p)))
    | none => (s, .reading t p (docs.map (·.1)) runs runs [])

def readRun (p : ℕ) (pointers : List Place) (runs todo : List IntermediateRun)
    (got : List (List IntermediateRecord)) : Shared × Proc :=
  match todo with
  | run :: todo =>
    match s.openRun run.ref with
    | none => (s, .leaving t .retry)
    | some records => (s, .reading t p pointers runs todo (got ++ [records]))
  | [] =>
    match reduceIntermediate job.reduceFn (mergeAll got) with
    | none => (s, .leaving t .quit)
    | some output =>
      ({ s with staged := s.staged ++ [(p, output)] },
        .reduced t { partition := p, pointers, runs, staged := s.staged.length })

def claimResult (rd : ReduceDone) : Shared × Proc :=
  ({ s with results := s.results.touch rd.partition },
    .resultHeld t rd (s.results.value? rd.partition).isSome)

def checkPointers (rd : ReduceDone) : Shared × Proc :=
  match s.pointersOf rd.partition with
  | [] => (s, .discarding t rd.runs)
  | docs =>
    if samePointers (docs.map (·.1)) rd.pointers then
      (s, .pointersRead t rd (docs.map fun d => (d.1, d.2.version)))
    else
      (s, .leaving t (.move ("reducer for partition " ++ toString rd.partition ++ " consumed " ++
        toString rd.pointers.length ++ " map outputs, but " ++ toString docs.length ++
        " are published")))

def commitOutput (rd : ReduceDone) (docs : List (Place × ℕ)) : Shared × Proc :=
  match s.sinkCommit rd.partition rd.staged with
  | none => (s, .leaving t .retry)
  | some s => (s, .sinkCommitted t rd docs)

def collect (runs : List IntermediateRun) (sweep : Bool) : Shared × Proc :=
  match runs with
  | run :: runs => ({ s with deleted := run.ref :: s.deleted }, .gcClaimed t runs sweep)
  | [] => (if sweep then s.sweep else s, .retiring t)

end Steps

/-- The next step of a worker. -/
def advance (job : Job) (s : Shared) : Proc → Shared × Proc
  | .idle => (s, .idle)
  | .leaving t why => leave s t why
  | .retiring t => commit s (s.retire t) .idle
  | .mapClaimed t key reduceShards maxBytes => readSplit job s t key reduceShards maxBytes
  | .mapping t key split ok todo runs => putRun s t key split ok todo runs
  | .aborting t why runs => abort s t why runs
  | .mapDoneClaimed t md => claimSplit s t md
  | .splitHeld t md doc => (s, .accepting t md doc s.state.value)
  | .accepting t md doc st => acceptMap s t md doc st
  | .discarding t runs => commit s (s.discard t runs) .idle
  | .check t k =>
    (s, if s.state.value.phase = k.phase then .checkDocs t k else .retiring t)
  | .checkDocs t k => (s, if k.left s then .retiring t else .claimState t k)
  | .claimState t k => s.claimState (.stateHeld t k)
  | .stateHeld t k version st => readConsumed s t k version st
  | .consumed t k version st => (s, .parted t k version st (k.partitions s))
  | .parted t k version st parts => endPhase s t k version st parts
  | .finished t version st => commit s (s.markDone t version st) .idle
  | .releasing t version st => commit s (s.release t version st) .idle
  | .failing t version st reason => commit s (s.failing t version st reason) .idle
  | .reduceClaimed t p => readPointers s t p
  | .reading t p pointers runs todo got => readRun job s t p pointers runs todo got
  | .reduced t rd => commit s (s.finishReduce t rd) .idle
  | .reduceDoneClaimed t rd => claimResult s t rd
  | .resultHeld t rd marked =>
    (s, if s.state.value.terminal ∨ marked then .discarding t rd.runs else .unmarked t rd)
  | .unmarked t rd => checkPointers s t rd
  | .pointersRead t rd docs => commitOutput s t rd docs
  | .sinkCommitted t rd docs => commit s (s.acceptReduce t rd docs) .idle
  | .gcClaimed t runs sweep => collect s t runs sweep
  | .errClaimed t task => s.claimState (.errHeld t task)
  | .errHeld t task version st => (s, .errJudged t task (isLoser s task.work) version st)
  | .errJudged t task loser version st =>
    if loser then commit s (s.release t version st) .idle
    else commit s (s.quarantine t job.prefix_ task version st) .idle
  | .failNow reason => s.claimState (.failNowHeld reason)
  | .failNowHeld reason version st => commit s (s.failState version st reason) .idle

/-- The task a worker has claimed. -/
def Proc.held : Proc → Option Held
  | .idle | .failNow _ | .failNowHeld _ _ _ => none
  | .leaving t _ | .retiring t | .mapClaimed t _ _ _ | .mapping t _ _ _ _ _ | .aborting t _ _
  | .mapDoneClaimed t _ | .splitHeld t _ _ | .accepting t _ _ _ | .discarding t _ | .check t _
  | .checkDocs t _ | .claimState t _ | .stateHeld t _ _ _ | .consumed t _ _ _
  | .parted t _ _ _ _ | .finished t _ _ | .releasing t _ _ | .failing t _ _ _
  | .reduceClaimed t _ | .reading t _ _ _ _ _ | .reduced t _ | .reduceDoneClaimed t _
  | .resultHeld t _ _ | .unmarked t _ | .pointersRead t _ _ | .sinkCommitted t _ _
  | .gcClaimed t _ _ | .errClaimed t _ | .errHeld t _ _ _ | .errJudged t _ _ _ _ => some t

/-- A handler whose call fails. A mapper deletes its runs first, and an output that cannot be
finished fails the run. -/
def Proc.fail (why : Failure) : Proc → Proc
  | .mapping t _ _ _ _ runs => .aborting t why runs
  | .parted t _ version st _ =>
    match why with
    | .move err => .failing t version st ("finish output: " ++ err)
    | why => .leaving t why
  | proc => match proc.held with
    | some t => .leaving t why
    | none => .idle

def Proc.unavailable : Proc → Proc
  | .check t k | .checkDocs t k => .claimState t k
  | proc => proc

/-! ## Runs -/

inductive Event where
  /-- A worker takes up a task, with its memory bound, and drops what it had. -/
  | claim (pid key maxBytes : ℕ)
  | step (pid : ℕ)
  | crash (pid : ℕ)
  | fail (pid : ℕ) (why : Failure)
  | unavailable (pid : ℕ)
  /-- A map or reduce task is inserted a second time. -/
  | duplicate (key : ℕ)
  | failNow (pid : ℕ) (reason : String)
  deriving DecidableEq

structure System where
  shared : Shared
  procs : ℕ → Proc := fun _ => .idle

def System.update (y : System) (pid : ℕ) (next : Shared × Proc) : System :=
  { shared := next.1, procs := Function.update y.procs pid next.2 }

def claimTask (s : Shared) (key maxBytes : ℕ) : Shared × Proc :=
  match s.tasks.lookup key with
  | none => (s, .idle)
  | some c =>
    ({ s with tasks := s.tasks.touch key }, start ⟨key, c.version + 1⟩ maxBytes c.value)

def duplicateTask (s : Shared) (key : ℕ) : Shared :=
  match s.tasks.value? key with
  | some { work := .map split reduceShards, .. } => s.insert (.map split reduceShards)
  | some { work := .reduce p, .. } => s.insert (.reduce p)
  | _ => s

def step (job : Job) (y : System) : Event → System
  | .claim pid key maxBytes => y.update pid (claimTask y.shared key maxBytes)
  | .step pid => y.update pid (advance job y.shared (y.procs pid))
  | .crash pid => y.update pid (y.shared, .idle)
  | .fail pid why => y.update pid (y.shared, (y.procs pid).fail why)
  | .unavailable pid => y.update pid (y.shared, (y.procs pid).unavailable)
  | .duplicate key => { y with shared := duplicateTask y.shared key }
  | .failNow pid reason => y.update pid (y.shared, .failNow reason)

def splitDocs (splits : List (List KV)) : Versioned ℕ SplitDoc :=
  splits.zipIdx.foldl
    (fun m x => AList.insert x.2 { value := { id := x.2, records := x.1 } } m) ∅

def setup (job : Job) : System where
  shared :=
    ({ state := { value := { phase := .map, reduceParts := job.reduceParts } }
       splits := splitDocs job.splits } : Shared).insertAll
      ((List.range job.splits.length).map fun i => Work.map i job.reduceParts)

end EntroQ.Eqmr
