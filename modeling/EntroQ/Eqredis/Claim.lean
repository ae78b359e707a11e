import EntroQ.Eqredis.Modify

/-! # Claims, statistics and lock collection on Redis

A claim of a task and the collection of a lock are scripts, each made as one step. -/

namespace EntroQ.Eqredis
open Foundation Docset

def claimWindow : ℕ := 20

section Script
variable (db : Redis)

def zrangeByScore (key : String) (max : ℤ) : List String :=
  let z := db.zsets key
  ((z.keys.filter fun m => (z.lookup m).any fun x => decide (0 ≤ x ∧ x ≤ max)).image
    fun m => toLex ((z.lookup m).getD 0, m)).sort (· ≤ ·) |>.map fun p => (ofLex p).2

variable (queue claimant : String) (nowMs newAtMs : ℤ)

def claimedFields (f : TaskFields) : TaskFields :=
  { f with claimant, atMs := newAtMs, version := f.version + 1, claims := f.claims + 1
           modified := nowMs }

/-- Claim the first candidate that has a hash, and drop the ones before it from the queue. -/
def claimLoop : List String → List Cmd × Option TaskFields
  | [] => ([], none)
  | id :: ids =>
    match taskHash db id with
    | none =>
      let rest := claimLoop ids
      (.zrem (queueKey queue) id :: rest.1, rest.2)
    | some f =>
      let f := claimedFields claimant nowMs newAtMs f
      ([.hset (taskKey id) (.task f), .zadd (queueKey queue) id newAtMs,
        .zadd (qsclaimedKey queue) id newAtMs, .zadd (qsclaimsKey queue) id f.claims.toInt,
        .sadd queuesKey queue], some f)

/-- The candidates from a random one on, around the window. -/
def claimScript (offset : ℕ) : List Cmd × Option TaskFields :=
  let ids := (zrangeByScore db (queueKey queue) nowMs).take claimWindow
  let start := offset % ids.length
  claimLoop db queue claimant nowMs newAtMs (ids.drop start ++ ids.take start)

def claimDocsBlock (cq : DocClaim) (now until_ : Time) : List Cmd :=
  match claimAll cq now until_ (readLock db) (setMembers db) with
  | .error _ => []
  | .ok locks => ((setsOf cq).zip locks).flatMap fun gl => writeLock gl.1 gl.2 now

def collectLockScript (g : SetName) : List Cmd :=
  if (lockHash db g).any fun l => l.claimant != "" && decide (nowMs < l.atMs) then []
  else if 0 < zlexcount db (docNSIndexKey g.ns) (setMembersRange g.key) then []
  else [.srem (lockIndexKey g.ns) g.key, .zrem (heldGroupsKey g.ns) g.key, .del (lockKey g)]

end Script

def tryClaimOne (db : Redis) (queue claimant : String) (duration : Duration) (now : Time)
    (offset : ℕ) : Redis × Option TaskFields :=
  let r := claimScript db queue claimant (unixMilli now) (unixMilli (now + duration)) offset
  (db.exec r.1, r.2)

def tryQueues (cq : ClaimQuery) (now : Time) : Redis → List (String × ℕ) → Redis × Option TaskFields
  | db, [] => (db, none)
  | db, (queue, offset) :: visits =>
    match tryClaimOne db queue cq.claimant cq.duration now offset with
    | (db, some f) => (db, some f)
    | (db, none) => tryQueues cq now db visits

/-- `TryClaim`, with the queues in the order they are shuffled into. -/
def tryClaim (db : Redis) (cq : ClaimQuery) (now : Time) (visits : List (String × ℕ)) :
    Redis × Except Failure (Option Task) :=
  match Validate.claim cq with
  | some e => (db, .error (.invalid e))
  | none => (tryQueues cq now db visits).map id fun f => .ok (f.map TaskFields.toTask)

structure QueuesQuery where
  matchExact : List String := []
  matchPrefix : List String := []
  limit : ℤ := 0
  deriving DecidableEq

def matchesQueuesQuery (name : String) (qq : QueuesQuery) : Bool :=
  (qq.matchExact.isEmpty && qq.matchPrefix.isEmpty) || qq.matchExact.contains name ||
    qq.matchPrefix.any fun p => p.toList.isPrefixOf name.toList

structure QueueStat where
  name : String
  size : ℕ
  claimed : ℕ
  available : ℕ
  future : ℕ
  maxClaims : ℤ
  deriving DecidableEq

section Stats
variable (db : Redis) (nowMs : ℤ)

/-- How many members have a score that passes. -/
def zcount (key : String) (passes : ℤ → Bool) : ℕ :=
  ((db.zsets key).keys.filter fun m => ((db.zsets key).lookup m).any passes).card

def zcard (key : String) : ℕ := (db.zsets key).keys.card

def queueStat (name : String) : QueueStat :=
  let size := zcard db (queueKey name)
  let available := zcount db (queueKey name) fun x => decide (0 ≤ x ∧ x ≤ nowMs)
  let claimed := zcount db (qsclaimedKey name) fun x => decide (nowMs < x)
  let z := db.zsets (qsclaimsKey name)
  { name, size, claimed, available, future := size - available - claimed
    maxClaims := (z.keys.image fun m => (z.lookup m).getD 0).max.unbotD 0 }

/-- The statistics of the registered queues that match and are not empty. -/
def queueStats (qq : QueuesQuery) : List QueueStat :=
  let names := ((db.sets queuesKey).filter fun q => matchesQueuesQuery q qq).sort (· ≤ ·)
  let stats := (names.map (queueStat db nowMs)).filter fun st => st.size != 0
  if 0 < qq.limit then stats.take qq.limit.toNat else stats

end Stats

end EntroQ.Eqredis
