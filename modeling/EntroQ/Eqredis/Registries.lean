import EntroQ.Eqredis.Claim
import EntroQ.Foundation.Trace

/-! # The registries of queues and namespaces

What is written to a queue or a namespace is written in one block with its name in the registry.
The collector looks whether a queue or namespace is empty in one command and takes its name out in
another; what is put there in between is stored and not listed. -/

namespace EntroQ.Eqredis
open Foundation Docset

/-- Where a pass of the collector is: what it has listed, and what it has counted of the name it
is at. -/
inductive Gc
  | idle
  | queues (left : List String)
  | queueCounted (q : String) (size : ℕ) (left : List String)
  | namespaces (left : List String)
  | docsCounted (ns : String) (size : ℕ) (left : List String)
  | nsCounted (ns : String) (size locks : ℕ) (left : List String)
  deriving DecidableEq

/-- What comes of the next command of a pass. A listing comes in any order. -/
inductive GcReply
  | listed (order : List String)
  | answered
  | failed
  deriving DecidableEq

structure System where
  db : Redis := {}
  gc : Gc := .idle

def gcStep (db : Redis) : Gc → GcReply → System
  | .idle, .listed order =>
    if order.Nodup ∧ order.toFinset = db.sets queuesKey then ⟨db, .queues order⟩
    else ⟨db, .idle⟩
  | .idle, _ => ⟨db, .idle⟩
  | .queues (_ :: left), .failed => ⟨db, .queues left⟩
  | .queues (q :: left), _ => ⟨db, .queueCounted q (zcard db (queueKey q)) left⟩
  -- an error of the removal is not looked at
  | .queueCounted q size left, reply =>
    ⟨if size = 0 ∧ reply ≠ .failed then db.run (.srem queuesKey q) else db, .queues left⟩
  | .queues [], .listed order =>
    if order.Nodup ∧ order.toFinset = db.sets namespacesKey then ⟨db, .namespaces order⟩
    else ⟨db, .queues []⟩
  | .queues [], _ => ⟨db, .idle⟩
  | .namespaces (_ :: left), .failed => ⟨db, .namespaces left⟩
  | .namespaces (ns :: left), _ => ⟨db, .docsCounted ns (zcard db (docNSIndexKey ns)) left⟩
  | .namespaces [], _ => ⟨db, .idle⟩
  | .docsCounted _ _ left, .failed => ⟨db, .namespaces left⟩
  | .docsCounted ns size left, _ =>
    ⟨db, .nsCounted ns size (db.sets (lockIndexKey ns)).card left⟩
  | .nsCounted ns size locks left, reply =>
    ⟨if size = 0 ∧ locks = 0 ∧ reply ≠ .failed then db.run (.srem namespacesKey ns) else db,
      .namespaces left⟩

/-- The steps that calls and passes are made of. A modification's block is made from what was
read for it, whatever has changed since of what it does not watch. -/
inductive Step
  | modify (mod : Modification) (nowMs : ℤ) (reads : Reads) (gen : ℕ → String)
  | claim (queue claimant : String) (nowMs newAtMs : ℤ) (offset : ℕ)
  | claimDocs (cq : DocClaim) (now until_ : Time)
  | collectLock (g : SetName) (nowMs : ℤ)
  | gc (reply : GcReply)

def Step.block (db : Redis) : Step → List Cmd
  | .modify mod nowMs reads gen =>
    match modifyOnce mod nowMs reads gen with
    | .ok m => m.block
    | .error _ => []
  | .claim queue claimant nowMs newAtMs offset =>
    (claimScript db queue claimant nowMs newAtMs offset).1
  | .claimDocs cq now until_ => claimDocsBlock db cq now until_
  | .collectLock g nowMs => collectLockScript db nowMs g
  | .gc _ => []

def Step.next (s : System) : Step → System
  | .gc reply => gcStep s.db s.gc reply
  | e => { s with db := s.db.exec (e.block s.db) }

/-- What the collector takes out of a registry is empty still: nothing came in since it was
counted. -/
def Step.Clear (s : System) : Step → Prop
  | .gc reply =>
    match s.gc with
    | .queueCounted q 0 _ => reply ≠ .failed → s.db.zsets (queueKey q) = ∅
    | .nsCounted ns 0 0 _ => reply ≠ .failed →
      s.db.zsets (docNSIndexKey ns) = ∅ ∧ s.db.sets (lockIndexKey ns) = ∅
    | _ => True
  | _ => True

instance Step.decideClear (s : System) : (e : Step) → Decidable (e.Clear s)
  | .gc _ => by
    unfold Step.Clear
    dsimp only
    split <;> infer_instance
  | .modify .. | .claim .. | .claimDocs .. | .collectLock .. => .isTrue trivial

/-- Every queue with tasks, and every namespace with docs or locks, is registered. -/
structure Registered (db : Redis) : Prop where
  queues : ∀ q, db.zsets (queueKey q) ≠ ∅ → q ∈ db.sets queuesKey
  docs : ∀ ns, db.zsets (docNSIndexKey ns) ≠ ∅ → ns ∈ db.sets namespacesKey
  locks : ∀ ns, db.sets (lockIndexKey ns) ≠ ∅ → ns ∈ db.sets namespacesKey

/-- The block registers what it adds to, and takes nothing out of the registries. -/
structure Covered (b : List Cmd) : Prop where
  queues : ∀ q m x, Command.zadd (queueKey q) m x ∈ b → Command.sadd queuesKey q ∈ b
  docs : ∀ ns m x, Command.zadd (docNSIndexKey ns) m x ∈ b → Command.sadd namespacesKey ns ∈ b
  locks : ∀ ns k, Command.sadd (lockIndexKey ns) k ∈ b → Command.sadd namespacesKey ns ∈ b
  keepsQueues : ∀ m, Command.srem queuesKey m ∉ b
  keepsNamespaces : ∀ m, Command.srem namespacesKey m ∉ b

namespace Covered

theorem nil : Covered [] := by
  constructor <;> simp

theorem append {b b' : List Cmd} (h : Covered b) (h' : Covered b') : Covered (b ++ b') where
  queues q m x hm := List.mem_append.mpr
    ((List.mem_append.mp hm).imp (h.queues q m x) (h'.queues q m x))
  docs ns m x hm := List.mem_append.mpr
    ((List.mem_append.mp hm).imp (h.docs ns m x) (h'.docs ns m x))
  locks ns k hm := List.mem_append.mpr ((List.mem_append.mp hm).imp (h.locks ns k) (h'.locks ns k))
  keepsQueues m hm := (List.mem_append.mp hm).elim (h.keepsQueues m) (h'.keepsQueues m)
  keepsNamespaces m hm :=
    (List.mem_append.mp hm).elim (h.keepsNamespaces m) (h'.keepsNamespaces m)

theorem flatMap {α : Type*} {l : List α} {f : α → List Cmd} (h : ∀ x ∈ l, Covered (f x)) :
    Covered (l.flatMap f) := by
  induction l with
  | nil => exact nil
  | cons x l ih =>
    rw [List.flatMap_cons]
    exact (h x (List.mem_cons_self ..)).append (ih fun y hy => h y (List.mem_cons_of_mem _ hy))

/-- A sorted set stays registered by a block that registers what it adds to it. -/
theorem zset_registered {b : List Cmd} {db : Redis} {key registry name : String}
    (hkeeps : ∀ m, Command.srem registry m ∉ b)
    (hadds : ∀ m x, Command.zadd key m x ∈ b → Command.sadd registry name ∈ b)
    (h : db.zsets key ≠ ∅ → name ∈ db.sets registry) (hne : (db.exec b).zsets key ≠ ∅) :
    name ∈ (db.exec b).sets registry := by
  apply Keyspace.mem_exec_set hkeeps
  rw [ne_eq, Keyspace.zsets_eq_empty_iff, not_forall] at hne
  obtain ⟨m, hm⟩ := hne
  obtain ⟨x, hx⟩ := Option.ne_none_iff_exists'.mp hm
  refine (Keyspace.exec_zset hx).imp (fun ⟨x', hx'⟩ => h fun he => ?_)
    fun ⟨x', hx'⟩ => hadds m x' hx'
  rw [he, Finmap.lookup_empty] at hx'
  cases hx'

/-- A covered block keeps what is stored registered. -/
theorem registered {b : List Cmd} (hb : Covered b) {db : Redis} (h : Registered db) :
    Registered (db.exec b) := by
  constructor
  · intro q
    exact zset_registered hb.keepsQueues (hb.queues q) (h.queues q)
  · intro ns
    exact zset_registered hb.keepsNamespaces (hb.docs ns) (h.docs ns)
  · intro ns hns
    apply Keyspace.mem_exec_set hb.keepsNamespaces
    obtain ⟨k, hk⟩ := Finset.nonempty_iff_ne_empty.mpr hns
    refine (Keyspace.exec_set hk).imp (fun hk' => h.locks ns fun he => ?_) (hb.locks ns k)
    rw [he] at hk'
    cases hk'

end Covered

section Blocks
variable (r : Reads) (mod : Modification) (nowMs : ℤ)

theorem covered_deleteBlock (t : TaskID) : Covered (deleteBlock r t) := by
  constructor <;> simp [deleteBlock]

theorem covered_insertBlock (f : TaskFields) : Covered (insertBlock f) := by
  constructor <;> simp +contextual [insertBlock]

/-- A task that is changed is filed as one that is inserted is; the rest is bookkeeping of other
sorted sets. -/
theorem covered_changeBlock (c : TaskChange) : Covered (changeBlock r mod nowMs c) := by
  refine ((Covered.append ?_ ?_).append ?_ :)
  · constructor <;> simp +contextual
  · split_ifs <;> constructor <;> simp
  · split_ifs <;> constructor <;> simp

theorem covered_docDeleteBlock (d : DocID) : Covered (docDeleteBlock r d) := by
  constructor <;> simp [docDeleteBlock]

theorem covered_docInsertBlock (f : DocFields) : Covered (docInsertBlock f) := by
  constructor <;> simp +contextual [docInsertBlock]

theorem covered_docChangeBlock (c : DocChange) : Covered (docChangeBlock r nowMs c) := by
  constructor <;> simp [docChangeBlock]

theorem covered_writeLock (g : SetName) (l : Lock) (now : Time) : Covered (writeLock g l now) := by
  unfold writeLock
  split_ifs <;> constructor <;> simp +contextual

theorem covered_multi (plan : Plan) (gen : ℕ → String) :
    Covered (multi r mod nowMs plan gen).block := by
  change Covered (_ ++ _)
  repeat' apply Covered.append
  all_goals apply Covered.flatMap; intro x _
  · exact covered_deleteBlock r x
  · exact covered_changeBlock r mod nowMs x
  · exact covered_insertBlock x
  · exact covered_docDeleteBlock r x
  · exact covered_docInsertBlock x
  · exact covered_docChangeBlock r nowMs x
  · exact covered_writeLock x.1 x.2 _

variable (db : Redis)

theorem covered_claimLoop (queue claimant : String) (newAtMs : ℤ) (ids : List String) :
    Covered (claimLoop db queue claimant nowMs newAtMs ids).1 := by
  induction ids with
  | nil => exact Covered.nil
  | cons id ids ih =>
    unfold claimLoop
    cases taskHash db id with
    | none =>
      refine (Covered.append (b := [.zrem (queueKey queue) id]) ?_ ih :)
      constructor <;> simp
    | some f => constructor <;> simp +contextual

theorem covered_collectLockScript (g : SetName) : Covered (collectLockScript db nowMs g) := by
  unfold collectLockScript
  split_ifs
  · exact Covered.nil
  · exact Covered.nil
  · constructor <;> simp

theorem covered_claimDocsBlock (cq : DocClaim) (now until_ : Time) :
    Covered (claimDocsBlock db cq now until_) := by
  unfold claimDocsBlock
  split
  · exact Covered.nil
  · apply Covered.flatMap
    intro gl _
    exact covered_writeLock gl.1 gl.2 now

/-- Every call registers what it adds to in the block that adds it. -/
theorem Step.covered_block (e : Step) : Covered (e.block db) := by
  cases e with
  | modify mod nowMs reads gen =>
    simp only [Step.block, modifyOnce]
    cases depErr mod nowMs reads with
    | some e => exact Covered.nil
    | none =>
      cases mod.docInserts.findSome? validateDocKeys with
      | some m => exact Covered.nil
      | none => exact covered_multi reads _ nowMs _ gen
  | claim queue claimant nowMs newAtMs offset => exact covered_claimLoop nowMs db ..
  | claimDocs cq now until_ => exact covered_claimDocsBlock db cq now until_
  | collectLock g nowMs => exact covered_collectLockScript nowMs db g
  | gc reply => exact Covered.nil

end Blocks

section Run

theorem Registered.empty : Registered {} := by
  constructor <;> simp

theorem Registered.srem_queue {db : Redis} (h : Registered db) {q : String}
    (hq : db.zsets (queueKey q) = ∅) : Registered (db.run (.srem queuesKey q)) where
  queues q' hq' := by
    have hne : q' ≠ q := by
      rintro rfl
      exact hq' hq
    simpa [Keyspace.run, hne] using h.queues q' hq'
  docs ns hns := by
    simpa [Keyspace.run] using h.docs ns hns
  locks ns hns := by
    have hns' : db.sets (lockIndexKey ns) ≠ ∅ := by
      simpa [Keyspace.run] using hns
    simpa [Keyspace.run] using h.locks ns hns'

theorem Registered.srem_namespace {db : Redis} (h : Registered db) {ns : String}
    (hdocs : db.zsets (docNSIndexKey ns) = ∅) (hlocks : db.sets (lockIndexKey ns) = ∅) :
    Registered (db.run (.srem namespacesKey ns)) where
  queues q hq := by
    simpa [Keyspace.run] using h.queues q hq
  docs ns' hns' := by
    have hne : ns' ≠ ns := by
      rintro rfl
      exact hns' hdocs
    simpa [Keyspace.run, hne] using h.docs ns' hns'
  locks ns' hns' := by
    have hns'' : db.sets (lockIndexKey ns') ≠ ∅ := by
      simpa [Keyspace.run] using hns'
    have hne : ns' ≠ ns := by
      rintro rfl
      exact hns'' hlocks
    simpa [Keyspace.run, hne] using h.locks ns' hns''

/-- A step of a pass that finds what it removes empty keeps what is stored registered. -/
theorem gcStep_registered {s : System} (h : Registered s.db) {reply : GcReply}
    (hc : (Step.gc reply).Clear s) : Registered (gcStep s.db s.gc reply).db := by
  obtain ⟨db, gc⟩ := s
  cases gc with
  | queueCounted q size left =>
    change Registered (if _ then _ else _)
    split_ifs with hs
    · obtain ⟨rfl, hreply⟩ := hs
      exact h.srem_queue (hc hreply)
    · exact h
  | nsCounted ns size locks left =>
    change Registered (if _ then _ else _)
    split_ifs with hs
    · obtain ⟨rfl, rfl, hreply⟩ := hs
      exact h.srem_namespace (hc hreply).1 (hc hreply).2
    · exact h
  | idle =>
    cases reply with
    | listed order =>
      change Registered (System.db (ite _ _ _))
      split_ifs <;> exact h
    | _ => exact h
  | queues left =>
    cases left with
    | nil =>
      cases reply with
      | listed order =>
        change Registered (System.db (ite _ _ _))
        split_ifs <;> exact h
      | _ => exact h
    | cons q left => cases reply <;> exact h
  | namespaces left =>
    cases left with
    | nil => exact h
    | cons ns left => cases reply <;> exact h
  | docsCounted ns size left => cases reply <;> exact h

theorem Step.next_registered (s : System) (e : Step) (h : Registered s.db) (hc : e.Clear s) :
    Registered (e.next s).db := by
  cases e with
  | gc reply => exact gcStep_registered h hc
  | modify mod nowMs reads gen => exact (Step.covered_block s.db _).registered h
  | claim queue claimant nowMs newAtMs offset => exact (Step.covered_block s.db _).registered h
  | claimDocs cq now until_ => exact (Step.covered_block s.db _).registered h
  | collectLock g nowMs => exact (Step.covered_block s.db _).registered h

/-- A registered queue with tasks has its statistics listed. -/
theorem mem_queueStats {db : Redis} {q : String} (hq : q ∈ db.sets queuesKey)
    (hne : db.zsets (queueKey q) ≠ ∅) (nowMs : ℤ) {qq : QueuesQuery} (hm : matchesQueuesQuery q qq)
    (hl : qq.limit ≤ 0) : queueStat db nowMs q ∈ queueStats db nowMs qq := by
  have hsize : zcard db (queueKey q) ≠ 0 := by
    intro h0
    apply hne
    rw [Keyspace.zsets_eq_empty_iff]
    intro m
    rw [Finmap.lookup_eq_none, ← Finmap.mem_keys, Finset.card_eq_zero.mp h0]
    exact Finset.notMem_empty m
  unfold queueStats
  rw [if_neg (not_lt.mpr hl), List.mem_filter]
  refine ⟨List.mem_map.mpr ⟨q, ?_, rfl⟩, bne_iff_ne.mpr hsize⟩
  rw [Finset.mem_sort, Finset.mem_filter]
  exact ⟨hq, hm⟩

/-- What the listings of a pass show that begins in the state. -/
structure PassLists (db : Redis) : Prop where
  queues : ∀ order, (gcStep db .idle (.listed order)).gc = .queues order →
    ∀ q, db.zsets (queueKey q) ≠ ∅ → q ∈ order
  namespaces : ∀ order, (gcStep db (.queues []) (.listed order)).gc = .namespaces order →
    ∀ ns, db.zsets (docNSIndexKey ns) ≠ ∅ ∨ db.sets (lockIndexKey ns) ≠ ∅ → ns ∈ order

theorem Registered.passLists {db : Redis} (h : Registered db) : PassLists db where
  queues order hpass q hq := by
    change System.gc (ite _ _ _) = _ at hpass
    split_ifs at hpass with hlist
    rw [← List.mem_toFinset, hlist.2]
    exact h.queues q hq
  namespaces order hpass ns hns := by
    change System.gc (ite _ _ _) = _ at hpass
    split_ifs at hpass with hlist
    rw [← List.mem_toFinset, hlist.2]
    exact hns.elim (h.docs ns) (h.locks ns)

variable {s : System} {es : List Step}

/-- If nothing comes into what the collector removes between its count and its removal, then after
any run every queue with tasks and every namespace with docs or locks is registered; the
statistics show the queue, and a pass of the collector lists them all. -/
theorem stored_is_registered (h : Registered s.db) (hc : Along (fun s e => Step.next s e)
      (fun s e => e.Clear s) s es) :
    let t := after (fun s e => Step.next s e) s es
    Registered t.db ∧ (∀ q nowMs qq, t.db.zsets (queueKey q) ≠ ∅ → matchesQueuesQuery q qq →
      qq.limit ≤ 0 → queueStat t.db nowMs q ∈ queueStats t.db nowMs qq) ∧ PassLists t.db := by
  have hr := hc.invariant (I := fun s => Registered s.db) Step.next_registered h
  exact ⟨hr, fun q nowMs qq hq hm hl => mem_queueStats (hr.queues q hq) hq nowMs hm hl,
    hr.passLists⟩

end Run

/-- A modification made from what is stored when it is made. -/
def modifyNow (mod : Modification) (nowMs : ℤ) (s : System) : Step :=
  .modify mod nowMs (read mod s.db) fun _ => "generated"

/-- The steps one after the other, each made for the state it is taken in. -/
def steps (es : List (System → Step)) : System :=
  es.foldl (fun s e => (e s).next s) {}

def insertTask (id : String) : Modification :=
  { claimant := "worker", inserts := [{ id, queue := "jobs" }] }

def deleteTask (id : String) : Modification :=
  { claimant := "worker", deletes := [{ id, version := 0, queue := "jobs" }] }

/-- A pass finds the queue empty and removes its name, and then a task comes into it. -/
def earlySweep : List Step :=
  let s := Step.next {} (modifyNow (insertTask "first") 1 {})
  [modifyNow (insertTask "first") 1 {}, modifyNow (deleteTask "first") 2 s,
   .gc (.listed ["jobs"]), .gc .answered, .gc .answered, modifyNow (insertTask "second") 3 {}]

theorem stored_is_registered_swept :
    queueStat (after (fun s e => Step.next s e) {} earlySweep).db 4 "jobs" ∈
      queueStats (after (fun s e => Step.next s e) {} earlySweep).db 4 {} :=
  (stored_is_registered Registered.empty (by decide +kernel)).2.1 "jobs" 4 {} (by decide +kernel)
    (by decide +kernel) (by decide +kernel)

/-- A task comes into the queue between the count that found it empty and the removal of its
name. -/
def lateInsert : List (System → Step) :=
  [modifyNow (insertTask "first") 1, modifyNow (deleteTask "first") 2,
   fun _ => .gc (.listed ["jobs"]), fun _ => .gc .answered,
   modifyNow (insertTask "second") 3,
   fun _ => .gc .answered, fun _ => .gc (.listed []), fun _ => .gc .answered]

/-- The task is stored, its queue is not registered, and the statistics are empty. -/
theorem late_insert_unlisted :
    (steps lateInsert).gc = .idle ∧
      ((steps lateInsert).db.zsets (queueKey "jobs")).lookup "second" = some 3 ∧
      (taskHash (steps lateInsert).db "second").isSome ∧
      "jobs" ∉ (steps lateInsert).db.sets queuesKey ∧
      queueStats (steps lateInsert).db 4 {} = [] := by
  decide +kernel

end EntroQ.Eqredis
