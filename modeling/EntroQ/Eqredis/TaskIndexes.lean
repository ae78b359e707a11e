import EntroQ.Client.NamedTwice
import EntroQ.Eqredis.Registries

/-! # The sorted sets of a queue

Beside its hash a task has a place in up to three sorted sets of its queue: by arrival, by arrival
if it was ever claimed, and by its claims. An operation on a task touches the places of that task
alone, so the sets are followed task by task. -/

namespace EntroQ.Eqredis
open Foundation Docset

/-- The queue that a sorted set belongs to. -/
@[simp] def Place.queue? : Place → Option String
  | ready q | claimed q | claims q => some q
  | _ => none

abbrev score (db : Redis) (id : String) (p : Place) : Option ℤ := (db.zsets p.key).lookup id

/-- The command leaves the task's hash and its places in the sorted sets of queues alone. -/
structure Spares (id : String) (c : Cmd) : Prop where
  hash : c.hashKey? ≠ some (taskKey id)
  scores : ∀ (p : Place) q, p.queue? = some q → c.member? ≠ some (p.key, id)

structure SameTask (id : String) (db db' : Redis) : Prop where
  hash : taskHash db' id = taskHash db id
  scores : ∀ p q, p.queue? = some q → score db' id p = score db id p

theorem SameTask.refl (id : String) (db : Redis) : SameTask id db db := ⟨rfl, fun _ _ _ => rfl⟩

theorem SameTask.exec {id : String} (db : Redis) {b : List Cmd} (h : ∀ c ∈ b, Spares id c) :
    SameTask id db (db.exec b) where
  hash := by
    rw [taskHash, taskHash, Keyspace.exec_hash fun c hc => (h c hc).hash]
  scores p q hp := Keyspace.exec_score fun c hc => (h c hc).scores p q hp

/-- The task's places follow from its hash. Of its place among the claimed tasks this is known only
of a task that arrives later than any of the clock readings so far. -/
structure Filed (latest : ℤ) (db : Redis) (id : String) : Prop where
  named : ∀ f, taskHash db id = some f → f.id = id
  bounds : ∀ f, taskHash db id = some f → 0 ≤ f.atMs ∧ 0 ≤ f.claims
  queued : ∀ q x, score db id (.ready q) = some x ↔
    ∃ f, taskHash db id = some f ∧ f.queue = q ∧ f.atMs = x
  counted : ∀ q x, score db id (.claims q) = some x ↔
    ∃ f, taskHash db id = some f ∧ f.queue = q ∧ 0 < f.claims ∧ f.claims.toInt = x
  claimed : ∀ q x, score db id (.claimed q) = some x →
    ∃ f, taskHash db id = some f ∧ f.queue = q ∧ 0 < f.claims ∧ f.atMs = x
  waiting : ∀ f, taskHash db id = some f → 0 < f.claims → latest < f.atMs →
    score db id (.claimed f.queue) = some f.atMs

namespace Filed
variable {latest latest' : ℤ} {db db' : Redis} {id : String}

theorem congr (h : Filed latest db id) (hs : SameTask id db db') (hl : latest ≤ latest') :
    Filed latest' db' id where
  named := by rw [hs.hash]; exact h.named
  bounds := by rw [hs.hash]; exact h.bounds
  queued := by simpa only [hs.hash, hs.scores (.ready _) _ rfl] using h.queued
  counted := by simpa only [hs.hash, hs.scores (.claims _) _ rfl] using h.counted
  claimed := by simpa only [hs.hash, hs.scores (.claimed _) _ rfl] using h.claimed
  waiting f hf hc hat := by
    rw [hs.hash] at hf
    rw [hs.scores _ _ rfl]
    exact h.waiting f hf hc (hl.trans_lt hat)

/-- The task has no place in the sets of a queue that it is not in. -/
theorem elsewhere (h : Filed latest db id) {p : Place} {q : String} (hp : p.queue? = some q)
    (hq : ∀ f, taskHash db id = some f → f.queue ≠ q) : score db id p = none := by
  rw [Option.eq_none_iff_forall_ne_some]
  intro x hx
  cases p with
  | ready _ =>
    cases hp
    obtain ⟨f, hf, hfq, -⟩ := (h.queued q x).mp hx
    exact hq f hf hfq
  | claimed _ =>
    cases hp
    obtain ⟨f, hf, hfq, -⟩ := h.claimed q x hx
    exact hq f hf hfq
  | claims _ =>
    cases hp
    obtain ⟨f, hf, hfq, -⟩ := (h.counted q x).mp hx
    exact hq f hf hfq
  | _ => cases hp

/-- Nothing is known of a task without a hash, and it has no places. -/
theorem of_absent (hhash : taskHash db id = none)
    (hscores : ∀ p q, p.queue? = some q → score db id p = none) : Filed latest db id := by
  constructor <;> simp [hhash, hscores]

theorem empty (latest : ℤ) (id : String) : Filed latest {} id :=
  of_absent rfl fun _ _ _ => Finmap.lookup_empty id

theorem of_stored {f : TaskFields} (hhash : taskHash db id = some f) (hid : f.id = id)
    (hat : 0 ≤ f.atMs) (hclaims : 0 ≤ f.claims)
    (hqueued : ∀ q, score db id (.ready q) = if q = f.queue then some f.atMs else none)
    (hcounted : ∀ q, score db id (.claims q) =
      if q = f.queue ∧ 0 < f.claims then some f.claims.toInt else none)
    (hclaimed : ∃ marked : Bool, (∀ q, score db id (.claimed q) =
        if q = f.queue ∧ 0 < f.claims ∧ marked then some f.atMs else none) ∧
      (latest < f.atMs → marked)) : Filed latest db id := by
  obtain ⟨marked, hlookup, hmarked⟩ := hclaimed
  constructor
  · intro f' hf'
    cases hhash.symm.trans hf'
    exact hid
  · intro f' hf'
    cases hhash.symm.trans hf'
    exact ⟨hat, hclaims⟩
  · intro q x
    rw [hqueued, hhash]
    grind
  · intro q x
    rw [hcounted, hhash]
    grind
  · intro q x hx
    rw [hlookup] at hx
    grind
  · intro f' hf' hpos hlater
    cases hhash.symm.trans hf'
    rw [hlookup, if_pos ⟨rfl, hpos, hmarked hlater⟩]

end Filed

/-! ## The operation on the task itself -/

section Own
variable {latest : ℤ} {db : Redis} {id : String} {r : Reads} {mod : Modification} {nowMs : ℤ}

theorem taskHash_hset (db : Redis) (id : String) (f : TaskFields) (b : List Cmd)
    (hb : ∀ c ∈ b, c.hashKey? ≠ some (taskKey id)) :
    taskHash (db.exec (.hset (taskKey id) (.task f) :: b)) id = some f := by
  change taskHash ((db.run (.hset (taskKey id) (.task f))).exec b) id = some f
  rw [taskHash, Keyspace.exec_hash hb]
  simp [Keyspace.run]

theorem Filed.others (h : Filed latest db id) {f : TaskFields} (hf : taskHash db id = some f)
    (p : Place) (q : String) (hp : p.queue? = some q) (hq : q ≠ f.queue) :
    score db id p = none := by
  apply h.elsewhere hp
  intro f' hf'
  cases hf.symm.trans hf'
  exact hq.symm

theorem Filed.lookup_counted (h : Filed latest db id) {f : TaskFields}
    (hf : taskHash db id = some f) (q : String) : score db id (.claims q) =
      if q = f.queue ∧ 0 < f.claims then some f.claims.toInt else none := by
  apply Option.ext
  intro x
  rw [h.counted, hf]
  grind

theorem Filed.delete (h : Filed latest db id) {f : TaskFields} (hf : taskHash db id = some f)
    {t : TaskID} (ht : t.id = id) (hr : r.states.lookup id = some f) :
    Filed latest (db.exec (deleteBlock r t)) id := by
  subst ht
  apply Filed.of_absent
  · simp [deleteBlock, Keyspace.exec, Keyspace.run, taskHash]
  · intro p q hp
    by_cases hq : q = f.queue
    · cases p <;> cases hp <;>
        simp [score, deleteBlock, hr, hq, Keyspace.exec_cons, Keyspace.lookup_run_zrem]
    · have hnone := h.others hf p q hp hq
      cases p <;> cases hp <;>
        simp [score, deleteBlock, hr, hq, Keyspace.exec_cons, Keyspace.lookup_run_zrem, hnone]

theorem Filed.insert (h : Filed latest db id) (hnone : taskHash db id = none) {f : TaskFields}
    (hid : f.id = id) (hat : 0 ≤ f.atMs) (hclaims : f.claims = 0) :
    Filed latest (db.exec (insertBlock f)) id := by
  subst hid
  have hnew (p : Place) (q : String) (hp : p.queue? = some q) : score db f.id p = none := by
    apply h.elsewhere hp
    rw [hnone]
    exact nofun
  have hzero : ¬(0 : Int32) < f.claims := by rw [hclaims]; decide
  apply Filed.of_stored (f := f)
  · exact taskHash_hset _ _ _ _ (by simp [Command.hashKey?])
  · rfl
  · exact hat
  · rw [hclaims]
    decide
  · intro q
    simp [score, insertBlock, Keyspace.exec_cons, Keyspace.lookup_run_zadd, hnew]
  · intro q
    simp [score, insertBlock, Keyspace.exec_cons, Keyspace.lookup_run_zadd, hnew, hzero]
  · refine ⟨true, fun q => ?_, fun _ => rfl⟩
    simp [score, insertBlock, Keyspace.exec_cons, Keyspace.lookup_run_zadd, hnew, hzero]

def claimBlock (claimant : String) (nowMs newAtMs : ℤ) (id : String) (f : TaskFields) : List Cmd :=
  [.hset (taskKey id) (.task (claimedFields claimant nowMs newAtMs f)),
   .zadd (queueKey f.queue) id newAtMs, .zadd (qsclaimedKey f.queue) id newAtMs,
   .zadd (qsclaimsKey f.queue) id (claimedFields claimant nowMs newAtMs f).claims.toInt,
   .sadd queuesKey f.queue]

theorem Filed.claim (h : Filed latest db id) {f : TaskFields} (hf : taskHash db id = some f)
    {claimant : String} {newAtMs : ℤ} (hat : 0 ≤ newAtMs) (hcount : f.claims.toInt < 2 ^ 31 - 1) :
    Filed latest (db.exec (claimBlock claimant nowMs newAtMs id f)) id := by
  have hpos : (0 : Int32) < f.claims + 1 := by
    have hzero : (0 : Int32).toInt ≤ f.claims.toInt := Int32.le_iff_toInt_le.mp (h.bounds f hf).2
    have hone : (1 : Int32).toInt = 1 := by decide
    rw [Int32.toInt_zero] at hzero
    rw [Int32.lt_iff_toInt_lt, Int32.toInt_add, hone, Int.bmod_eq_of_le (by omega) (by omega),
      Int32.toInt_zero]
    omega
  refine Filed.of_stored (f := claimedFields claimant nowMs newAtMs f)
    (taskHash_hset _ _ _ _ (by simp [Command.hashKey?])) (h.named f hf) hat (Int32.le_of_lt hpos)
    ?_ ?_ ⟨true, ?_, fun _ => rfl⟩
  all_goals
    intro q
    by_cases hq : q = f.queue
    · simp [score, claimBlock, claimedFields, hq, Keyspace.exec_cons, Keyspace.lookup_run_zadd, hpos]
    · simp [score, claimBlock, claimedFields, hq, Keyspace.exec_cons, Keyspace.lookup_run_zadd,
        h.others hf]

/-- An arrival lies at most the window before the clock, so it is after the epoch if the clock is
far enough after it. -/
theorem unixMilli_normalizeArrival (hnow : arrivalPastWindow / millisecond ≤ nowMs) (d : Duration) :
    0 ≤ unixMilli (normalizeArrival (ofUnixMilli nowMs + d) (ofUnixMilli nowMs)) := by
  have hwindow : arrivalPastWindow = 31536000000 * millisecond := by decide
  rw [hwindow, Int.mul_ediv_cancel _ (by decide)] at hnow
  have hepoch : unixEpoch ≤ normalizeArrival (ofUnixMilli nowMs + d) (ofUnixMilli nowMs) := by
    have hlater : unixEpoch + arrivalPastWindow ≤ ofUnixMilli nowMs := by
      rw [hwindow, ofUnixMilli, add_comm unixEpoch]
      exact Int.add_le_add_right (Int.mul_le_mul_of_nonneg_right hnow (by decide)) unixEpoch
    have hwide : 0 ≤ arrivalPastWindow := by decide
    unfold normalizeArrival
    split_ifs with hfar
    · exact (le_add_of_nonneg_right hwide).trans hlater
    · exact (le_sub_right_of_add_le hlater).trans (not_lt.mp hfar)
  exact Int.ediv_nonneg (sub_nonneg.mpr hepoch) (by decide)

theorem Filed.change (h : Filed latest db id) {old : TaskFields} (hold : taskHash db id = some old)
    {c : TaskChange} (hc : c.task.id = id) (hr : r.states.lookup id = some old)
    (hnow : arrivalPastWindow / millisecond ≤ nowMs) (hl : nowMs ≤ latest) :
    Filed latest (db.exec (changeBlock r mod nowMs c)) id := by
  subst hc
  have hclaims : 0 ≤ (changedFields r mod nowMs c).claims := by
    simp only [changedFields, hr, Option.getD_some]
    split_ifs
    · decide
    · exact (h.bounds old hold).2
  have hkept : (changedFields r mod nowMs c).claims ≠ 0 →
      (changedFields r mod nowMs c).claims = old.claims := by
    simp only [changedFields, hr, Option.getD_some]
    split_ifs
    · exact fun hne => absurd rfl hne
    · exact fun _ => rfl
  have hat : 0 ≤ (changedFields r mod nowMs c).atMs := unixMilli_normalizeArrival hnow c.byDur
  have hid : (changedFields r mod nowMs c).id = c.task.id := rfl
  generalize hf : changedFields r mod nowMs c = f at hclaims hkept hat hid
  simp only [changeBlock, hf, hr, Option.map_some, Option.getD_some]
  apply Filed.of_stored (f := f)
  · apply taskHash_hset
    split_ifs <;> simp [Command.hashKey?]
  · exact hid
  · exact hat
  · exact hclaims
  · intro q
    by_cases hq : q = old.queue
    · split_ifs <;> simp_all [score, Keyspace.exec_cons, Keyspace.lookup_run_zadd,
        Keyspace.lookup_run_zrem]
    · have hnone := h.others hold (.ready q) q rfl hq
      split_ifs <;> simp_all [score, Keyspace.exec_cons, Keyspace.lookup_run_zadd,
        Keyspace.lookup_run_zrem]
  · intro q
    have hwas := h.lookup_counted hold q
    by_cases hq : q = old.queue
    · split_ifs <;> simp_all [score, Keyspace.exec_cons, Keyspace.lookup_run_zadd,
        Keyspace.lookup_run_zrem]
    · split_ifs <;> simp_all [score, Keyspace.exec_cons, Keyspace.lookup_run_zadd,
        Keyspace.lookup_run_zrem]
  · refine ⟨decide (nowMs < f.atMs), fun q => ?_, fun hlater => decide_eq_true (by omega)⟩
    rw [score, Keyspace.exec_append]
    by_cases hq : q = f.queue
    · -- the last command decides
      by_cases hmarked : nowMs < f.atMs ∧ 0 < f.claims
      · rw [if_pos hmarked, Keyspace.exec_cons, Keyspace.exec_nil, Keyspace.lookup_run_zadd,
          if_pos ⟨by rw [hq]; rfl, rfl⟩, if_pos ⟨hq, hmarked.2, decide_eq_true hmarked.1⟩]
      · rw [if_neg hmarked, Keyspace.exec_cons, Keyspace.exec_nil, Keyspace.lookup_run_zrem,
          if_pos ⟨by rw [hq]; rfl, rfl⟩, if_neg]
        exact fun hshown => hmarked ⟨of_decide_eq_true hshown.2.2, hshown.2.1⟩
    · have hnot : ¬(q = f.queue ∧ 0 < f.claims ∧ decide (nowMs < f.atMs) = true) :=
        fun hshown => hq hshown.1
      rw [if_neg hnot]
      by_cases hwas : q = old.queue
      · have hmoved : f.queue ≠ old.queue := fun he => hq (hwas.trans he.symm)
        split_ifs <;> simp_all [Keyspace.exec_cons, Keyspace.lookup_run_zadd,
          Keyspace.lookup_run_zrem]
      · have hnone := h.others hold (.claimed q) q rfl hwas
        split_ifs <;> simp_all [Keyspace.exec_cons, Keyspace.lookup_run_zadd,
          Keyspace.lookup_run_zrem]

end Own

/-! ## The block of a modification -/

/-- The command is about this task: it writes no other hash, and no other place. -/
structure Concerns (id : String) (c : Cmd) : Prop where
  hash : ∀ k, c.hashKey? = some k → k = taskKey id
  member : ∀ k m, c.member? = some (k, m) → m = id

theorem Concerns.spares {id id' : String} {c : Cmd} (h : Concerns id' c) (hne : id ≠ id') :
    Spares id c := by
  refine ⟨fun hk => ?_, fun p _ _ hm => hne (h.member p.key id hm)⟩
  exact hne (by simpa using h.hash _ hk)

section Commands
variable {id : String} (key member : String)

@[simp] theorem concerns_hset (h : Hash) : Concerns id (.hset key h) ↔ key = taskKey id :=
  ⟨fun hc => hc.hash key rfl, fun hk => ⟨fun _ he => Option.some.inj he ▸ hk, nofun⟩⟩

@[simp] theorem concerns_del : Concerns id (.del key) ↔ key = taskKey id :=
  ⟨fun hc => hc.hash key rfl, fun hk => ⟨fun _ he => Option.some.inj he ▸ hk, nofun⟩⟩

@[simp] theorem concerns_zadd (score : ℤ) : Concerns id (.zadd key member score) ↔ member = id :=
  ⟨fun hc => hc.member key member rfl, fun hm => ⟨nofun, fun _ _ he => by cases he; exact hm⟩⟩

@[simp] theorem concerns_zrem : Concerns id (.zrem key member) ↔ member = id :=
  ⟨fun hc => hc.member key member rfl, fun hm => ⟨nofun, fun _ _ he => by cases he; exact hm⟩⟩

@[simp] theorem concerns_sadd : Concerns id (.sadd key member) := ⟨nofun, nofun⟩

@[simp] theorem spares_hset (h : Hash) : Spares id (.hset key h) ↔ key ≠ taskKey id :=
  ⟨fun hc he => hc.hash (congrArg some he), fun hk =>
    ⟨fun he => hk (Option.some.inj he), fun _ _ _ => nofun⟩⟩

@[simp] theorem spares_del : Spares id (.del key) ↔ key ≠ taskKey id :=
  ⟨fun hc he => hc.hash (congrArg some he), fun hk =>
    ⟨fun he => hk (Option.some.inj he), fun _ _ _ => nofun⟩⟩

theorem spares_iff {c : Cmd} {p : Place} (hhash : c.hashKey? = none)
    (hmember : c.member? = some (p.key, member)) :
    Spares id c ↔ p.queue? = none ∨ member ≠ id := by
  constructor
  · intro h
    cases hq : p.queue? with
    | none => exact .inl rfl
    | some q => exact .inr fun he => h.scores p q hq (by rw [hmember, he])
  · intro h
    refine ⟨by rw [hhash]; exact nofun, fun p' q hp he => ?_⟩
    obtain ⟨rfl, rfl⟩ : p = p' ∧ member = id := by simpa [hmember] using he
    rcases h with h | h
    · cases h.symm.trans hp
    · exact h rfl

@[simp] theorem spares_zadd (p : Place) (score : ℤ) :
    Spares id (.zadd p.key member score) ↔ p.queue? = none ∨ member ≠ id :=
  spares_iff member rfl rfl

@[simp] theorem spares_zrem (p : Place) :
    Spares id (.zrem p.key member) ↔ p.queue? = none ∨ member ≠ id :=
  spares_iff member rfl rfl

@[simp] theorem spares_sadd : Spares id (.sadd key member) := ⟨nofun, fun _ _ _ => nofun⟩

end Commands

section Blocks
variable {r : Reads} {mod : Modification} {nowMs : ℤ}

theorem concerns_deleteBlock (t : TaskID) : ∀ c ∈ deleteBlock r t, Concerns t.id c := by
  simp [deleteBlock]

theorem concerns_insertBlock (f : TaskFields) : ∀ c ∈ insertBlock f, Concerns f.id c := by
  simp [insertBlock]

theorem concerns_changeBlock (t : TaskChange) :
    ∀ c ∈ changeBlock r mod nowMs t, Concerns t.task.id c := by
  dsimp only [changeBlock]
  split_ifs <;> simp

/-- The parts of a block that are about docs and locks leave tasks alone. -/
theorem spares_writeLock (id : String) (g : SetName) (l : Lock) (now : Time) :
    ∀ c ∈ writeLock g l now, Spares id c := by
  unfold writeLock
  split_ifs <;> simp

theorem spares_docDeleteBlock (id : String) (d : DocID) :
    ∀ c ∈ docDeleteBlock r d, Spares id c := by
  simp [docDeleteBlock]

theorem spares_docInsertBlock (id : String) (f : DocFields) :
    ∀ c ∈ docInsertBlock f, Spares id c := by
  simp [docInsertBlock]

theorem spares_docChangeBlock (id : String) (d : DocChange) :
    ∀ c ∈ docChangeBlock r nowMs d, Spares id c := by
  simp [docChangeBlock]

def taskBlocks (r : Reads) (mod : Modification) (nowMs : ℤ) (gen : ℕ → String) :
    List (String × List Cmd) :=
  mod.deletes.map (fun t => (t.id, deleteBlock r t)) ++
    mod.changes.map (fun c => (c.task.id, changeBlock r mod nowMs c)) ++
    (taskInserts mod nowMs gen).map fun f => (f.id, insertBlock f)

theorem concerns_taskBlocks {gen : ℕ → String} {p : String × List Cmd}
    (hp : p ∈ taskBlocks r mod nowMs gen) : ∀ c ∈ p.2, Concerns p.1 c := by
  simp only [taskBlocks, List.mem_append, List.mem_map] at hp
  rcases hp with (⟨t, -, rfl⟩ | ⟨c, -, rfl⟩) | ⟨f, -, rfl⟩
  · exact concerns_deleteBlock t
  · exact concerns_changeBlock c
  · exact concerns_insertBlock f

theorem sameTask_multi (plan : Plan) (gen : ℕ → String) (db : Redis) (id : String) :
    SameTask id (db.exec ((taskBlocks r mod nowMs gen).flatMap Prod.snd))
      (db.exec (multi r mod nowMs plan gen).block) := by
  have hblock : (multi r mod nowMs plan gen).block =
      (taskBlocks r mod nowMs gen).flatMap Prod.snd ++
        (mod.docDeletes.flatMap (docDeleteBlock r) ++
          (docInserts mod nowMs gen).flatMap docInsertBlock ++
          mod.docChanges.flatMap (docChangeBlock r nowMs) ++ lockBlock nowMs plan) := by
    simp [multi, taskBlocks, List.flatMap_map]
  rw [hblock, Keyspace.exec_append]
  apply SameTask.exec
  intro c hc
  simp only [List.mem_append, List.mem_flatMap, lockBlock] at hc
  rcases hc with ((⟨d, -, hc⟩ | ⟨f, -, hc⟩) | ⟨d, -, hc⟩) | ⟨gl, -, hc⟩
  · exact spares_docDeleteBlock id d c hc
  · exact spares_docInsertBlock id f c hc
  · exact spares_docChangeBlock id d c hc
  · exact spares_writeLock id gl.1 gl.2 _ c hc

theorem exec_blocks {l : List (String × List Cmd)} (hn : (l.map Prod.fst).Nodup)
    (hown : ∀ p ∈ l, ∀ c ∈ p.2, Concerns p.1 c) (db : Redis) (id : String) :
    SameTask id db (db.exec (l.flatMap Prod.snd)) ∨
      ∃ b db', (id, b) ∈ l ∧ SameTask id db db' ∧
        SameTask id (db'.exec b) (db.exec (l.flatMap Prod.snd)) := by
  have hspares {l : List (String × List Cmd)} (hown : ∀ p ∈ l, ∀ c ∈ p.2, Concerns p.1 c)
      (hid : id ∉ l.map Prod.fst) : ∀ c ∈ l.flatMap Prod.snd, Spares id c := by
    intro c hc
    obtain ⟨p, hp, hc⟩ := List.mem_flatMap.mp hc
    exact (hown p hp c hc).spares fun he => hid (List.mem_map.mpr ⟨p, hp, he.symm⟩)
  by_cases hid : id ∈ l.map Prod.fst
  · right
    obtain ⟨⟨id, b⟩, hp, rfl⟩ := List.mem_map.mp hid
    obtain ⟨l₁, l₂, rfl⟩ := List.append_of_mem hp
    rw [List.map_append, List.map_cons, List.nodup_middle, List.nodup_cons, List.mem_append,
      not_or] at hn
    refine ⟨b, db.exec (l₁.flatMap Prod.snd), hp, SameTask.exec db ?_, ?_⟩
    · exact hspares (fun p hp => hown p (List.mem_append_left _ hp)) hn.1.1
    · rw [List.flatMap_append, List.flatMap_cons, Keyspace.exec_append, Keyspace.exec_append]
      apply SameTask.exec
      exact hspares (fun p hp => hown p (List.mem_append_right _ (List.mem_cons_of_mem _ hp))) hn.1.2
  · exact .inl (SameTask.exec db (hspares hown hid))

end Blocks

/-! ## The tasks a modification writes -/

def generatedIDs (mod : Modification) (gen : ℕ → String) : List String :=
  (mod.inserts.mapIdx fun i td => if td.id = "" then some (gen i) else none).filterMap id

/-- A generated ID is new: it is made up once, the modification does not name it, and no task has
it. -/
structure FreshIDs (db : Redis) (mod : Modification) (gen : ℕ → String) : Prop where
  once : (generatedIDs mod gen).Nodup
  unnamed : ∀ id ∈ generatedIDs mod gen, id ∉ mod.taskNames
  unused : ∀ id ∈ generatedIDs mod gen, taskHash db id = none

instance (db : Redis) (mod : Modification) (gen : ℕ → String) : Decidable (FreshIDs db mod gen) :=
  decidable_of_iff ((generatedIDs mod gen).Nodup ∧
      (∀ id ∈ generatedIDs mod gen, id ∉ mod.taskNames) ∧
      ∀ id ∈ generatedIDs mod gen, taskHash db id = none)
    ⟨fun h => ⟨h.1, h.2.1, h.2.2⟩, fun h => ⟨h.once, h.unnamed, h.unused⟩⟩

theorem insertIDs_perm (l : List TaskData) (gen : ℕ → String) :
    (l.mapIdx fun i td => idOr gen td.id i).Perm
      ((l.mapIdx fun i td => if td.id = "" then some (gen i) else none).filterMap id ++
        (l.filter (·.id != "")).map TaskData.id) := by
  induction l generalizing gen with
  | nil => exact .nil
  | cons td l ih =>
    have ih := ih fun i => gen (i + 1)
    rw [List.mapIdx_cons, List.mapIdx_cons]
    by_cases hid : td.id = ""
    · simpa [idOr, hid] using ih
    · rw [idOr, if_neg hid, if_neg hid, List.filterMap_cons_none rfl,
        List.filter_cons_of_pos (by simpa using hid), List.map_cons]
      exact (ih.cons td.id).trans List.perm_middle.symm

theorem taskInserts_ids (mod : Modification) (nowMs : ℤ) (gen : ℕ → String) :
    (taskInserts mod nowMs gen).map TaskFields.id =
      mod.inserts.mapIdx fun i td => idOr gen td.id i := by
  apply List.ext_getElem
  · simp [taskInserts]
  · intro i h₁ h₂
    simp [taskInserts, insertedFields]

section Checks
variable {states : FMap String TaskFields} {mod : Modification} {nowMs : ℤ}

theorem missing_none {t : TaskID} (h : missing states t = none) :
    ∃ f, states.lookup t.id = some f := by
  unfold missing at h
  cases hf : states.lookup t.id with
  | none =>
    rw [hf] at h
    cases h
  | some f => exact ⟨f, rfl⟩

/-- The tasks deleted and changed were found, and those inserted were not. -/
structure Found (states : FMap String TaskFields) (mod : Modification) : Prop where
  deletes : ∀ t ∈ mod.deletes, ∃ f, states.lookup t.id = some f
  changes : ∀ c ∈ mod.changes, ∃ f, states.lookup c.task.id = some f
  inserts : ∀ t ∈ mod.inserts, t.id ≠ "" → states.lookup t.id = none

theorem found_of_checkTasks (h : (checkTasks states mod nowMs).hasAny = false) :
    Found states mod := by
  have htasks := ((checkTasks states mod nowMs).hasAny_eq_false_iff.mp h).1
  have hdeletes := htasks .deletes
  have hchanges := htasks .changes
  have hinserts := htasks .inserts
  simp only [DependencyError.tasks, checkTasks, List.filterMap_eq_nil_iff, List.mem_map,
    forall_exists_index, and_imp, forall_apply_eq_imp_iff₂] at hdeletes hchanges hinserts
  constructor
  · intro t ht
    exact missing_none (hdeletes t ht)
  · intro c hc
    exact missing_none (hchanges c hc)
  · intro t ht hid
    have hnone := hinserts t ht
    rw [if_neg hid, Option.map_eq_none_iff] at hnone
    exact hnone

theorem found_of_depErr {r : Reads} (h : depErr mod nowMs r = none) :
    Found r.states (changed mod r) := by
  rw [depErr, DependencyError.merge, DependencyError.reported_eq_none_iff] at h
  have hchecks : (checkTasks r.states (changed mod r) nowMs).hasAny = false :=
    ((DependencyError.Collects.self _).merged (.self _)).hasAny_eq_false.mp h _ (by simp)
  exact found_of_checkTasks hchecks

end Checks

theorem nodup_written {C D A P E G I : List String} (h : (C ++ D ++ A ++ P ++ E).Nodup)
    (hG : G.Nodup) (hnew : ∀ x ∈ G, x ∉ C ++ D ++ A ++ P ++ E) (hI : I.Perm (G ++ E)) :
    (D ++ (C ++ A) ++ I).Nodup := by
  rw [(hI.append_left _).nodup_iff]
  simp only [List.nodup_append, List.mem_append, not_or] at h hnew ⊢
  grind

section Named
variable {mod : Modification} {db : Redis}

theorem taskHash_of_states {id : String} {f : TaskFields}
    (h : (read mod db).states.lookup id = some f) : taskHash db id = some f := by
  rw [states_eq] at h
  split_ifs at h
  exact h

theorem changed_ids (hnamed : ∀ id f, taskHash db id = some f → f.id = id) :
    (changed mod (read mod db)).changes.map (fun c => c.task.id) =
      mod.changes.map (fun c => c.task.id) ++ mod.arrives.map fun a => a.taskID.id := by
  have horigins : (changed mod (read mod db)).changes.map TaskChange.origin =
      mod.changes.map TaskChange.origin ++ mod.arrives.map TaskArrival.taskID := by
    apply arrivalChanges_origins
    intro id t ht
    rw [FMap.lookup_gather, states_eq] at ht
    split_ifs at ht
    obtain ⟨f, hf, rfl⟩ := Option.map_eq_some_iff.mp ht
    exact hnamed id f hf
  simpa [Function.comp_def, TaskChange.origin] using congrArg (List.map TaskID.id) horigins

theorem taskHash_insert {gen : ℕ → String} (hfresh : FreshIDs db mod gen)
    (hfound : Found (read mod db).states (changed mod (read mod db))) {i : ℕ} {td : TaskData}
    (htd : mod.inserts[i]? = some td) : taskHash db (idOr gen td.id i) = none := by
  unfold idOr
  split_ifs with hid
  · apply hfresh.unused
    rw [generatedIDs, List.mem_filterMap]
    refine ⟨some (gen i), ?_, rfl⟩
    rw [List.mem_iff_getElem?]
    exact ⟨i, by simp [htd, hid]⟩
  · have hmem : td ∈ mod.inserts := List.mem_of_getElem? htd
    have hnone := hfound.inserts td hmem hid
    rwa [lookup_states (mem_allIDs_of_insert hmem hid)] at hnone

theorem taskBlocks_nodup (hnamed : ∀ id f, taskHash db id = some f → f.id = id)
    (htask : mod.taskNames.Nodup) {gen : ℕ → String} (hfresh : FreshIDs db mod gen) (nowMs : ℤ) :
    ((taskBlocks (read mod db) (changed mod (read mod db)) nowMs gen).map Prod.fst).Nodup := by
  have hids : (taskBlocks (read mod db) (changed mod (read mod db)) nowMs gen).map Prod.fst =
      mod.deletes.map TaskID.id ++ (mod.changes.map (fun c => c.task.id) ++
        mod.arrives.map fun a => a.taskID.id) ++ mod.inserts.mapIdx fun i td => idOr gen td.id i := by
    rw [← changed_ids hnamed, ← taskInserts_ids mod nowMs gen]
    simp [taskBlocks, Function.comp_def]
    rfl
  rw [hids]
  exact nodup_written htask hfresh.once hfresh.unnamed (insertIDs_perm mod.inserts gen)

end Named

/-! ## One call -/

section Call
variable {latest : ℤ} {db : Redis}

theorem Filed.modify (h : ∀ id, Filed latest db id) {mod : Modification} {nowMs : ℤ}
    {gen : ℕ → String} (hfresh : FreshIDs db mod gen)
    (hnow : arrivalPastWindow / millisecond ≤ nowMs) (hl : nowMs ≤ latest) (id : String) :
    Filed latest (Eqredis.modify db mod nowMs gen).1 id := by
  unfold Eqredis.modify
  cases hv : Validate.modification mod with
  | some e => exact h id
  | none =>
    dsimp only
    cases hm : modifyOnce mod nowMs (read mod db) gen with
    | error e => exact h id
    | ok m =>
      obtain ⟨hdep, rfl⟩ := modifyOnce_ok hm
      have hfound := found_of_depErr hdep
      have htask : mod.taskNames.Nodup := by
        rw [← Modification.taskKeys_eq]
        exact (Validate.modification_none mod hv).taskOnce
      have hnodup := taskBlocks_nodup (fun id f => (h id).named f) htask hfresh nowMs
      dsimp only
      suffices Filed latest (db.exec ((taskBlocks (read mod db) (changed mod (read mod db)) nowMs
          gen).flatMap Prod.snd)) id from this.congr (sameTask_multi _ _ _ _) le_rfl
      rcases exec_blocks hnodup (fun p hp => concerns_taskBlocks hp) db id with
        hsame | ⟨b, db', hb, hsame, hsame'⟩
      · exact (h id).congr hsame le_rfl
      · have h' := (h id).congr hsame le_rfl
        suffices Filed latest (db'.exec b) id from this.congr hsame' le_rfl
        simp only [taskBlocks, List.mem_append, List.mem_map, Prod.mk.injEq] at hb
        rcases hb with (⟨t, ht, rfl, rfl⟩ | ⟨c, hc, rfl, rfl⟩) | ⟨f, hf, rfl, rfl⟩
        · obtain ⟨f, hf⟩ := hfound.deletes t ht
          exact h'.delete (hsame.hash.trans (taskHash_of_states hf)) rfl hf
        · obtain ⟨f, hf⟩ := hfound.changes c hc
          exact h'.change (hsame.hash.trans (taskHash_of_states hf)) rfl hf hnow hl
        · obtain ⟨i, hi, rfl⟩ := List.mem_mapIdx.mp hf
          refine h'.insert (hsame.hash.trans ?_) rfl (unixMilli_normalizeArrival hnow _) rfl
          exact taskHash_insert hfresh hfound (List.getElem?_eq_getElem hi)

theorem mem_zrangeByScore {key m : String} {max : ℤ} (h : m ∈ zrangeByScore db key max) :
    ∃ x, (db.zsets key).lookup m = some x := by
  simp only [zrangeByScore, List.mem_map, Finset.mem_sort, Finset.mem_image, Finset.mem_filter,
    Finmap.mem_keys] at h
  obtain ⟨p, ⟨m', ⟨hm', -⟩, rfl⟩, rfl⟩ := h
  exact Finmap.mem_iff.mp hm'

theorem claimScript_cases (h : ∀ id, Filed latest db id) (queue claimant : String)
    (nowMs newAtMs : ℤ) (offset : ℕ) :
    claimScript db queue claimant nowMs newAtMs offset = ([], none) ∨
      ∃ id f, taskHash db id = some f ∧ f.queue = queue ∧
        claimScript db queue claimant nowMs newAtMs offset =
          (claimBlock claimant nowMs newAtMs id f, some (claimedFields claimant nowMs newAtMs f)) := by
  unfold claimScript
  dsimp only
  generalize hids : (zrangeByScore db (queueKey queue) nowMs).take claimWindow = ids
  generalize hrot : ids.drop (offset % ids.length) ++ ids.take (offset % ids.length) = rot
  cases rot with
  | nil => exact .inl rfl
  | cons id rest =>
    right
    have hid : id ∈ zrangeByScore db (queueKey queue) nowMs := by
      have hmem : id ∈ ids.drop (offset % ids.length) ++ ids.take (offset % ids.length) := by
        rw [hrot]
        exact List.mem_cons_self ..
      rw [List.mem_append] at hmem
      have hin : id ∈ ids := hmem.elim List.mem_of_mem_drop List.mem_of_mem_take
      rw [← hids] at hin
      exact List.mem_of_mem_take hin
    -- every member of the queue has a hash, so the first candidate is taken
    obtain ⟨x, hx⟩ := mem_zrangeByScore hid
    obtain ⟨f, hf, rfl, -⟩ := ((h id).queued queue x).mp hx
    refine ⟨id, f, hf, rfl, ?_⟩
    rw [claimLoop, hf]
    rfl

theorem concerns_claimBlock (claimant : String) (nowMs newAtMs : ℤ) (id : String)
    (f : TaskFields) : ∀ c ∈ claimBlock claimant nowMs newAtMs id f, Concerns id c := by
  simp [claimBlock]

def CountsFit (db : Redis) (visits : List (String × ℕ)) : Prop :=
  ∀ v ∈ visits, ∀ id ∈ (db.zsets (queueKey v.1)).keys,
    (taskHash db id).all (fun f => decide (f.claims.toInt < 2 ^ 31 - 1)) = true

instance (db : Redis) (visits : List (String × ℕ)) : Decidable (CountsFit db visits) :=
  inferInstanceAs (Decidable (∀ v ∈ visits, ∀ id ∈ (db.zsets (queueKey v.1)).keys, _))

theorem Filed.tryQueues (h : ∀ id, Filed latest db id) {cq : ClaimQuery} (hcq : 0 ≤ cq.duration)
    {now : Time} (hnow : 0 ≤ unixMilli now) {visits : List (String × ℕ)}
    (hfit : CountsFit db visits) (id : String) :
    Filed latest (Eqredis.tryQueues cq now db visits).1 id := by
  induction visits with
  | nil => exact h id
  | cons v visits ih =>
    obtain ⟨queue, offset⟩ := v
    have hrest : CountsFit db visits := fun v hv => hfit v (List.mem_cons_of_mem _ hv)
    rw [Eqredis.tryQueues, tryClaimOne]
    rcases claimScript_cases h queue cq.claimant (unixMilli now) (unixMilli (now + cq.duration))
      offset with hnone | ⟨id', f, hf, hq, hsome⟩
    · rw [hnone]
      exact ih hrest
    · rw [hsome]
      dsimp only
      by_cases hid : id = id'
      · subst hid
        have hlater : unixMilli now ≤ unixMilli (now + cq.duration) :=
          Int.ediv_le_ediv (by decide) (sub_le_sub_right (le_add_of_nonneg_right hcq) _)
        have hmem : id ∈ (db.zsets (queueKey queue)).keys := by
          rw [Finmap.mem_keys]
          exact Finmap.mem_of_lookup_eq_some (((h id).queued queue f.atMs).mpr ⟨f, hf, hq, rfl⟩)
        have hcount := hfit (queue, offset) (List.mem_cons_self ..) id hmem
        rw [hf, Option.all_some, decide_eq_true_iff] at hcount
        exact (h id).claim hf (hnow.trans hlater) hcount
      · apply (h id).congr (SameTask.exec db fun c hc =>
          (concerns_claimBlock _ _ _ id' f c hc).spares hid) le_rfl

theorem Filed.claimDocs (h : ∀ id, Filed latest db id) (cq : DocClaim) (now until_ : Time)
    (id : String) : Filed latest (db.exec (claimDocsBlock db cq now until_)) id := by
  apply (h id).congr (SameTask.exec db _) le_rfl
  intro c hc
  unfold claimDocsBlock at hc
  split at hc
  · cases hc
  · obtain ⟨gl, -, hc⟩ := List.mem_flatMap.mp hc
    exact spares_writeLock id gl.1 gl.2 now c hc

end Call

end EntroQ.Eqredis
