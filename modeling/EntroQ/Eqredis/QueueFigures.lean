import EntroQ.Eqredis.TaskIndexes

/-! # The figures of a queue

`QueueStats` reads the sizes and scores of sorted sets and no task hash. In a run of modifications
and claims its figures are those of the hashes, if no call of the run is after the time that they
are read at. -/

namespace EntroQ.Eqredis
open Foundation Docset

/-! ## What the hashes say -/

section Hashes
variable (db : Redis) (nowMs : ℤ) (name : String)

def tasksOf (passes : TaskFields → Prop) : Set String :=
  {id | ∃ f, taskHash db id = some f ∧ f.queue = name ∧ passes f}

/-- The figures of the queue, from the hashes of its tasks. A task that is not yet available is
claimed if it ever was, and otherwise future. -/
noncomputable def hashStat : QueueStat where
  name
  size := (tasksOf db name fun _ => True).ncard
  claimed := (tasksOf db name fun f => nowMs < f.atMs ∧ 0 < f.claims).ncard
  available := (tasksOf db name fun f => f.atMs ≤ nowMs).ncard
  future := (tasksOf db name fun f => nowMs < f.atMs ∧ ¬0 < f.claims).ncard
  maxClaims := sSup (insert 0 {x | ∃ id f, taskHash db id = some f ∧ f.queue = name ∧
    f.claims.toInt = x})

end Hashes

section Figures
variable {db : Redis} {nowMs latest : ℤ} {name : String}

theorem tasksOf_eq (h : ∀ id, Filed latest db id) (passes : TaskFields → Prop)
    [DecidablePred passes] : tasksOf db name passes =
      ↑((db.zsets (queueKey name)).keys.filter fun id =>
        (taskHash db id).any (fun f => decide (passes f)) = true) := by
  ext id
  rw [Finset.coe_filter, Set.mem_ofPred_eq, Finmap.mem_keys]
  constructor
  · rintro ⟨f, hf, hq, hp⟩
    refine ⟨Finmap.mem_of_lookup_eq_some (((h id).queued name f.atMs).mpr ⟨f, hf, hq, rfl⟩), ?_⟩
    simp [hf, hp]
  · rintro ⟨hmem, hp⟩
    obtain ⟨x, hx⟩ := Finmap.mem_iff.mp hmem
    obtain ⟨f, hf, hq, -⟩ := ((h id).queued name x).mp hx
    refine ⟨f, hf, hq, ?_⟩
    simpa [hf] using hp

theorem ncard_tasksOf (h : ∀ id, Filed latest db id) (passes : TaskFields → Prop)
    [DecidablePred passes] : (tasksOf db name passes).ncard =
      ((db.zsets (queueKey name)).keys.filter fun id =>
        (taskHash db id).any (fun f => decide (passes f)) = true).card := by
  rw [tasksOf_eq h passes, Set.ncard_coe_finset]

theorem size_eq (h : ∀ id, Filed latest db id) :
    zcard db (queueKey name) = (tasksOf db name fun _ => True).ncard := by
  rw [ncard_tasksOf h, zcard, Finset.filter_true_of_mem]
  intro id hid
  obtain ⟨x, hx⟩ := Finmap.mem_iff.mp (Finmap.mem_keys.mp hid)
  obtain ⟨f, hf, -⟩ := ((h id).queued name x).mp hx
  simp [hf]

theorem available_eq (h : ∀ id, Filed latest db id) :
    zcount db (queueKey name) (fun x => decide (0 ≤ x ∧ x ≤ nowMs)) =
      (tasksOf db name fun f => f.atMs ≤ nowMs).ncard := by
  rw [ncard_tasksOf h, zcount]
  congr 1
  apply Finset.filter_congr
  intro id hid
  obtain ⟨x, hx⟩ := Finmap.mem_iff.mp (Finmap.mem_keys.mp hid)
  obtain ⟨f, hf, -, rfl⟩ := ((h id).queued name x).mp hx
  rw [hx]
  simp [hf, ((h id).bounds f hf).1]

theorem claimed_eq (h : ∀ id, Filed nowMs db id) :
    zcount db (qsclaimedKey name) (fun x => decide (nowMs < x)) =
      (tasksOf db name fun f => nowMs < f.atMs ∧ 0 < f.claims).ncard := by
  rw [zcount, ← Set.ncard_coe_finset]
  congr 1
  ext id
  rw [Finset.coe_filter, Set.mem_ofPred_eq, Finmap.mem_keys]
  constructor
  · rintro ⟨hmem, hx⟩
    obtain ⟨x, hlookup⟩ := Finmap.mem_iff.mp hmem
    obtain ⟨f, hf, hq, hpos, rfl⟩ := (h id).claimed name x hlookup
    rw [hlookup, Option.any_some, decide_eq_true_iff] at hx
    exact ⟨f, hf, hq, hx, hpos⟩
  · rintro ⟨f, hf, rfl, hlater, hpos⟩
    have hlookup := (h id).waiting f hf hpos hlater
    refine ⟨Finmap.mem_of_lookup_eq_some hlookup, ?_⟩
    change (score db id (.claimed f.queue)).any _ = true
    rw [hlookup, Option.any_some, decide_eq_true_iff]
    exact hlater

/-- Tasks that pass one of two tests that exclude each other are counted apart. -/
theorem ncard_tasksOf_or (h : ∀ id, Filed latest db id) {p q : TaskFields → Prop}
    (hpq : ∀ f, p f → ¬q f) : (tasksOf db name fun f => p f ∨ q f).ncard =
      (tasksOf db name p).ncard + (tasksOf db name q).ncard := by
  classical
  have hfinite (p : TaskFields → Prop) : (tasksOf db name p).Finite := by
    rw [tasksOf_eq h p]
    exact Finset.finite_toSet _
  rw [← Set.ncard_union_eq _ (hfinite p) (hfinite q)]
  · congr 1
    ext id
    constructor
    · rintro ⟨f, hf, hq, hp | hp⟩
      · exact .inl ⟨f, hf, hq, hp⟩
      · exact .inr ⟨f, hf, hq, hp⟩
    · rintro (⟨f, hf, hq, hp⟩ | ⟨f, hf, hq, hp⟩)
      · exact ⟨f, hf, hq, .inl hp⟩
      · exact ⟨f, hf, hq, .inr hp⟩
  · rw [Set.disjoint_left]
    rintro id ⟨f, hf, -, hp⟩ ⟨f', hf', -, hq⟩
    cases hf.symm.trans hf'
    exact hpq f hp hq

theorem future_eq (h : ∀ id, Filed nowMs db id) :
    zcard db (queueKey name) - zcount db (queueKey name) (fun x => decide (0 ≤ x ∧ x ≤ nowMs)) -
        zcount db (qsclaimedKey name) (fun x => decide (nowMs < x)) =
      (tasksOf db name fun f => nowMs < f.atMs ∧ ¬0 < f.claims).ncard := by
  have hall : (fun _ : TaskFields => True) = fun f : TaskFields =>
      (f.atMs ≤ nowMs ∨ nowMs < f.atMs ∧ 0 < f.claims) ∨ nowMs < f.atMs ∧ ¬0 < f.claims := by
    funext f
    by_cases hpos : 0 < f.claims <;> simp [hpos, le_or_gt]
  rw [size_eq h, available_eq h, claimed_eq h, hall, ncard_tasksOf_or h, ncard_tasksOf_or h]
  · omega
  · intro f hnow hlater
    omega
  · rintro f (hnow | ⟨-, hpos⟩) ⟨hlater, hzero⟩
    · omega
    · exact hzero hpos

theorem isGreatest_max {Z : Finset ℤ} {S : Set ℤ} (hZ : ∀ x ∈ Z, x ∈ S ∧ 0 < x)
    (hS : ∀ x ∈ S, x ∈ Z ∨ x = 0) : IsGreatest (insert 0 S) (Z.max.unbotD 0) := by
  rcases Z.eq_empty_or_nonempty with rfl | hne
  · refine ⟨Set.mem_insert 0 S, ?_⟩
    rintro x (rfl | hx)
    · exact le_rfl
    · exact ((hS x hx).resolve_left (Finset.notMem_empty x)).le
  · rw [← Finset.coe_max' hne, WithBot.unbotD_coe]
    obtain ⟨hin, hpos⟩ := hZ _ (Z.max'_mem hne)
    refine ⟨Set.mem_insert_of_mem 0 hin, ?_⟩
    rintro x (rfl | hx)
    · exact hpos.le
    · rcases hS x hx with hx | rfl
      · exact Z.le_max' x hx
      · exact hpos.le

theorem maxClaims_eq (h : ∀ id, Filed latest db id) :
    ((db.zsets (qsclaimsKey name)).keys.image fun m =>
        ((db.zsets (qsclaimsKey name)).lookup m).getD 0).max.unbotD 0 =
      sSup (insert 0 {x | ∃ id f, taskHash db id = some f ∧ f.queue = name ∧
        f.claims.toInt = x}) := by
  have hlookup (x : ℤ) (m : String) (hm : m ∈ (db.zsets (qsclaimsKey name)).keys) :
      ((db.zsets (qsclaimsKey name)).lookup m).getD 0 = x ↔
        (db.zsets (qsclaimsKey name)).lookup m = some x := by
    obtain ⟨y, hy⟩ := Finmap.mem_iff.mp (Finmap.mem_keys.mp hm)
    rw [hy, Option.getD_some, Option.some.injEq]
  apply (IsGreatest.csSup_eq (isGreatest_max _ _)).symm
  · intro x hx
    obtain ⟨id, hid, hx⟩ := Finset.mem_image.mp hx
    obtain ⟨f, hf, hq, hpos, hx⟩ := ((h id).counted name x).mp ((hlookup x id hid).mp hx)
    refine ⟨⟨id, f, hf, hq, hx⟩, ?_⟩
    rw [← hx, ← Int32.toInt_zero]
    exact Int32.lt_iff_toInt_lt.mp hpos
  · rintro x ⟨id, f, hf, hq, rfl⟩
    by_cases hpos : 0 < f.claims
    · have hscore := ((h id).counted name f.claims.toInt).mpr ⟨f, hf, hq, hpos, rfl⟩
      have hid : id ∈ (db.zsets (qsclaimsKey name)).keys :=
        Finmap.mem_keys.mpr (Finmap.mem_of_lookup_eq_some hscore)
      exact .inl (Finset.mem_image.mpr ⟨id, hid, (hlookup _ id hid).mpr hscore⟩)
    · right
      rw [Int32.le_antisymm (Int32.not_lt.mp hpos) ((h id).bounds f hf).2, Int32.toInt_zero]

/-- The figures that are read off the sorted sets are those of the hashes. -/
theorem queueStat_eq (h : ∀ id, Filed nowMs db id) :
    queueStat db nowMs name = hashStat db nowMs name := by
  rw [queueStat, hashStat]
  simp only [QueueStat.mk.injEq, true_and]
  exact ⟨size_eq h, claimed_eq h, available_eq h, future_eq h, maxClaims_eq h⟩

theorem size_ne_zero_iff (h : ∀ id, Filed latest db id) :
    (queueStat db nowMs name).size ≠ 0 ↔ ∃ id f, taskHash db id = some f ∧ f.queue = name := by
  change zcard db (queueKey name) ≠ 0 ↔ _
  rw [zcard, Finset.card_ne_zero]
  constructor
  · rintro ⟨id, hid⟩
    obtain ⟨x, hx⟩ := Finmap.mem_iff.mp (Finmap.mem_keys.mp hid)
    obtain ⟨f, hf, hq, -⟩ := ((h id).queued name x).mp hx
    exact ⟨id, f, hf, hq⟩
  · rintro ⟨id, f, hf, hq⟩
    have hx := ((h id).queued name f.atMs).mpr ⟨f, hf, hq, rfl⟩
    exact ⟨id, Finmap.mem_keys.mpr (Finmap.mem_of_lookup_eq_some hx)⟩

theorem of_mem_queueStats {qq : QueuesQuery} {st : QueueStat} (h : st ∈ queueStats db nowMs qq) :
    ∃ q, matchesQueuesQuery q qq = true ∧ st = queueStat db nowMs q ∧ st.size ≠ 0 := by
  have hall : st ∈ ((((db.sets queuesKey).filter fun q => matchesQueuesQuery q qq).sort
      (· ≤ ·)).map (queueStat db nowMs)).filter fun st => st.size != 0 := by
    dsimp only [queueStats] at h
    split_ifs at h
    · exact List.mem_of_mem_take h
    · exact h
  rw [List.mem_filter, List.mem_map] at hall
  obtain ⟨⟨q, hq, rfl⟩, hsize⟩ := hall
  rw [Finset.mem_sort, Finset.mem_filter] at hq
  exact ⟨q, hq.2, rfl, bne_iff_ne.mp hsize⟩

end Figures

/-! ## Runs -/

/-- A call that nothing comes in between. -/
inductive TaskCall
  | modify (mod : Modification) (nowMs : ℤ) (gen : ℕ → String)
  | tryClaim (cq : ClaimQuery) (now : Time) (visits : List (String × ℕ))
  | claimDocs (cq : DocClaim) (now until_ : Time)

namespace TaskCall

def next (db : Redis) : TaskCall → Redis
  | .modify mod nowMs gen => (Eqredis.modify db mod nowMs gen).1
  | .tryClaim cq now visits => (Eqredis.tryClaim db cq now visits).1
  | .claimDocs cq now until_ => db.exec (claimDocsBlock db cq now until_)

def clock : TaskCall → ℤ
  | .modify _ nowMs _ => nowMs
  | .tryClaim _ now _ => unixMilli now
  | .claimDocs _ now _ => unixMilli now

def Fits (db : Redis) : TaskCall → Prop
  | .modify mod _ gen => FreshIDs db mod gen
  | .tryClaim _ _ visits => CountsFit db visits
  | .claimDocs _ _ _ => True

/-- The clock is at least as far after the epoch as an arrival may lie in the past, and not after
the latest time. -/
def Timely (latest : ℤ) (c : TaskCall) : Prop :=
  arrivalPastWindow / millisecond ≤ c.clock ∧ c.clock ≤ latest

instance (db : Redis) : (c : TaskCall) → Decidable (c.Fits db)
  | .modify mod _ gen => inferInstanceAs (Decidable (FreshIDs db mod gen))
  | .tryClaim _ _ visits => inferInstanceAs (Decidable (CountsFit db visits))
  | .claimDocs _ _ _ => inferInstanceAs (Decidable True)

instance (latest : ℤ) (c : TaskCall) : Decidable (c.Timely latest) :=
  inferInstanceAs (Decidable (_ ∧ _))

theorem next_filed {latest : ℤ} {db : Redis} {c : TaskCall} (hfits : c.Fits db)
    (htimely : c.Timely latest) (h : ∀ id, Filed latest db id) (id : String) :
    Filed latest (c.next db) id := by
  cases c with
  | modify mod now gen => exact Filed.modify h hfits htimely.1 htimely.2 id
  | claimDocs cq now until_ => exact Filed.claimDocs h cq now until_ id
  | tryClaim cq now visits =>
    change Filed latest (Eqredis.tryClaim db cq now visits).1 id
    unfold Eqredis.tryClaim
    cases hv : Validate.claim cq with
    | some e => exact h id
    | none =>
      have hduration : 0 ≤ cq.duration := by
        unfold Validate.claim at hv
        split_ifs at hv with _ _ hpos _
        exact (not_le.mp hpos).le
      have hwindow : 0 ≤ arrivalPastWindow / millisecond := by decide
      exact Filed.tryQueues h hduration (hwindow.trans htimely.1) hfits id

theorem tryQueues_registered {db : Redis} (h : Registered db) (cq : ClaimQuery) (now : Time)
    (visits : List (String × ℕ)) : Registered (tryQueues cq now db visits).1 := by
  induction visits generalizing db with
  | nil => exact h
  | cons v visits ih =>
    obtain ⟨queue, offset⟩ := v
    have hone : Registered (tryClaimOne db queue cq.claimant cq.duration now offset).1 :=
      (covered_claimLoop _ db ..).registered h
    rw [tryQueues]
    split
    · next db' f hr =>
      rw [hr] at hone
      exact hone
    · next db' hr =>
      rw [hr] at hone
      exact ih hone

theorem next_registered {db : Redis} (h : Registered db) (c : TaskCall) :
    Registered (c.next db) := by
  cases c with
  | modify mod nowMs gen =>
    change Registered (Eqredis.modify db mod nowMs gen).1
    unfold Eqredis.modify
    split
    · exact h
    · split
      · exact h
      · next m hm =>
        rw [(modifyOnce_ok hm).2]
        exact (covered_multi _ _ _ _ _).registered h
  | tryClaim cq now visits =>
    change Registered (Eqredis.tryClaim db cq now visits).1
    unfold Eqredis.tryClaim
    split
    · exact h
    · exact tryQueues_registered h cq now visits
  | claimDocs cq now until_ => exact (covered_claimDocsBlock db cq now until_).registered h

end TaskCall

section Run
variable {latest : ℤ} {calls : List TaskCall}

theorem run_filed (hrun : Along TaskCall.next (fun db c => c.Fits db ∧ c.Timely latest) {} calls) :
    (∀ id, Filed latest (after TaskCall.next {} calls) id) ∧
      Registered (after TaskCall.next {} calls) := by
  apply hrun.invariant (I := fun db => (∀ id, Filed latest db id) ∧ Registered db)
  · rintro db c ⟨hfiled, hreg⟩ ⟨hfits, htimely⟩
    exact ⟨TaskCall.next_filed hfits htimely hfiled, TaskCall.next_registered hreg c⟩
  · exact ⟨Filed.empty latest, Registered.empty⟩

/-- After a run of modifications and claims the size of every queue, the number of its available
tasks and its most claims are those of the hashes at every time, and all of its figures are at a
time that is not before any of the calls. The queues that are listed are those that have tasks. -/
theorem queueStats_from_hashes
    (hrun : Along TaskCall.next (fun db c => c.Fits db ∧ c.Timely latest) {} calls) :
    let db := after TaskCall.next {} calls
    ∀ nowMs,
      (∀ q, (queueStat db nowMs q).size = (hashStat db nowMs q).size ∧
        (queueStat db nowMs q).available = (hashStat db nowMs q).available ∧
        (queueStat db nowMs q).maxClaims = (hashStat db nowMs q).maxClaims) ∧
      (latest ≤ nowMs →
        (∀ q, queueStat db nowMs q = hashStat db nowMs q) ∧
        ∀ qq,
          (∀ st ∈ queueStats db nowMs qq, ∃ q, matchesQueuesQuery q qq = true ∧
            (∃ id f, taskHash db id = some f ∧ f.queue = q) ∧ st = hashStat db nowMs q) ∧
          (qq.limit ≤ 0 → ∀ id f, taskHash db id = some f → matchesQueuesQuery f.queue qq = true →
            hashStat db nowMs f.queue ∈ queueStats db nowMs qq)) := by
  obtain ⟨hfiled, hreg⟩ := run_filed hrun
  generalize after TaskCall.next {} calls = db at hfiled hreg
  intro db nowMs
  refine ⟨fun q => ⟨size_eq hfiled, available_eq hfiled, maxClaims_eq hfiled⟩, fun hnow => ?_⟩
  have hstat (q : String) : queueStat db nowMs q = hashStat db nowMs q :=
    queueStat_eq fun id => (hfiled id).congr (SameTask.refl id db) hnow
  refine ⟨hstat, fun qq => ⟨?_, ?_⟩⟩
  · intro st hst
    obtain ⟨q, hm, rfl, hsize⟩ := of_mem_queueStats hst
    exact ⟨q, hm, (size_ne_zero_iff hfiled).mp hsize, hstat q⟩
  · intro hlimit id f hf hm
    have hne : db.zsets (queueKey f.queue) ≠ ∅ := by
      intro he
      have hx := ((hfiled id).queued f.queue f.atMs).mpr ⟨f, hf, rfl, rfl⟩
      change (db.zsets (queueKey f.queue)).lookup id = _ at hx
      rw [he, Finmap.lookup_empty] at hx
      cases hx
    rw [← hstat]
    exact mem_queueStats (hreg.queues f.queue hne) hne nowMs hm hlimit

def claimedAndReleased : List TaskCall :=
  [.modify { claimant := "w", inserts := [{ queue := "jobs", id := "t" }] } 1700000000000
      fun _ => "",
   .tryClaim { queues := ["jobs"], claimant := "w", duration := 30 * second }
      (ofUnixMilli 1700000001000) [("jobs", 0)],
   .modify { claimant := "w", changes :=
      [{ task := { id := "t", queue := "jobs", fromQueue := "jobs", version := 1 } }] }
      1700000002000 fun _ => ""]

theorem queueStats_from_hashes_released :
    queueStat (after TaskCall.next {} claimedAndReleased) 1700000002000 "jobs" =
        hashStat (after TaskCall.next {} claimedAndReleased) 1700000002000 "jobs" ∧
      queueStat (after TaskCall.next {} claimedAndReleased) 1700000002000 "jobs" =
        { name := "jobs", size := 1, claimed := 0, available := 1, future := 0, maxClaims := 1 } := by
  have hrun : Along TaskCall.next (fun db c => c.Fits db ∧ c.Timely 1700000002000) {}
      claimedAndReleased := by decide +kernel
  exact ⟨((queueStats_from_hashes hrun 1700000002000).2 le_rfl).1 "jobs", by decide +kernel⟩

/-- Read at a time before the task was given back, it counts as future, although it was claimed. -/
theorem released_read_early :
    (queueStat (after TaskCall.next {} claimedAndReleased) 1700000001500 "jobs").future = 1 ∧
      (hashStat (after TaskCall.next {} claimedAndReleased) 1700000001500 "jobs").future = 0 := by
  refine ⟨by decide +kernel, ?_⟩
  have hfiled : ∀ id, Filed 1700000002000 (after TaskCall.next {} claimedAndReleased) id :=
    (run_filed (by decide +kernel)).1
  change (tasksOf _ "jobs" fun f => 1700000001500 < f.atMs ∧ ¬0 < f.claims).ncard = 0
  rw [ncard_tasksOf hfiled]
  decide +kernel

end Run

end EntroQ.Eqredis
