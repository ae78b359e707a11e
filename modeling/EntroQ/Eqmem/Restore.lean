import EntroQ.Eqmem.Journal
import EntroQ.Eqmem.Run

/-! # What loading does to the store

Each piece of a journal or a snapshot that names a doc or a lock writes just that one, and the
last step of a load gives each set that has docs its count. -/

namespace EntroQ.Eqmem
open Foundation Docset

def JournalLock.left (jl : JournalLock) : Option Lock := if jl.deleted then none else some jl.lock

/-- The store with other locks. -/
structure Relocked (s s' : EQMem) (L : SetName → Option Lock) : Prop where
  sound : s'.Sound
  task : s'.task = s.task
  docAt : s'.docAt = s.docAt
  count : s'.count = s.count
  lock? : s'.lock? = L

theorem restoreLock_spec {s : EQMem} (h : s.Sound) (jl : JournalLock) (hns : jl.ns ≠ "") :
    Relocked s (restoreLock s jl) (Function.update s.lock? ⟨jl.ns, jl.key⟩ jl.left) := by
  have hsame := EQMem.sameDocs_lockNamespaces (s := s) [jl.ns]
  have hne : "" ∉ [jl.ns] := by simpa using hns.symm
  have hd := h.docs.lockNamespaces hne
  obtain ⟨n, hn⟩ := EQMem.lockNamespaces_present (s := s) [jl.ns] (List.mem_singleton_self jl.ns)
  obtain ⟨-, -, hv⟩ := hd.valid _ _ hn
  let n' := if jl.deleted then n.deleteLock jl.key else n.setLock jl.key jl.lock
  have hn' : n'.Valid ∧ n'.name = n.name ∧ n'.byID = n.byID ∧ (∀ k, n'.count k = n.count k) ∧
      ∀ k, n'.lock? k = if k = jl.key then jl.left else n.lock? k := by
    unfold n' JournalLock.left
    split_ifs
    · exact ⟨hv.deleteLock _, rfl, rfl, fun _ => rfl, fun k => DocNamespace.lock?_deleteLock _ _⟩
    · exact ⟨hv.setLock _ _, rfl, rfl, fun _ => rfl, fun k => DocNamespace.lock?_setLock _ _ _⟩
  obtain ⟨hv', hname, hdocs, hcount, hlock⟩ := hn'
  obtain ⟨hd₁, ha₁, hl₁, hc₁⟩ := hd.setLock (g := ⟨jl.ns, jl.key⟩) hn n' jl.left hv' hname hdocs
    hcount hlock
  let s₁ : EQMem := { s.lockNamespaces [jl.ns] with
    namespaces := (s.lockNamespaces [jl.ns]).namespaces.insert jl.ns n' }
  have hl₁' : s₁.lock? = Function.update s.lock? ⟨jl.ns, jl.key⟩ jl.left := hsame.lock? ▸ hl₁
  have hn₁ : ∀ k, k ∉ [jl.ns] → s₁.namespaces.lookup k = s.namespaces.lookup k := by
    intro k hk
    have hne : k ≠ jl.ns := by simpa using hk
    change ((s.lockNamespaces [jl.ns]).namespaces.insert jl.ns n').lookup k = _
    rw [FMap.lookup_insert, if_neg hne]
    exact (Registry.lookup_acquire newDocNamespace _ s.namespaces k).trans (if_neg hk)
  have hstored : ∀ g l, s₁.lock? g = some l → l.stored = true := by
    intro g l hgl
    rw [hl₁'] at hgl
    by_cases hg : g = ⟨jl.ns, jl.key⟩
    · rw [hg, Function.update_self, JournalLock.left] at hgl
      split_ifs at hgl
      cases hgl
      rfl
    · rw [Function.update_of_ne hg] at hgl
      exact h.locks g l hgl
  obtain ⟨hs, ht, hd₂⟩ := h.unlock s₁ [] [jl.ns]
    ⟨h.indexed.queues, h.indexed.named, h.indexed.index⟩ hd₁
    (fun r d hr => h.docIDs r d ((congrFun (ha₁.trans hsame.docAt) r).symm.trans hr))
    hstored (fun _ _ => rfl) hn₁
  have heq : restoreLock s jl = (s₁.unlockNamespaces [jl.ns]).unlockQueues [] := by
    unfold restoreLock
    dsimp only
    rw [hn]
    rfl
  rw [heq]
  exact ⟨hs, ht, hd₂.docAt.trans (ha₁.trans hsame.docAt), hd₂.count.trans (hc₁.trans hsame.count),
    hd₂.lock?.trans hl₁'⟩

def leftLocks (L : SetName → Option Lock) (jls : List JournalLock) : SetName → Option Lock :=
  jls.foldl (fun L jl => Function.update L ⟨jl.ns, jl.key⟩ jl.left) L

theorem restoreLocks_spec {s : EQMem} (h : s.Sound) (jls : List JournalLock)
    (hns : ∀ jl ∈ jls, jl.ns ≠ "") :
    Relocked s (restoreLocks s jls) (leftLocks s.lock? jls) := by
  induction jls generalizing s with
  | nil => exact ⟨h, rfl, rfl, rfl, rfl⟩
  | cons jl jls ih =>
    obtain ⟨hjl, hrest⟩ := List.forall_mem_cons.mp hns
    have h1 := restoreLock_spec h jl hjl
    have h2 := ih h1.sound hrest
    exact ⟨h2.sound, h2.task.trans h1.task, h2.docAt.trans h1.docAt, h2.count.trans h1.count,
      h2.lock?.trans (by rw [h1.lock?]; rfl)⟩

def counting (n : ℤ) (l : Lock) : Lock := { l with numDocs := n }

def JournalLock.set (jl : JournalLock) : SetName := ⟨jl.ns, jl.key⟩

theorem leftLocks_of_notMem (L : SetName → Option Lock) (jls : List JournalLock) (g : SetName)
    (h : g ∉ jls.map JournalLock.set) : leftLocks L jls g = L g :=
  writes_of_notMem JournalLock.set JournalLock.left L jls g h

theorem leftLocks_of_mem (L : SetName → Option Lock) (jls : List JournalLock)
    (hn : (jls.map JournalLock.set).Nodup) (jl : JournalLock) (hj : jl ∈ jls) :
    leftLocks L jls jl.set = jl.left :=
  writes_of_mem JournalLock.set JournalLock.left L jls hn jl hj

theorem mem_journalLocksOf (locks : List (SetName × Lock)) (jl : JournalLock) :
    jl ∈ journalLocksOf locks ↔ ∃ gl ∈ locks, newJournalLock gl.1 gl.2 = jl := by
  rw [journalLocksOf, List.mem_insertionSort, List.mem_map]

theorem journalLocksOf_sets (locks : List (SetName × Lock)) :
    ((journalLocksOf locks).map JournalLock.set).Perm (locks.map Prod.fst) := by
  refine ((List.perm_insertionSort _ _).map JournalLock.set).trans ?_
  rw [List.map_map]
  rfl

/-- Locks written to one table and journaled to another, where the counts are left out. -/
theorem leftLocks_journalLocksOf {L L' : SetName → Option Lock} (locks : List (SetName × Lock))
    (hn : (locks.map Prod.fst).Nodup) (hs : ∀ gl ∈ locks, gl.2.stored = true) {g : SetName}
    (hg : L' g = (L g).map (counting 0)) :
    leftLocks L' (journalLocksOf locks) g = (lockEffects L locks g).map (counting 0) := by
  have hperm := journalLocksOf_sets locks
  by_cases hm : g ∈ locks.map Prod.fst
  · obtain ⟨gl, hgl, rfl⟩ := List.mem_map.mp hm
    rw [lockEffects_of_mem L locks hn gl hgl]
    refine (leftLocks_of_mem L' _ (hperm.nodup_iff.mpr hn) (newJournalLock gl.1 gl.2)
      ((mem_journalLocksOf _ _).mpr ⟨gl, hgl, rfl⟩)).trans ?_
    change some (JournalLock.lock _) = some (counting 0 gl.2)
    rw [counting, JournalLock.lock, ← hs gl hgl]
    rfl
  · rw [lockEffects_of_notMem L locks g hm, ← hg]
    exact leftLocks_of_notMem L' _ g fun hj => hm (hperm.mem_iff.mp hj)

theorem leftLocks_deleted (L : SetName → Option Lock) (locks : List (SetName × Lock))
    (hn : (locks.map Prod.fst).Nodup) (g : SetName) :
    leftLocks L ((journalLocksOf locks).map (fun l => { l with deleted := true })) g =
      if g ∈ locks.map Prod.fst then none else L g := by
  have hperm := journalLocksOf_sets locks
  have hsets : ((journalLocksOf locks).map (fun l => { l with deleted := true })).map
      JournalLock.set = (journalLocksOf locks).map JournalLock.set := by
    rw [List.map_map]
    rfl
  split_ifs with hg
  · obtain ⟨jl, hjl, rfl⟩ := List.mem_map.mp (hperm.mem_iff.mpr hg)
    refine leftLocks_of_mem L _ ?_ { jl with deleted := true } (List.mem_map_of_mem hjl)
    rw [hsets]
    exact hperm.nodup_iff.mpr hn
  · apply leftLocks_of_notMem
    rw [hsets]
    exact fun hm => hg (hperm.mem_iff.mp hm)

/-! ## Counting the docs -/

namespace DocNamespace

theorem mem_docList {n : DocNamespace} (hv : n.Valid) (d : Doc) :
    d ∈ n.docList ↔ n.byID.lookup d.id = some d := by
  simp only [docList, List.mem_filterMap, Finset.mem_sort, Finmap.mem_keys]
  constructor
  · rintro ⟨id, -, hd⟩
    rw [(hv.named id d hd).1]
    exact hd
  · intro hd
    exact ⟨d.id, Finmap.mem_of_lookup_eq_some hd, hd⟩

theorem docList_nodup {n : DocNamespace} (hv : n.Valid) : n.docList.Nodup := by
  refine List.Nodup.filterMap ?_ (Finset.sort_nodup _ _)
  intro id id' d hd hd'
  rw [← (hv.named id d hd).1, (hv.named id' d hd').1]

theorem docList_count {n : DocNamespace} (hv : n.Valid) (key : String) :
    ((n.docList.filter (fun d => d.key == key)).length : ℤ) = n.count key := by
  have hperm : (n.docList.filter (fun d => d.key == key)).Perm (n.members key) := by
    rw [List.perm_ext_iff_of_nodup ((docList_nodup hv).filter _) (hv.members_nodup key)]
    intro d
    rw [List.mem_filter, mem_docList hv, hv.mem_members, beq_iff_eq]
  rw [count, hperm.length_eq]

theorem finishedLock_setLock (n : DocNamespace) {key k : String} (l : Lock) (h : k ≠ key) :
    finishedLock (n.setLock key l) k = finishedLock n k := by
  unfold finishedLock
  rw [lock_eq, lock?_setLock, if_neg h, ← lock_eq]
  rfl

theorem finishKeys_spec {n : DocNamespace} (hv : n.Valid) (keys : List String) (hn : keys.Nodup) :
    let n' := keys.foldl (fun n key => n.setLock key (finishedLock n key)) n
    n'.Valid ∧ n'.name = n.name ∧ n'.byID = n.byID ∧ (∀ k, n'.count k = n.count k) ∧
      ∀ k, n'.lock? k = if k ∈ keys then some (finishedLock n k) else n.lock? k := by
  induction keys generalizing n with
  | nil => exact ⟨hv, rfl, rfl, fun _ => rfl, fun k => by simp⟩
  | cons key keys ih =>
    obtain ⟨hkey, hn⟩ := List.nodup_cons.mp hn
    obtain ⟨h1, h2, h3, h4, h5⟩ := ih (hv.setLock key (finishedLock n key)) hn
    refine ⟨h1, h2, h3, h4, fun k => ?_⟩
    rw [List.foldl_cons, h5, lock?_setLock]
    by_cases hk : k = key
    · subst hk
      simp [hkey]
    · rw [finishedLock_setLock n _ hk]
      simp [hk]

theorem finishNamespace_spec {n : DocNamespace} (hv : n.Valid) :
    (finishNamespace n).Valid ∧ (finishNamespace n).name = n.name ∧
      (finishNamespace n).byID = n.byID ∧ (∀ k, (finishNamespace n).count k = n.count k) ∧
      ∀ k, (finishNamespace n).lock? k =
        if n.count k = 0 then n.lock? k else some (finishedLock n k) := by
  obtain ⟨h1, h2, h3, h4, h5⟩ := finishKeys_spec hv _ (List.nodup_dedup (n.docList.map Doc.key))
  refine ⟨h1, h2, h3, h4, fun k => ?_⟩
  refine (h5 k).trans ?_
  have hmem : k ∈ (n.docList.map Doc.key).dedup ↔ n.count k ≠ 0 := by
    rw [List.mem_dedup, ← docList_count hv, ne_eq, Int.natCast_eq_zero, List.length_eq_zero_iff,
      List.filter_eq_nil_iff]
    simp
  by_cases hc : n.count k = 0
  · rw [if_neg (fun h => hmem.mp h hc), if_pos hc]
  · rw [if_pos (hmem.mpr hc), if_neg hc]

/-- A set that has a lock keeps it, with its count. -/
theorem finishedLock_of_stored {n : DocNamespace} (hv : n.Valid) {key : String} {l : Lock}
    (hl : n.lock? key = some l) (hs : l.stored = true) :
    finishedLock n key = { l with numDocs := n.count key } := by
  have hlock : n.lock key = l := by rw [lock_eq, hl]; rfl
  have hne : l ≠ absent := by
    rintro rfl
    cases hs
  unfold finishedLock
  dsimp only
  rw [hlock, if_neg hne, docList_count hv]

end DocNamespace

/-- If every set that has docs has a lock, the last step gives these locks their counts. -/
theorem finishDocReplay_spec {s : EQMem} (h : s.Sound)
    (hlocked : ∀ g, s.count g ≠ 0 → ∃ l, s.lock? g = some l) :
    Relocked s (finishDocReplay s)
      (fun g => if s.count g = 0 then s.lock? g else (s.lock? g).map (counting (s.count g))) := by
  have hlook : ∀ k, (finishDocReplay s).namespaces.lookup k =
      (s.namespaces.lookup k).map finishNamespace := FMap.lookup_map finishNamespace s.namespaces
  have hdoc : (finishDocReplay s).docAt = s.docAt := by
    funext ⟨k, id⟩
    unfold EQMem.docAt EQMem.doc?
    rw [hlook]
    cases hn : s.namespaces.lookup k with
    | none => rfl
    | some n =>
      change (finishNamespace n).byID.lookup id = n.byID.lookup id
      rw [(DocNamespace.finishNamespace_spec (h.docs.valid _ _ hn).2.2).2.2.1]
  have hcount : (finishDocReplay s).count = s.count := by
    funext ⟨k, key⟩
    unfold EQMem.count
    rw [hlook]
    cases hn : s.namespaces.lookup k with
    | none => rfl
    | some n => exact (DocNamespace.finishNamespace_spec (h.docs.valid _ _ hn).2.2).2.2.2.1 key
  have hlock : (finishDocReplay s).lock? = fun g =>
      if s.count g = 0 then s.lock? g else (s.lock? g).map (counting (s.count g)) := by
    funext ⟨k, key⟩
    cases hn : s.namespaces.lookup k with
    | none =>
      have hnone : s.lock? ⟨k, key⟩ = none := by simp [EQMem.lock?, hn]
      have hnone' : (finishDocReplay s).lock? ⟨k, key⟩ = none := by simp [EQMem.lock?, hlook, hn]
      simp [hnone, hnone']
    | some n =>
      have hat := EQMem.holdsAt_of_lookup hn
      obtain ⟨-, -, -, -, hl⟩ := DocNamespace.finishNamespace_spec (h.docs.valid _ _ hn).2.2
      have hl' : (finishDocReplay s).lock? ⟨k, key⟩ = (finishNamespace n).lock? key := by
        simp [EQMem.lock?, hlook, hn]
      rw [hl', hl, hat.lock?, hat.count]
      split_ifs with hz
      · rfl
      · obtain ⟨l, hsome⟩ := hlocked ⟨k, key⟩ (by rw [hat.count]; exact hz)
        have hstored := h.locks _ _ hsome
        rw [hat.lock?] at hsome
        rw [hsome, DocNamespace.finishedLock_of_stored (h.docs.valid _ _ hn).2.2 hsome hstored]
        rfl
  refine ⟨⟨⟨h.indexed.queues, h.indexed.named, h.indexed.index⟩, ⟨?_⟩, ?_, ?_, h.queues, ?_⟩, rfl,
    hdoc, hcount, hlock⟩
  · intro name n' hn'
    rw [hlook, Option.map_eq_some_iff] at hn'
    obtain ⟨n, hn, rfl⟩ := hn'
    obtain ⟨hne, hname, hv⟩ := h.docs.valid _ _ hn
    obtain ⟨h1, h2, -⟩ := DocNamespace.finishNamespace_spec hv
    exact ⟨hne, h2.trans hname, h1⟩
  · intro p d hd
    exact h.docIDs p d ((congrFun hdoc p).symm.trans hd)
  · intro g l hl
    rw [hlock] at hl
    dsimp only at hl
    split_ifs at hl
    · exact h.locks g l hl
    · obtain ⟨l', hl', rfl⟩ := Option.map_eq_some_iff.mp hl
      exact h.locks g l' hl'
  · intro k n' hn'
    rw [hlook, Option.map_eq_some_iff] at hn'
    obtain ⟨n, hn, rfl⟩ := hn'
    obtain ⟨-, -, h3, -, h5⟩ := DocNamespace.finishNamespace_spec (h.docs.valid _ _ hn).2.2
    have hbusy := h.namespaces k n hn
    by_contra hidle
    rw [Bool.not_eq_false, EQMem.idle_iff, h3] at hidle
    have hidle' : n.idle = true := by
      refine (EQMem.idle_iff n).mpr ⟨hidle.1, fun key => ?_⟩
      have := hidle.2 key
      rw [h5] at this
      split_ifs at this
      exact this
    rw [hidle'] at hbusy
    cases hbusy

end EntroQ.Eqmem
