import EntroQ.Eqmem.ClaimSpec

/-! # What a doc claim and a lock collection do

A claim that fails changes nothing, one that succeeds gives each set it names a new lock. A
collection removes locks that no one holds of sets that have no docs. Neither touches a doc or
a task. -/

namespace EntroQ.Eqmem
open Foundation Docset

/-! ## Doc claims -/

/-- What validation sees to before a doc claim is made. -/
structure DocClaimValid (cq : DocClaim) : Prop where
  once : (setsOf cq).Nodup
  named : ∀ g ∈ setsOf cq, g.ns ≠ "" ∧ g.key ≠ ""
  claimant : cq.claimant ≠ ""

theorem docClaim_none {cq : DocClaim} (h : Validate.docClaim cq = none) : DocClaimValid cq := by
  simp only [Validate.docClaim, Option.orElse_eq_none, Validate.docClaimQuery] at h
  obtain ⟨hq, -⟩ := h
  have hne : ¬cq.sets.isEmpty = true := by
    intro hne
    simp [hne] at hq
  rw [if_neg hne] at hq
  simp only [Option.orElse_eq_none, walkUnique_eq_none_iff] at hq
  obtain ⟨⟨hbad, hnodup, -⟩, hrest⟩ := hq
  constructor
  · refine List.Nodup.of_map (fun g : SetName => (g.ns, g.key)) ?_
    rw [setsOf, List.map_map]
    exact hnodup
  · intro g hg
    obtain ⟨c, hc, rfl⟩ := List.mem_map.mp hg
    have := hbad c hc
    split_ifs at this with h1 h2
    exact ⟨h1, h2⟩
  · intro he
    simp [he] at hrest

def claimedLock (cq : DocClaim) (until_ : Time) (l : Lock) : Lock :=
  { stored := true, version := l.version + 1, claimant := cq.claimant, atTime := until_,
    numDocs := l.numDocs }

def takenLocks (s : EQMem) (cq : DocClaim) (until_ : Time) : List (SetName × Lock) :=
  (setsOf cq).map (fun g => (g, claimedLock cq until_ (s.lockOf g)))

theorem lockEffects_takenLocks {s : EQMem} {cq : DocClaim} (hn : (setsOf cq).Nodup)
    (until_ : Time) (L : SetName → Option Lock) (g : SetName) :
    lockEffects L (takenLocks s cq until_) g =
      if g ∈ setsOf cq then some (claimedLock cq until_ (s.lockOf g)) else L g := by
  have hkeys : (takenLocks s cq until_).map Prod.fst = setsOf cq := by
    rw [takenLocks, List.map_map]
    exact List.map_id _
  split_ifs with hg
  · exact lockEffects_of_mem L _ (hkeys.symm ▸ hn) (g, claimedLock cq until_ (s.lockOf g))
      (List.mem_map.mpr ⟨g, hg, rfl⟩)
  · exact lockEffects_of_notMem L _ g (hkeys.symm ▸ hg)

structure TookSets (s : EQMem) (cq : DocClaim) (now until_ : Time) (s' : EQMem)
    (r : DocsClaimed) : Prop where
  valid : DocClaimValid cq
  lease : claimUntil s cq now = .ok until_
  future : now < until_
  free : ∀ g ∈ setsOf cq, (s.lockOf g).heldByOther cq.claimant now = false
  entry : r.entry = { docLocks := journalLocksOf (takenLocks s cq until_) }
  sets : r.sets = claimedSets cq s.members ((takenLocks s cq until_).map Prod.snd)
  lock? : s'.lock? = lockEffects s.lock? (takenLocks s cq until_)
  docAt : s'.docAt = s.docAt
  count : s'.count = s.count
  task : s'.task = s.task
  sound : s'.Sound

inductive Refused (s : EQMem) (cq : DocClaim) (now : Time) : Fault → Prop
  | invalid (e : InvalidArgument) (bad : Validate.docClaim cq = some e) : Refused s cq now (.invalid e)
  | unmatched (f : Fault) (missing : claimUntil s cq now = .error f) : Refused s cq now f
  | lapsed (f : Fault) (until_ : Time) (lease : claimUntil s cq now = .ok until_)
      (past : until_ ≤ now) : Refused s cq now f
  | held (e : DependencyError) (until_ : Time) (lease : claimUntil s cq now = .ok until_)
      (future : now < until_)
      (names : heldAmong cq now until_ s.lockOf s.members none (setsOf cq) = some e) :
      Refused s cq now (.dependency e)

/-- A call of `ClaimDocs` fails and changes nothing, or takes the sets. -/
theorem claimDocs_cases {s : EQMem} (h : s.Sound) (cq : DocClaim) (now : Time) :
    (∃ f, claimDocs s cq now = (s, .error f) ∧ Refused s cq now f) ∨
      ∃ until_ s' r, claimDocs s cq now = (s', .ok r) ∧ TookSets s cq now until_ s' r := by
  unfold claimDocs
  cases hv : Validate.docClaim cq with
  | some e => exact .inl ⟨_, rfl, .invalid e hv⟩
  | none =>
    dsimp only
    cases hu : claimUntil s cq now with
    | error e => exact .inl ⟨_, rfl, .unmatched e hu⟩
    | ok until_ =>
      dsimp only
      have hback := h.unlock_lock [] (claimNamespaces cq)
      have hsame := EQMem.sameDocs_lockNamespaces (s := s) (claimNamespaces cq)
      rw [hsame.lockOf, EQMem.members_lockNamespaces]
      cases hc : claimAll cq now until_ s.lockOf s.members with
      | error e =>
        rcases claimAll_error cq now until_ s.lockOf s.members hc with hpast | ⟨hf, e', rfl, he⟩
        · cases e with
          | dependency e => exact .inl ⟨_, Prod.ext hback rfl, .lapsed _ until_ hu hpast⟩
          | invalid e => exact .inl ⟨_, Prod.ext hback rfl, .lapsed _ until_ hu hpast⟩
        · exact .inl ⟨_, Prod.ext hback rfl, .held e' until_ hu hf he⟩
      | ok locks =>
        obtain ⟨hfuture, hfree, hlocks⟩ := claimAll_ok _ _ _ _ _ _ hc
        have hval := docClaim_none hv
        have hzip : (setsOf cq).zip locks = takenLocks s cq until_ := by
          rw [hlocks]
          exact List.map_prod_left_eq_zip.symm
        have hsnd : locks = (takenLocks s cq until_).map Prod.snd := by
          rw [hlocks, takenLocks, List.map_map]
          rfl
        dsimp only
        rw [hzip]
        have hne : "" ∉ claimNamespaces cq := by
          simp only [claimNamespaces, List.mem_dedup, List.mem_map, not_exists, not_and]
          exact fun g hg => (hval.named g hg).1
        obtain ⟨ns, hr, hd₁, ha₁, hl₁, hc₁, hf₁⟩ :=
          (h.docs.lockNamespaces hne).run_locks
            (fun k hk => EQMem.lockNamespaces_present _ hk) (takenLocks s cq until_)
            (by
              intro gl hgl
              obtain ⟨g, hg, rfl⟩ := List.mem_map.mp hgl
              exact List.mem_dedup.mpr (List.mem_map_of_mem hg))
        rw [hr]
        let s₁ : EQMem := { s.lockNamespaces (claimNamespaces cq) with namespaces := ns }
        have hl₁' : s₁.lock? = lockEffects s.lock? (takenLocks s cq until_) := hsame.lock? ▸ hl₁
        have hmem₁ : s₁.members = s.members :=
          h.docs.members_congr hd₁ (ha₁.trans hsame.docAt)
        have hn₁ : ∀ k, k ∉ claimNamespaces cq →
            s₁.namespaces.lookup k = s.namespaces.lookup k := by
          intro k hk
          exact (hf₁ k hk).trans
            ((Registry.lookup_acquire newDocNamespace _ s.namespaces k).trans (if_neg hk))
        have hstored : ∀ g l, s₁.lock? g = some l → l.stored = true := by
          intro g l hgl
          rw [hl₁', lockEffects_takenLocks hval.once] at hgl
          split_ifs at hgl
          · cases hgl
            rfl
          · exact h.locks g l hgl
        obtain ⟨hs, ht, hd⟩ := h.unlock s₁ [] (claimNamespaces cq)
          ⟨h.indexed.queues, h.indexed.named, h.indexed.index⟩ hd₁
          (fun r d hr => h.docIDs r d ((congrFun (ha₁.trans hsame.docAt) r).symm.trans hr))
          hstored (fun _ _ => rfl) hn₁
        refine .inr ⟨until_, _, _, rfl, ?_⟩
        exact
          { valid := hval
            lease := hu
            future := hfuture
            free := hfree
            entry := rfl
            sets := by rw [← hmem₁, ← hsnd]
            lock? := hd.lock?.trans hl₁'
            docAt := hd.docAt.trans (ha₁.trans hsame.docAt)
            count := hd.count.trans (hc₁.trans hsame.count)
            task := ht
            sound := hs }

/-! ## Lock collection -/

/-- The locks of `new` were collected: no one held them, and their sets were empty. -/
structure Collected (s : EQMem) (now : Time) (s' : EQMem) (new : List (SetName × Lock)) :
    Prop where
  idle : ∀ gl ∈ new, s.lock? gl.1 = some gl.2 ∧ gl.2.held now = false ∧ s.count gl.1 = 0
  once : (new.map Prod.fst).Nodup
  lock? : ∀ g, s'.lock? g = if g ∈ new.map Prod.fst then none else s.lock? g
  docAt : s'.docAt = s.docAt
  count : s'.count = s.count
  task : s'.task = s.task
  sound : s'.Sound

theorem Collected.refl {s : EQMem} (h : s.Sound) (now : Time) : Collected s now s [] where
  idle := by simp
  once := by simp
  lock? g := by simp
  docAt := rfl
  count := rfl
  task := rfl
  sound := h

theorem Collected.trans {s s' s'' : EQMem} {now : Time} {new new' : List (SetName × Lock)}
    (h : Collected s now s' new) (h' : Collected s' now s'' new') :
    Collected s now s'' (new ++ new') := by
  have hold : ∀ gl ∈ new', gl.1 ∉ new.map Prod.fst ∧ s.lock? gl.1 = some gl.2 := by
    intro gl hgl
    have := (h'.idle gl hgl).1
    rw [h.lock?] at this
    split_ifs at this with hn
    exact ⟨hn, this⟩
  constructor
  · intro gl hgl
    rcases List.mem_append.mp hgl with hgl | hgl
    · exact h.idle gl hgl
    · obtain ⟨-, h2, h3⟩ := h'.idle gl hgl
      exact ⟨(hold gl hgl).2, h2, by rw [← h.count]; exact h3⟩
  · rw [List.map_append, List.nodup_append']
    refine ⟨h.once, h'.once, ?_⟩
    intro g hg hg'
    obtain ⟨gl, hgl, rfl⟩ := List.mem_map.mp hg'
    exact (hold gl hgl).1 hg
  · intro g
    rw [h'.lock?, h.lock?, List.map_append]
    by_cases h1 : g ∈ new.map Prod.fst <;> by_cases h2 : g ∈ new'.map Prod.fst <;> simp [h1, h2]
  · exact h'.docAt.trans h.docAt
  · exact h'.count.trans h.count
  · exact h'.task.trans h.task
  · exact h'.sound

theorem deleteLocks_spec {n : DocNamespace} (hv : n.Valid) (es : List LockEntry) :
    (es.foldl (fun n e => n.deleteLock e.key) n).Valid ∧
      (es.foldl (fun n e => n.deleteLock e.key) n).name = n.name ∧
      (es.foldl (fun n e => n.deleteLock e.key) n).byID = n.byID ∧
      (∀ k, (es.foldl (fun n e => n.deleteLock e.key) n).count k = n.count k) ∧
      ∀ k, (es.foldl (fun n e => n.deleteLock e.key) n).lock? k =
        if k ∈ es.map LockEntry.key then none else n.lock? k := by
  induction es generalizing n with
  | nil => exact ⟨hv, rfl, rfl, fun _ => rfl, fun k => by simp⟩
  | cons e es ih =>
    obtain ⟨h1, h2, h3, h4, h5⟩ := ih (hv.deleteLock e.key)
    refine ⟨h1, h2, h3, h4, fun k => ?_⟩
    rw [List.foldl_cons, h5, DocNamespace.lock?_deleteLock, List.map_cons]
    by_cases hk : k = e.key <;> by_cases hm : k ∈ es.map LockEntry.key <;> simp [hk, hm]

theorem mem_idleLocks {n : DocNamespace} {now : Time} {room : ℕ} {e : LockEntry}
    (he : e ∈ idleLocks n now room) :
    n.lock? e.key = some e.lock ∧ e.lock.held now = false ∧ n.count e.key = 0 := by
  obtain ⟨hm, hi⟩ := List.mem_filter.mp (List.mem_of_mem_take he)
  simp only [Bool.and_eq_true, Bool.not_eq_true', List.isEmpty_iff] at hi
  exact ⟨(DocNamespace.mem_locks_iff e).mp hm, hi.1, by simp [DocNamespace.count, hi.2]⟩

theorem idleLocks_nodup (n : DocNamespace) (now : Time) (room : ℕ) :
    ((idleLocks n now room).map LockEntry.key).Nodup := by
  apply List.Nodup.map_on
  · intro e he e' he' hk
    have h1 := (mem_idleLocks he).1
    rw [hk, (mem_idleLocks he').1] at h1
    obtain ⟨k, l⟩ := e
    obtain ⟨k', l'⟩ := e'
    cases hk
    cases h1
    rfl
  · exact ((n.locks.nodup.filter _).sublist (List.take_sublist _ _))

theorem collectNamespace_spec {s : EQMem} (h : s.Sound) (name : String) (now : Time) (batch : ℕ)
    (collected : List (SetName × Lock)) :
    ∃ new, (collectNamespace s name now batch collected).2 = collected ++ new ∧
      Collected s now (collectNamespace s name now batch collected).1 new := by
  unfold collectNamespace
  split_ifs with hb
  · exact ⟨[], by simp, Collected.refl h now⟩
  obtain ⟨n, hn⟩ := EQMem.lockNamespaces_present (s := s) [name] (List.mem_singleton_self name)
  have hn' : n = (s.namespaces.lookup name).getD (newDocNamespace name) := by
    change (Registry.acquire newDocNamespace [name] s.namespaces).lookup name = some n at hn
    rw [Registry.lookup_acquire, if_pos (List.mem_singleton_self name)] at hn
    exact (Option.some.inj hn).symm
  dsimp only
  rw [hn]
  dsimp only
  cases hold : s.namespaces.lookup name with
  | none =>
    -- the namespace was made by locking it, and goes again
    rw [hold, Option.getD_none] at hn'
    have hnone : idleLocks n now (batch - collected.length) = [] := by
      simp [hn', idleLocks, newDocNamespace, OrderedTree.empty]
    rw [hnone]
    refine ⟨[], by simp, ?_⟩
    have hsame : (s.lockNamespaces [name]).namespaces.insert name n =
        (s.lockNamespaces [name]).namespaces := by
      apply Finmap.ext_lookup
      intro k
      rw [FMap.lookup_insert]
      split_ifs with hk
      · rw [hk, hn]
      · rfl
    have hback := h.unlock_lock [] [name]
    rw [List.foldl_nil, hsame]
    change Collected s now ((s.lockNamespaces [name]).unlockNamespaces [name]) []
    rw [show (s.lockNamespaces [name]).unlockNamespaces [name] = s from hback]
    exact Collected.refl h now
  | some n₀ =>
    rw [hold, Option.getD_some] at hn'
    subst hn'
    obtain ⟨hne, hname, hv⟩ := h.docs.valid name n hold
    let es := idleLocks n now (batch - collected.length)
    let n' := es.foldl (fun n e => n.deleteLock e.key) n
    let s₁ : EQMem := { s.lockNamespaces [name] with
      namespaces := (s.lockNamespaces [name]).namespaces.insert name n' }
    obtain ⟨hv', hname', hdocs', hcount', hlock'⟩ := deleteLocks_spec hv es
    have hsame := EQMem.sameDocs_lockNamespaces (s := s) [name]
    obtain ⟨hd₁, ha₁, hc₁, hl₁⟩ := (h.docs.lockNamespaces (by simpa using hne.symm)).relock hn n'
      hv' hname' hdocs' hcount'
    have hnew : ∀ g : SetName, g ∈ (es.map (fun e => ((⟨name, e.key⟩ : SetName), e.lock))).map
        Prod.fst ↔ g.ns = name ∧ g.key ∈ es.map LockEntry.key := by
      rintro ⟨k, key⟩
      simp only [List.map_map, List.mem_map, Function.comp_apply, SetName.mk.injEq]
      constructor
      · rintro ⟨e, he, h1, h2⟩
        exact ⟨h1.symm, e, he, h2⟩
      · rintro ⟨h1, e, he, h2⟩
        exact ⟨e, he, h1.symm, h2⟩
    have hholds := EQMem.holdsAt_of_lookup hold
    have hlocks : ∀ g, s₁.lock? g =
        if g ∈ (es.map (fun e => ((⟨name, e.key⟩ : SetName), e.lock))).map Prod.fst then none
        else s.lock? g := by
      intro g
      rw [hl₁, hsame.lock?]
      by_cases hg : g.ns = name
      · rw [if_pos hg, hlock']
        by_cases hk : g.key ∈ es.map LockEntry.key
        · rw [if_pos hk, if_pos ((hnew g).mpr ⟨hg, hk⟩)]
        · rw [if_neg hk, if_neg (fun hm => hk ((hnew g).mp hm).2), ← hholds.lock?, ← hg]
      · rw [if_neg hg, if_neg (fun hm => hg ((hnew g).mp hm).1)]
    obtain ⟨hs, ht, hd⟩ := h.unlock s₁ [] [name]
      ⟨h.indexed.queues, h.indexed.named, h.indexed.index⟩ hd₁
      (fun r d hr => h.docIDs r d ((congrFun (ha₁.trans hsame.docAt) r).symm.trans hr))
      (fun g l hgl => by
        rw [hlocks] at hgl
        split_ifs at hgl
        exact h.locks g l hgl)
      (fun _ _ => rfl)
      (fun k hk => by
        have hk' : k ≠ name := by simpa using hk
        refine (FMap.lookup_insert _ _ _ _).trans ((if_neg hk').trans ?_)
        exact (Registry.lookup_acquire newDocNamespace [name] s.namespaces k).trans (if_neg hk))
    refine ⟨es.map (fun e => (⟨name, e.key⟩, e.lock)), rfl, ?_⟩
    constructor
    · intro gl hgl
      obtain ⟨e, he, rfl⟩ := List.mem_map.mp hgl
      obtain ⟨h1, h2, h3⟩ := mem_idleLocks he
      exact ⟨(hholds.lock? e.key).trans h1, h2, (hholds.count e.key).trans h3⟩
    · rw [List.map_map]
      apply List.Nodup.of_map SetName.key
      rw [List.map_map]
      exact idleLocks_nodup n now _
    · intro g
      rw [← hlocks]
      exact congrFun hd.lock? g
    · exact hd.docAt.trans (ha₁.trans hsame.docAt)
    · exact hd.count.trans (hc₁.trans hsame.count)
    · exact ht
    · exact hs

theorem collectLocksOnce_spec {s : EQMem} (h : s.Sound) (names : List String) (now : Time)
    (batch : ℕ) :
    ∃ new, (collectLocksOnce s names now batch).2 = collectEntry new ∧
      Collected s now (collectLocksOnce s names now batch).1 new := by
  have key : ∀ names : List String, Collected s now
      (names.foldl (fun r name => collectNamespace r.1 name now batch r.2) (s, [])).1
      (names.foldl (fun r name => collectNamespace r.1 name now batch r.2) (s, [])).2 := by
    intro names
    induction names using List.reverseRecOn with
    | nil => exact Collected.refl h now
    | append_singleton names name ih =>
      rw [List.foldl_append, List.foldl_cons, List.foldl_nil]
      obtain ⟨new, hnew, hc⟩ := collectNamespace_spec ih.sound name now batch
        (names.foldl (fun r name => collectNamespace r.1 name now batch r.2) (s, [])).2
      rw [hnew]
      exact ih.trans hc
  exact ⟨_, rfl, key names⟩

end EntroQ.Eqmem
