import EntroQ.Eqmem.DocMap
import EntroQ.Eqmem.TaskHistory
import EntroQ.Foundation.Trace

/-! # What a set's version says

Every write to a stored set moves its version on by one, so two states that have it at the same
version have the same set, as long as its lock is there all along. A set whose lock is collected
starts again at version 0 with its next insert. -/

namespace EntroQ.Eqmem
open Foundation Docset

def Call.KeepsLock (g : SetName) (s : EQMem) : Call → Prop
  | .collectLocks _ now _ => (s.lockOf g).held now = true ∨ s.members g ≠ []
  | _ => True

def Call.next (s : EQMem) (c : Call) : EQMem := (c.run s).1

abbrev KeepsLock (g : SetName) (s : EQMem) (calls : List Call) : Prop :=
  Along Call.next (fun s c => c.KeepsLock g s) s calls

section Step
variable {s : EQMem} {g : SetName} {l : Lock}

/-- A stored set is left as it is, or moves on by one version. -/
theorem Call.set_step (h : Invariant s) (hl : s.lock? g = some l) (c : Call)
    (hkeep : c.KeepsLock g s) :
    SetKept g s (c.run s).1 ∨ ∃ l', (c.run s).1.lock? g = some l' ∧ l'.version = l.version + 1 := by
  have hlockOf : s.lockOf g = l := by
    rw [EQMem.lockOf_eq, hl]
    rfl
  have he := c.effect h.toSound
  generalize (c.run s).1 = s' at he ⊢
  cases he with
  | kept => exact .inl (.refl g s)
  | @committed mod now _ _ _ hp hc =>
    by_cases hw : ∃ op ∈ (modPrep s mod false).mod.docOps, ∃ byDur n,
        s.docVerdict (modPrep s mod false).mod now op = .write g byDur n
    · right
      obtain ⟨l', hl'⟩ := (hc.docsPass.planned_iff hp h.toSound g).mpr hw
      refine ⟨l', ?_, ?_⟩
      · rw [hc.applied.lock?, Prepared.lockEffects_lockWrites, hl', Option.some_or]
      · have herr := (evaluate_err_none_iff _ _ _ _ _).mpr hc.docsPass
        rw [hp.docPlan_eq now h.docs h.docIDs] at hl'
        obtain ⟨w, rfl, -⟩ := evaluate_locks _ _ _ _ _ herr g l' hl'
        change written (s.lockOf g) = _
        rw [hlockOf, written, h.locks g l hl, if_pos rfl]
    · exact .inl (hc.untouched h.toSound hp hw)
  | claimed _ ht =>
    exact .inl (setKept_of_docAt h.toSound ht.sound (congrFun ht.docs.lock? g) ht.docs.docAt)
  | @took cq _ until_ s' _ ht =>
    have hlock : s'.lock? g = _ :=
      (congrFun ht.lock? g).trans (lockEffects_takenLocks ht.valid.once until_ s.lock? g)
    by_cases hg : g ∈ setsOf cq
    · rw [if_pos hg, hlockOf] at hlock
      exact .inr ⟨_, hlock, rfl⟩
    · rw [if_neg hg] at hlock
      exact .inl (setKept_of_docAt h.toSound ht.sound hlock ht.docAt)
  | @collected _ _ _ _ new hc =>
    have hnot : g ∉ new.map Prod.fst := by
      intro hg
      obtain ⟨gl, hgl, rfl⟩ := List.mem_map.mp hg
      obtain ⟨hlock, hheld, hcount⟩ := hc.idle gl hgl
      rcases hkeep with hk | hk
      · rw [EQMem.lockOf_eq, hlock, Option.getD_some, hheld] at hk
        cases hk
      · rw [EQMem.count_eq_members, Int.natCast_eq_zero, List.length_eq_zero_iff] at hcount
        exact hk hcount
    refine .inl (setKept_of_docAt h.toSound hc.sound ?_ hc.docAt)
    rw [hc.lock?, if_neg hnot]

theorem set_run (h : Invariant s) (hl : s.lock? g = some l) (calls : List Call)
    (hkeep : KeepsLock g s calls) :
    ∃ n ≤ calls.length, (n = 0 → SetKept g s (run s calls)) ∧
      ∃ l', (run s calls).lock? g = some l' ∧ l'.version = l.version + Int32.ofNat n := by
  induction calls generalizing s l with
  | nil => exact ⟨0, le_refl _, fun _ => .refl g s, l, hl, by simp⟩
  | cons c calls ih =>
    obtain ⟨hc, hrest⟩ := hkeep
    rcases c.set_step h hl hc with hsame | ⟨l₁, hl₁, hv₁⟩
    · obtain ⟨n, hn, hzero, l', hl', hv'⟩ := ih (c.run_invariant h) (hsame.lock?.trans hl) hrest
      exact ⟨n, Nat.le_succ_of_le hn, fun h0 => hsame.trans (hzero h0), l', hl', hv'⟩
    · obtain ⟨n, hn, -, l', hl', hv'⟩ := ih (c.run_invariant h) hl₁ hrest
      refine ⟨n + 1, Nat.succ_le_succ hn, nofun, l', hl', ?_⟩
      rw [hv', hv₁, Int32.add_assoc, Nat.add_comm n 1, Int32.ofNat_add]
      rfl

/-- At the same version again, within as many calls as there are versions, the set is as it was. -/
theorem set_unchanged (h : Invariant s) (hl : s.lock? g = some l) (calls : List Call)
    (hkeep : KeepsLock g s calls) (hlen : calls.length < 2 ^ 32) {l' : Lock}
    (hl' : (run s calls).lock? g = some l') (hv : l'.version = l.version) :
    SetKept g s (run s calls) := by
  obtain ⟨n, hn, hzero, l₂, hl₂, hv₂⟩ := set_run h hl calls hkeep
  cases hl'.symm.trans hl₂
  rcases Nat.eq_zero_or_pos n with h0 | h0
  · exact hzero h0
  · exact absurd (hv₂.symm.trans hv) (add_ofNat_ne l.version h0 (lt_of_le_of_lt hn hlen))

end Step

/-! ## Dependencies -/

section Depends
variable {s : EQMem} {mod : Modification} {now : Time} {r : DocID}

/-- A modification that goes ahead found what it depends on. -/
theorem modify_depends (h : Invariant s) (hr : r ∈ mod.docDepends) (hns : r.ns ≠ "")
    (hok : (modify s mod now).2.isOk = true) : s.HasDepend mod r := by
  rcases modify_cases h.toSound mod now with ⟨f, -, he⟩ | ⟨-, ⟨hs, -⟩ | ⟨s', -, hc⟩⟩
  · rw [he] at hok
    cases hok
  · simp only [Prepared.shortCircuits, Bool.and_eq_true, List.isEmpty_iff] at hs
    have hm : r.ns ∈ (modPrep s mod false).namespaces :=
      (mem_prepNamespaces mod r.ns).mpr ⟨hns, .inr (.inr (.inr (.inl ⟨r, hr, rfl⟩)))⟩
    rw [hs.1.1.2] at hm
    cases hm
  · have hpass := hc.docsPass (.depend r) (by simp [Modification.docOps, modPrep_mod, hr])
    rw [modPrep_mod] at hpass
    exact (depend_passes_iff r).mp hpass

theorem lock?_named (h : Invariant s) {g : SetName} {l : Lock} (hl : s.lock? g = some l) :
    g.ns ≠ "" := by
  obtain ⟨n, hn, -⟩ := Option.bind_eq_some_iff.mp hl
  exact (h.docs.valid g.ns n hn).1

/-- The run puts the doc nowhere anew. -/
def NotInserted (q : String × String) (calls : List Call) : Prop :=
  ∀ mod now, Call.modify mod now ∈ calls → ∀ i ∈ mod.docInserts, (i.ns, i.id) ≠ q

theorem run_place {q : String × String} (h : Invariant s) (calls : List Call)
    (hins : NotInserted q calls) {d : Doc} (hd : (run s calls).docAt q = some d) :
    ∃ old, s.docAt q = some old ∧ SamePlace d old := by
  induction calls generalizing s with
  | nil => exact ⟨d, hd, rfl, rfl, rfl⟩
  | cons c calls ih =>
    obtain ⟨d₁, hd₁, hp₁⟩ := ih (c.run_invariant h)
      (fun mod now hm => hins mod now (List.mem_cons_of_mem _ hm)) hd
    suffices ∃ old, s.docAt q = some old ∧ SamePlace d₁ old by
      obtain ⟨old, hold, hp⟩ := this
      exact ⟨old, hold, hp₁.1.trans hp.1, hp₁.2.1.trans hp.2.1, hp₁.2.2.trans hp.2.2⟩
    rcases c.docAt_cases h.toSound with he | ⟨mod, now, rfl, -, -, hp, hc⟩
    · rw [he] at hd₁
      exact ⟨d₁, hd₁, rfl, rfl, rfl⟩
    · rcases hc.place_cases h.toSound hp hd₁ with ⟨i, hi, rfl, -⟩ | hold
      · exact absurd rfl (hins mod now (List.mem_cons_self ..) i hi)
      · exact hold

end Depends

/-- While its lock is not collected, a set at the version it had before is the set it was. A
modification that depends on the set, or on one of its docs, at that version commits only then. -/
theorem set_version_identifies (pre mid : List Call) (g : SetName) (l : Lock)
    (hl : (run {} pre).lock? g = some l) (hkeep : KeepsLock g (run {} pre) mid)
    (hlen : mid.length < 2 ^ 32) :
    (∀ l', (run {} (pre ++ mid)).lock? g = some l' → l'.version = l.version →
      SetKept g (run {} pre) (run {} (pre ++ mid))) ∧
    ∀ mod now, (modify (run {} (pre ++ mid)) mod now).2.isOk = true →
      ∀ r ∈ mod.docDepends, r.version = l.version →
        (r.isSetRef = true → (⟨r.ns, r.key⟩ : SetName) = g →
          SetKept g (run {} pre) (run {} (pre ++ mid))) ∧
        (r.isSetRef = false → (r.version = 0 → provided mod g = false) →
          (∃ d ∈ (run {} pre).members g, (r.ns, r.id) = (d.ns, d.id)) →
          NotInserted (r.ns, r.id) mid →
          SetKept g (run {} pre) (run {} (pre ++ mid))) := by
  have h := run_invariant invariant_empty pre
  have h' := run_invariant invariant_empty (pre ++ mid)
  have hrun : run {} (pre ++ mid) = run (run {} pre) mid := run_append ..
  have hns := lock?_named h hl
  have hsame : ∀ l', (run {} (pre ++ mid)).lock? g = some l' → l'.version = l.version →
      SetKept g (run {} pre) (run {} (pre ++ mid)) := by
    rw [hrun]
    intro l' hl' hv
    exact set_unchanged h hl mid hkeep hlen hl' hv
  -- the lock is stored at the end, so its version there is the one a dependency compares with
  obtain ⟨n, -, -, l', hl', -⟩ := set_run h hl mid hkeep
  rw [← hrun] at hl'
  have hlockOf : (run {} (pre ++ mid)).lockOf g = l' := by
    rw [EQMem.lockOf_eq, hl']
    rfl
  refine ⟨hsame, fun mod now hok r hr hv => ⟨?_, ?_⟩⟩
  · rintro hset rfl
    have hdep := modify_depends h' hr hns hok
    rw [EQMem.HasDepend, DependHolds, if_pos hset, AtLock, hlockOf] at hdep
    exact hsame l' hl' (hdep.2.trans hv)
  · rintro hdoc hprov ⟨d, hd, hplace⟩ hins
    obtain ⟨hdAt, hkey⟩ := (h.docs.mem_members g d).mp hd
    rw [Prod.mk.injEq] at hplace
    have hdns := (h.docs.docAt_named hdAt).1
    have hdep := modify_depends h' hr (by rw [hplace.1, hdns]; exact hns) hok
    rw [EQMem.HasDepend, DependHolds, if_neg (by simp [hdoc])] at hdep
    obtain ⟨e, he, hev⟩ := hdep
    rw [hrun] at he
    obtain ⟨old, hold, hsp⟩ := run_place h mid hins he
    rw [hplace.1, hplace.2, hdns, hdAt] at hold
    cases hold
    have heg : (⟨e.ns, e.key⟩ : SetName) = g := by
      rw [hsp.1, hsp.2.1, hdns, hkey]
    rw [heg, hlockOf] at hev
    rcases hev with ⟨h0, hp⟩ | hev
    · rw [hprov h0] at hp
      cases hp
    · exact hsame l' hl' (hev.trans hv)

def oneMember : List Call := [.modify insertDoc 5]

def recreated : List Call :=
  [.modify { claimant := "w", docDeletes := [{ ns := "n", id := "d", version := 0 }] } 6,
   .collectLocks ["n"] 7 10,
   .modify { claimant := "w", docInserts := [{ ns := "n", id := "e", key := "k" }] } 8]

def created : Modification :=
  { claimant := "w", docDepends := [{ ns := "n", id := "", key := "k", version := 0 }] }

/-- The set is emptied, its lock collected, and another doc put into it: it is at version 0 again,
and a dependency on what was read there before goes ahead. -/
theorem set_version_reused :
    ((run {} oneMember).lock? ⟨"n", "k"⟩).map Lock.version = some 0 ∧
      ((run {} (oneMember ++ recreated)).lock? ⟨"n", "k"⟩).map Lock.version = some 0 ∧
      ((run {} oneMember).members ⟨"n", "k"⟩).map Doc.id = ["d"] ∧
      ((run {} (oneMember ++ recreated)).members ⟨"n", "k"⟩).map Doc.id = ["e"] ∧
      (modify (run {} (oneMember ++ recreated)) created 9).2.isOk = true := by
  decide

/-- Another set of the namespace is written in between. -/
def elsewhere : List Call :=
  [.modify { claimant := "w", docInserts := [{ ns := "n", id := "e", key := "k2" }] } 8]

theorem set_version_identifies_elsewhere :
    (modify (run {} (oneMember ++ elsewhere)) created 9).2.isOk = true ∧
      SetKept ⟨"n", "k"⟩ (run {} oneMember) (run {} (oneMember ++ elsewhere)) := by
  have hok : (modify (run {} (oneMember ++ elsewhere)) created 9).2.isOk = true := by
    decide
  refine ⟨hok, ?_⟩
  have hl : (run {} oneMember).lock? ⟨"n", "k"⟩ = some { stored := true, atTime := 5, numDocs := 1 } := by
    decide
  have hkeep : KeepsLock ⟨"n", "k"⟩ (run {} oneMember) elsewhere := ⟨trivial, trivial⟩
  obtain ⟨-, hdep⟩ := set_version_identifies oneMember elsewhere _ _ hl hkeep (by decide)
  exact (hdep created 9 hok _ (List.mem_singleton_self _) rfl).1 rfl rfl

end EntroQ.Eqmem
