import EntroQ.Eqmem.DocHistory
import EntroQ.Eqmem.JournalRun
import EntroQ.Foundation.Trace

/-! # Collections and the order of the journal

`Modify` and `ClaimDocs` append to the journal before they release their locks. `collectLocksOnce`
deletes the idle locks of a namespace under its lock, goes on to the next, and appends one record
of all of them at the end, under no lock. What is written in between to a set it has collected
stands in the journal before the record that deletes its lock. -/

namespace EntroQ.Eqmem
open Foundation Docset

/-- A collection under way: the namespaces it has yet to visit, and what it has collected. -/
structure Collection where
  names : List String
  now : Time
  batch : ℕ
  collected : List (SetName × Lock) := []

structure Journaling where
  store : EQMem := {}
  pending : ℕ → Option Collection := fun _ => none

/-- The state with another store and another collection of call `k`. -/
def Journaling.put (c : Journaling) (s : EQMem) (k : ℕ) (col : Option Collection) : Journaling :=
  { store := s, pending := Function.update c.pending k col }

inductive JournalStep
  | call (op : Call)
  | collectBegin (k : ℕ) (names : List String) (now : Time) (batch : ℕ)
  | collectNext (k : ℕ)
  | collectEnd (k : ℕ)

namespace JournalStep

/-- The state after the step, and what it appends. A collection may end early, with its context. -/
def run (c : Journaling) : JournalStep → Journaling × Option JournalEntry
  | .call op => ({ c with store := (op.run c.store).1 }, (op.run c.store).2.entry)
  | .collectBegin k names now batch =>
    match c.pending k with
    | none => (c.put c.store k (some { names, now, batch }), none)
    | some _ => (c, none)
  | .collectNext k =>
    match c.pending k with
    | some { names := name :: names, now, batch, collected } =>
      let r := collectNamespace c.store name now batch collected
      (c.put r.1 k (some { names, now, batch, collected := r.2 }), none)
    | _ => (c, none)
  | .collectEnd k =>
    match c.pending k with
    | some col => (c.put c.store k none, collectEntry col.collected)
    | none => (c, none)

def clock : JournalStep → List Time
  | .call op => op.clock
  | .collectBegin _ _ now _ => [now]
  | _ => []

end JournalStep

def JournalStep.next (c : Journaling) (st : JournalStep) : Journaling := (st.run c).1

abbrev runJournal (c : Journaling) (steps : List JournalStep) : Journaling :=
  after JournalStep.next c steps

/-- What the steps append, in order. -/
def appended (c : Journaling) : List JournalStep → List JournalEntry
  | [] => []
  | st :: steps => (st.run c).2.toList ++ appended (st.run c).1 steps

def Collection.sets (col : Collection) : List SetName := col.collected.map Prod.fst

/-- The set's lock was collected, and the collection has not been recorded. -/
def Journaling.Pending (c : Journaling) (g : SetName) : Prop :=
  ∃ k col, c.pending k = some col ∧ g ∈ col.sets

/-- The step writes to no set whose collection has not been recorded. -/
def JournalStep.Clear (c : Journaling) : JournalStep → Prop
  | .call (.modify mod _) => ∀ d ∈ mod.docInserts, ¬c.Pending ⟨d.ns, d.key⟩
  | .call (.claimDocs cq _) => ∀ g ∈ setsOf cq, ¬c.Pending g
  | _ => True

structure Collection.Proper (col : Collection) : Prop where
  once : col.sets.Nodup
  named : ∀ gl ∈ col.collected, gl.1.ns ≠ ""

/-- What has been collected is gone from the store, which is otherwise in step with `r`. -/
structure Journaling.InStep (c : Journaling) (at_ : Time) (r : EQMem) : Prop where
  invariant : Invariant c.store
  tracks : Tracks c.Pending at_ c.store r
  gone : ∀ g, c.Pending g → c.store.lock? g = none
  proper : ∀ k col, c.pending k = some col → col.Proper

theorem inStep_empty (at_ : Time) : Journaling.InStep {} at_ {} where
  invariant := invariant_empty
  tracks := tracks_empty _ at_
  gone := fun _ ⟨_, _, h, _⟩ => nomatch h
  proper := nofun

theorem Tracks.weaken {P Q : SetName → Prop} {at_ : Time} {s r : EQMem} (h : Tracks P at_ s r)
    (hpq : ∀ g, P g → Q g) : Tracks Q at_ s r :=
  ⟨h.sound, h.task, h.docAt, fun g hg => h.lock? g fun hp => hg (hpq g hp)⟩

/-- Another call than `k` has collected the set. -/
def Journaling.Elsewhere (c : Journaling) (k : ℕ) (g : SetName) : Prop :=
  ∃ j col, j ≠ k ∧ c.pending j = some col ∧ g ∈ col.sets

theorem Journaling.pending_put (c : Journaling) (s : EQMem) (k : ℕ) (o : Option Collection)
    (g : SetName) :
    (c.put s k o).Pending g ↔ c.Elsewhere k g ∨ ∃ col, o = some col ∧ g ∈ col.sets := by
  constructor
  · rintro ⟨j, col, hj, hg⟩
    change Function.update c.pending k o j = some col at hj
    by_cases he : j = k
    · rw [he, Function.update_self] at hj
      exact .inr ⟨col, hj, hg⟩
    · rw [Function.update_of_ne he] at hj
      exact .inl ⟨j, col, he, hj, hg⟩
  · rintro (⟨j, col, he, hj, hg⟩ | ⟨col, ho, hg⟩)
    · exact ⟨j, col, (Function.update_of_ne he _ _).trans hj, hg⟩
    · exact ⟨k, col, (Function.update_self k _ _).trans ho, hg⟩

theorem Journaling.pending_iff (c : Journaling) (k : ℕ) (g : SetName) :
    c.Pending g ↔ c.Elsewhere k g ∨ ∃ col, c.pending k = some col ∧ g ∈ col.sets := by
  rw [← c.pending_put c.store k (c.pending k) g, Journaling.put, Function.update_eq_self]

theorem Journaling.proper_put {c : Journaling} (h : ∀ k col, c.pending k = some col → col.Proper)
    (s : EQMem) (k : ℕ) (o : Option Collection) (ho : ∀ col, o = some col → col.Proper) :
    ∀ j col, (c.put s k o).pending j = some col → col.Proper := by
  intro j col hj
  change Function.update c.pending k o j = some col at hj
  by_cases he : j = k
  · rw [he, Function.update_self] at hj
    exact ho col hj
  · rw [Function.update_of_ne he] at hj
    exact h j col hj

/-! ## Calls -/

section Calls
variable {s : EQMem} {g : SetName}

/-- A modification that inserts nothing into a set without a lock does not bring it about. -/
theorem Committed.absent_stays {p : Prepared} {now : Time} {s' : EQMem} (h : Invariant s)
    (hp : p.Proper) (hc : Committed p s now s') (hgone : s.lock? g = none)
    (hins : ∀ d ∈ p.mod.docInserts, (⟨d.ns, d.key⟩ : SetName) ≠ g) : s'.lock? g = none := by
  have hempty : s.count g = 0 := by
    rw [← h.counted g, EQMem.lockOf_eq, hgone]
    rfl
  have hmember : ∀ q d, s.docAt q = some d → (⟨d.ns, d.key⟩ : SetName) ≠ g := by
    rintro q d hd rfl
    obtain ⟨h1, h2, -⟩ := h.docs.docAt_named hd
    have hm : d ∈ s.members ⟨d.ns, d.key⟩ :=
      (h.docs.mem_members _ d).mpr ⟨by rw [h1, h2]; exact hd, rfl⟩
    rw [EQMem.count_eq_members, Int.natCast_eq_zero, List.length_eq_zero_iff] at hempty
    rw [hempty] at hm
    cases hm
  rw [← hgone]
  refine (hc.untouched h.toSound hp ?_).lock?
  rintro ⟨op, hop, byDur, n, ho⟩
  simp only [Modification.docOps, List.mem_append, List.mem_map] at hop
  rcases hop with (((⟨d, hm, rfl⟩ | ⟨c, hm, rfl⟩) | ⟨r, hm, rfl⟩) | ⟨r, hm, rfl⟩) | ⟨a, hm, rfl⟩
  · rw [(hc.docsPass.insert hm).2.2.2] at ho
    cases ho
    exact hins d hm rfl
  · obtain ⟨d, ⟨hd, -⟩, -, hv⟩ := hc.docsPass.change hm
    rw [hv] at ho
    cases ho
    exact hmember _ d hd rfl
  · obtain ⟨d, ⟨hd, -⟩, -, hv⟩ := hc.docsPass.delete hm
    rw [hv] at ho
    cases ho
    exact hmember _ d hd rfl
  · change dependOutcome _ _ _ r = _ at ho
    unfold dependOutcome at ho
    split_ifs at ho
  · obtain ⟨⟨hstored, -⟩, -, hv⟩ := hc.docsPass.arrive hm
    rw [hv] at ho
    cases ho
    rw [EQMem.lockOf_eq, hgone] at hstored
    cases hstored

theorem Call.absent_stays (h : Invariant s) (call : Call) (hgone : s.lock? g = none)
    (hmod : ∀ mod now, call = .modify mod now → ∀ d ∈ mod.docInserts, (⟨d.ns, d.key⟩ : SetName) ≠ g)
    (hclaim : ∀ cq now, call = .claimDocs cq now → g ∉ setsOf cq) :
    (call.run s).1.lock? g = none := by
  have he := call.effect h.toSound
  generalize (call.run s).1 = s' at he ⊢
  cases he with
  | kept => exact hgone
  | committed _ _ hp hc => exact hc.absent_stays h hp hgone (hmod _ _ rfl)
  | claimed _ ht =>
    rw [ht.docs.lock?]
    exact hgone
  | took ht =>
    rw [ht.lock?, lockEffects_takenLocks ht.valid.once, if_neg (hclaim _ _ rfl)]
    exact hgone
  | collected hc => rw [hc.lock?, hgone, ite_self]

end Calls

/-! ## Steps -/

section Steps
variable {c : Journaling} {at_ : Time} {r : EQMem} (h : c.InStep at_ r)
include h

theorem Journaling.InStep.call (op : Call) (hclear : (JournalStep.call op).Clear c)
    {log : List (JournalEntry × Time)}
    (hlog : log.map Prod.fst = (op.run c.store).2.entry.toList) (hclock : Later op.clock log at_) :
    ∃ r', playJournal r log = .ok r' ∧
      Journaling.InStep { c with store := (op.run c.store).1 } at_ r' := by
  obtain ⟨r', hr, ht⟩ := op.tracks h.invariant h.tracks hlog hclock
  refine ⟨r', hr, op.run_invariant h.invariant, ht, fun g hg => ?_, h.proper⟩
  refine op.absent_stays h.invariant (h.gone g hg) ?_ ?_
  · rintro mod now rfl d hd rfl
    exact hclear d hd hg
  · rintro cq now rfl hm
    exact hclear g hm hg

theorem Journaling.InStep.collectBegin (k : ℕ) (names : List String) (now : Time) (batch : ℕ) :
    ((JournalStep.collectBegin k names now batch).run c).1.InStep at_ r := by
  cases hk : c.pending k with
  | some col =>
    have hrun : ((JournalStep.collectBegin k names now batch).run c).1 = c := by
      simp [JournalStep.run, hk]
    rwa [hrun]
  | none =>
    have hrun : ((JournalStep.collectBegin k names now batch).run c).1 =
        c.put c.store k (some { names, now, batch }) := by
      simp [JournalStep.run, hk]
    have hpending : ∀ g, (c.put c.store k (some { names, now, batch })).Pending g ↔
        c.Pending g := by
      intro g
      rw [c.pending_put, c.pending_iff k, hk]
      simp [Collection.sets]
    rw [hrun]
    refine ⟨h.invariant, h.tracks.weaken fun g hg => (hpending g).mpr hg,
      fun g hg => h.gone g ((hpending g).mp hg), Journaling.proper_put h.proper _ _ _ ?_⟩
    intro col hcol
    cases hcol
    exact ⟨List.nodup_nil, nofun⟩

theorem Journaling.InStep.collectNext (k : ℕ) :
    ((JournalStep.collectNext k).run c).1.InStep at_ r := by
  cases hk : c.pending k with
  | none =>
    have hrun : ((JournalStep.collectNext k).run c).1 = c := by simp [JournalStep.run, hk]
    rwa [hrun]
  | some col =>
    obtain ⟨names, now, batch, collected⟩ := col
    cases names with
    | nil =>
      have hrun : ((JournalStep.collectNext k).run c).1 = c := by simp [JournalStep.run, hk]
      rwa [hrun]
    | cons name names =>
      obtain ⟨new, hnew, hc⟩ := collectNamespace_spec h.invariant.toSound name now batch collected
      generalize hs : (collectNamespace c.store name now batch collected).1 = s' at hc
      have hrun : ((JournalStep.collectNext k).run c).1 =
          c.put s' k (some { names, now, batch, collected := collected ++ new }) := by
        simp [JournalStep.run, hk, hs, hnew]
      have hpending : ∀ g, (c.put s' k
          (some { names, now, batch, collected := collected ++ new })).Pending g ↔
          c.Pending g ∨ g ∈ new.map Prod.fst := by
        intro g
        rw [c.pending_put, c.pending_iff k, hk]
        simp [Collection.sets, or_assoc, exists_or]
      have hold := h.proper k _ hk
      rw [hrun]
      refine ⟨⟨hc.sound, hc.counted h.invariant.counted⟩, ?_, fun g hg => ?_,
        Journaling.proper_put h.proper _ _ _ fun col hcol => ?_⟩
      · exact (hc.tracks h.tracks).weaken fun g hg => (hpending g).mpr hg
      · change s'.lock? g = none
        rcases (hpending g).mp hg with hg | hg
        · rw [hc.lock?, h.gone g hg, ite_self]
        · rw [hc.lock?, if_pos hg]
      · cases hcol
        constructor
        · rw [Collection.sets, List.map_append, List.nodup_append']
          refine ⟨hold.once, hc.once, fun g hg hg' => ?_⟩
          -- what is collected now had a lock, what was collected before had none
          obtain ⟨gl, hgl, rfl⟩ := List.mem_map.mp hg'
          have hsome := (hc.idle gl hgl).1
          rw [h.gone _ ⟨k, _, hk, hg⟩] at hsome
          cases hsome
        · intro gl hgl
          rcases List.mem_append.mp hgl with hgl | hgl
          · exact hold.named gl hgl
          · exact hc.named h.invariant.toSound gl hgl

theorem Journaling.InStep.collectEnd (k : ℕ) {log : List (JournalEntry × Time)}
    (hlog : log.map Prod.fst = ((JournalStep.collectEnd k).run c).2.toList) :
    ∃ r', playJournal r log = .ok r' ∧ ((JournalStep.collectEnd k).run c).1.InStep at_ r' := by
  cases hk : c.pending k with
  | none =>
    have hrun : (JournalStep.collectEnd k).run c = (c, none) := by simp [JournalStep.run, hk]
    rw [hrun] at hlog ⊢
    exact playJournal_none hlog h
  | some col =>
    have hrun : (JournalStep.collectEnd k).run c =
        (c.put c.store k none, collectEntry col.collected) := by simp [JournalStep.run, hk]
    rw [hrun] at hlog ⊢
    have hpending : ∀ g, c.Pending g ↔
        (c.put c.store k none).Pending g ∨ g ∈ col.collected.map Prod.fst := by
      intro g
      rw [c.pending_put, c.pending_iff k, hk]
      simp [Collection.sets]
    have hrest : ∀ r', Tracks (c.put c.store k none).Pending at_ c.store r' →
        (c.put c.store k none).InStep at_ r' := by
      intro r' ht
      exact ⟨h.invariant, ht, fun g hg => h.gone g ((hpending g).mpr (.inl hg)),
        Journaling.proper_put h.proper _ _ _ nofun⟩
    have ht := h.tracks.weaken fun g hg => (hpending g).mp hg
    cases hentry : collectEntry col.collected with
    | none =>
      rw [hentry] at hlog
      refine playJournal_none hlog (hrest r ?_)
      have hnil : col.collected = [] := by
        unfold collectEntry at hentry
        split_ifs at hentry with hempty
        exact List.isEmpty_iff.mp hempty
      simpa [hnil] using ht
    | some e =>
      rw [hentry] at hlog
      refine playJournal_one hlog fun then_ _ => ?_
      obtain ⟨r', hr, ht'⟩ := ht.recorded (h.proper k col hk).once (h.proper k col hk).named
        (fun g hg => h.gone g ((hpending g).mpr (.inr hg))) hentry then_
      exact ⟨r', hr, hrest r' ht'⟩

end Steps

/-! ## Runs -/

/-- No step writes to a set whose collection has not been recorded. -/
abbrev AllClear (c : Journaling) (steps : List JournalStep) : Prop :=
  Along JournalStep.next (fun c st => st.Clear c) c steps

theorem JournalStep.inStep {c : Journaling} {at_ : Time} {r : EQMem} (h : c.InStep at_ r)
    (st : JournalStep) (hclear : st.Clear c) {log : List (JournalEntry × Time)}
    (hlog : log.map Prod.fst = (st.run c).2.toList) (hclock : Later st.clock log at_) :
    ∃ r', playJournal r log = .ok r' ∧ (st.run c).1.InStep at_ r' := by
  cases st with
  | call op => exact h.call op hclear hlog hclock
  | collectBegin k names now batch =>
    refine playJournal_none ?_ (h.collectBegin k names now batch)
    rw [hlog, JournalStep.run]
    cases c.pending k <;> rfl
  | collectNext k =>
    refine playJournal_none ?_ (h.collectNext k)
    rw [hlog, JournalStep.run]
    split <;> rfl
  | collectEnd k => exact h.collectEnd k hlog

theorem runJournal_inStep {c : Journaling} {at_ : Time} {r : EQMem} (h : c.InStep at_ r)
    (steps : List JournalStep) (hclear : AllClear c steps) {log : List (JournalEntry × Time)}
    (hlog : log.map Prod.fst = appended c steps)
    (hclock : Later (steps.flatMap JournalStep.clock) log at_) :
    ∃ r', playJournal r log = .ok r' ∧ (runJournal c steps).InStep at_ r' := by
  induction steps generalizing c r log with
  | nil => exact playJournal_none hlog h
  | cons st steps ih =>
    obtain ⟨hst, hrest⟩ := hclear
    obtain ⟨log₁, log₂, rfl, h1, h2⟩ := List.map_eq_append_iff.mp hlog
    obtain ⟨hclock₁, hclock₂⟩ := hclock.split
    obtain ⟨r₁, hr₁, ht₁⟩ := st.inStep h hst h1 hclock₁
    obtain ⟨r₂, hr₂, ht₂⟩ := ih ht₁ hrest h2 hclock₂
    refine ⟨r₂, ?_, ht₂⟩
    rw [playJournal_append, hr₁]
    exact hr₂

/-- If no step writes to a set between the collection of its lock and the record of it, the journal
gives back exactly the locks in memory once all collections have been recorded. -/
theorem journal_order (steps : List JournalStep) (hclear : AllClear {} steps)
    (hreturned : ∀ k, (runJournal {} steps).pending k = none)
    (log : List (JournalEntry × Time)) (hlog : log.map Prod.fst = appended {} steps) (at_ : Time)
    (hclock : Later (steps.flatMap JournalStep.clock) log at_) :
    ∃ r, playJournal {} log = .ok r ∧
      (finishDocReplay r).lock? = (runJournal {} steps).store.lock? := by
  obtain ⟨r, hr, h⟩ := runJournal_inStep (inStep_empty at_) steps hclear hlog hclock
  have ht : Tracks (fun _ => False) at_ (runJournal {} steps).store r := by
    refine h.tracks.weaken fun g hg => ?_
    obtain ⟨k, col, hk, -⟩ := hg
    rw [hreturned k] at hk
    cases hk
  exact ⟨r, hr, (ht.finished h.invariant).lock?⟩

/-- The set's claim lapses at 15, a collection at 20 deletes its lock, and another worker claims it
before the record is made. -/
def claimedBetween : List JournalStep :=
  [.call (.claimDocs { sets := [{ ns := "n", key := "k" }], claimant := "w", duration := 10 } 5),
    .collectBegin 0 ["n"] 20 100, .collectNext 0,
    .call (.claimDocs { sets := [{ ns := "n", key := "k" }], claimant := "v", duration := 10 } 21),
    .collectEnd 0]

theorem journal_order_lost :
    ((runJournal {} claimedBetween).store.lockOf ⟨"n", "k"⟩).heldByOther "w" 22 = true ∧
    ((playJournal {} ((appended {} claimedBetween).map (fun e => (e, 22)))).toOption.map
      (fun r => ((finishDocReplay r).lock? ⟨"n", "k"⟩).isSome)) = some false := by
  refine ⟨by decide, by decide⟩

/-- The same, with the record made first. -/
def claimedAfter : List JournalStep :=
  [.call (.claimDocs { sets := [{ ns := "n", key := "k" }], claimant := "w", duration := 10 } 5),
    .collectBegin 0 ["n"] 20 100, .collectNext 0, .collectEnd 0,
    .call (.claimDocs { sets := [{ ns := "n", key := "k" }], claimant := "v", duration := 10 } 21)]

theorem claimedAfter_returned (k : ℕ) : (runJournal {} claimedAfter).pending k = none := by
  cases k with
  | zero => decide
  | succ k => rfl

theorem claimedAfter_clear : AllClear {} claimedAfter := by
  refine ⟨fun g _ => ?_, trivial, trivial, trivial, fun g _ => ?_, trivial⟩
  · rintro ⟨k, col, hk, -⟩
    cases hk
  · rintro ⟨k, col, hk, -⟩
    exact nomatch (claimedAfter_returned k).symm.trans hk

theorem journal_order_kept :
    (appended {} claimedAfter).length = 3 ∧
    ∃ r, playJournal {} ((appended {} claimedAfter).map (fun e => (e, 100))) = .ok r ∧
      (finishDocReplay r).lock? = (runJournal {} claimedAfter).store.lock? := by
  refine ⟨by decide, ?_⟩
  have hlog : ((appended {} claimedAfter).map (fun e => (e, (100 : Time)))).map Prod.fst =
      appended {} claimedAfter := by
    rw [List.map_map]
    exact List.map_id _
  have hle : ∀ t ∈ claimedAfter.flatMap JournalStep.clock, t ≤ (100 : Time) := by decide
  refine journal_order claimedAfter claimedAfter_clear claimedAfter_returned _ hlog 100
    ⟨by decide, fun t ht x hx => ?_, fun x hx => ?_⟩
  · obtain ⟨e, -, rfl⟩ := List.mem_map.mp hx
    exact hle t ht
  · obtain ⟨e, -, rfl⟩ := List.mem_map.mp hx
    exact le_refl _

end EntroQ.Eqmem
