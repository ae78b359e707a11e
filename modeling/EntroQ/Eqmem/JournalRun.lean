import EntroQ.Eqmem.Tracking

/-! # The journal of a run

A sequential run with journaling on appends the entries of its calls in order. Replayed later on
an empty store, they rebuild what the run left. -/

namespace EntroQ.Eqmem
open Foundation Docset

/-- What the call appends to the journal. -/
def Answer.entry : Answer → Option JournalEntry
  | .modify (.ok r) => r.entry
  | .tryClaim (.ok (some c)) => some c.entry
  | .claimDocs (.ok r) => some r.entry
  | .collectLocks e => e
  | _ => none

def journal (s : EQMem) (calls : List Call) : List JournalEntry :=
  (answers s calls).filterMap Answer.entry

theorem journal_cons (s : EQMem) (c : Call) (calls : List Call) :
    journal s (c :: calls) = (c.run s).2.entry.toList ++ journal (c.run s).1 calls := by
  unfold journal
  rw [answers, List.filterMap_cons]
  cases (c.run s).2.entry <;> rfl

theorem playJournal_append (r : EQMem) (log log' : List (JournalEntry × Time)) :
    playJournal r (log ++ log') =
      match playJournal r log with
      | .ok r' => playJournal r' log'
      | .error f => .error f := by
  induction log generalizing r with
  | nil => rfl
  | cons x log ih =>
    rw [List.cons_append, playJournal, playJournal]
    cases playJournalEntry r x.1 x.2 with
    | ok r' => exact ih r'
    | error f => rfl

theorem playJournal_one {r : EQMem} {e : JournalEntry} {log : List (JournalEntry × Time)}
    (hlog : log.map Prod.fst = [e]) {Q : EQMem → Prop}
    (hplay : ∀ then_, (e, then_) ∈ log → ∃ r', playJournalEntry r e then_ = .ok r' ∧ Q r') :
    ∃ r', playJournal r log = .ok r' ∧ Q r' := by
  obtain ⟨x, rfl, rfl⟩ := List.map_eq_singleton_iff.mp hlog
  obtain ⟨r', hr, hq⟩ := hplay x.2 (List.mem_singleton_self _)
  refine ⟨r', ?_, hq⟩
  rw [playJournal, hr]
  rfl

theorem playJournal_none {r : EQMem} {log : List (JournalEntry × Time)}
    (hlog : log.map Prod.fst = []) {Q : EQMem → Prop} (hq : Q r) :
    ∃ r', playJournal r log = .ok r' ∧ Q r' := by
  rw [List.map_eq_nil_iff.mp hlog]
  exact ⟨r, rfl, hq⟩

/-- The log is replayed after the readings were taken, and by the time `at_` all of it is. -/
structure Later (readings : List Time) (log : List (JournalEntry × Time)) (at_ : Time) : Prop where
  set : ∀ t ∈ readings, t ≠ 0
  after : ∀ t ∈ readings, ∀ x ∈ log, t ≤ x.2
  done : ∀ x ∈ log, x.2 ≤ at_

theorem Later.split {ts ts' : List Time} {log log' : List (JournalEntry × Time)} {at_ : Time}
    (h : Later (ts ++ ts') (log ++ log') at_) : Later ts log at_ ∧ Later ts' log' at_ :=
  ⟨⟨fun t ht => h.set t (List.mem_append_left _ ht),
      fun t ht x hx => h.after t (List.mem_append_left _ ht) x (List.mem_append_left _ hx),
      fun x hx => h.done x (List.mem_append_left _ hx)⟩,
    ⟨fun t ht => h.set t (List.mem_append_right _ ht),
      fun t ht x hx => h.after t (List.mem_append_right _ ht) x (List.mem_append_right _ hx),
      fun x hx => h.done x (List.mem_append_right _ hx)⟩⟩

variable {P : SetName → Prop} {at_ : Time} {s r : EQMem}

/-- Each call keeps the rebuilt store in step. -/
theorem Call.tracks (h : Invariant s) (c : Call) (ht : Tracks P at_ s r)
    {log : List (JournalEntry × Time)} (hlog : log.map Prod.fst = (c.run s).2.entry.toList)
    (hclock : Later c.clock log at_) :
    ∃ r', playJournal r log = .ok r' ∧ Tracks P at_ (c.run s).1 r' := by
  cases c with
  | modify mod now =>
    change log.map Prod.fst = (Answer.entry (.modify (Eqmem.modify s mod now).2)).toList at hlog
    change ∃ r', _ ∧ Tracks P at_ (Eqmem.modify s mod now).1 r'
    have hnow := hclock.set now (List.mem_singleton_self _)
    have hafter := hclock.after now (List.mem_singleton_self _)
    rcases modify_cases h.toSound mod now with ⟨f, -, hr⟩ | ⟨⟨-, hp⟩, ⟨-, hr⟩ | ⟨s', hr, hc⟩⟩
    · rw [hr] at hlog ⊢
      exact playJournal_none hlog ht
    · rw [hr] at hlog ⊢
      exact playJournal_none hlog ht
    · rw [hr] at hlog ⊢
      refine playJournal_one hlog fun then_ hm => ?_
      exact hc.tracks h.toSound hp ht hnow (hafter _ hm) (hclock.done _ hm)
  | tryClaim cq attempts =>
    change log.map Prod.fst = (Answer.entry (.tryClaim (Eqmem.tryClaim s cq attempts).2)).toList
      at hlog
    change ∃ r', _ ∧ Tracks P at_ (Eqmem.tryClaim s cq attempts).1 r'
    rcases tryClaim_cases h.toSound cq attempts with ⟨e, hr⟩ | hr | ⟨a, ha, s', c, old, hr, -, hc⟩
    · rw [hr] at hlog ⊢
      exact playJournal_none hlog ht
    · rw [hr] at hlog ⊢
      exact playJournal_none hlog ht
    · rw [hr] at hlog ⊢
      have hnow := hclock.set a.now (List.mem_map_of_mem ha)
      exact playJournal_one hlog fun then_ _ => hc.tracks h.toSound ht hnow then_
  | claimDocs cq now =>
    change log.map Prod.fst = (Answer.entry (.claimDocs (Eqmem.claimDocs s cq now).2)).toList
      at hlog
    change ∃ r', _ ∧ Tracks P at_ (Eqmem.claimDocs s cq now).1 r'
    rcases claimDocs_cases h.toSound cq now with ⟨f, hr, -⟩ | ⟨until_, s', d, hr, hc⟩
    · rw [hr] at hlog ⊢
      exact playJournal_none hlog ht
    · rw [hr] at hlog ⊢
      exact playJournal_one hlog fun then_ _ => hc.tracks ht then_
  | docs rq => exact playJournal_none hlog ht
  | tasks tq now order => exact playJournal_none hlog ht
  | collectLocks names now batch =>
    change log.map Prod.fst = (collectLocksOnce s names now batch).2.toList at hlog
    change ∃ r', _ ∧ Tracks P at_ (collectLocksOnce s names now batch).1 r'
    obtain ⟨new, he, hc⟩ := collectLocksOnce_spec h.toSound names now batch
    rw [he] at hlog
    have hpending := hc.tracks ht
    cases hentry : collectEntry new with
    | none =>
      rw [hentry] at hlog
      refine playJournal_none hlog ?_
      have hnil : new = [] := by
        unfold collectEntry at hentry
        split_ifs at hentry with hempty
        exact List.isEmpty_iff.mp hempty
      simpa [hnil] using hpending
    | some e =>
      rw [hentry] at hlog
      refine playJournal_one hlog fun then_ _ => ?_
      refine hpending.recorded hc.once (hc.named h.toSound) (fun g hg => ?_) hentry then_
      rw [hc.lock?, if_pos hg]

theorem run_tracks (h : Invariant s) (calls : List Call) (ht : Tracks P at_ s r)
    {log : List (JournalEntry × Time)} (hlog : log.map Prod.fst = journal s calls)
    (hclock : Later (calls.flatMap Call.clock) log at_) :
    ∃ r', playJournal r log = .ok r' ∧ Tracks P at_ (run s calls) r' := by
  induction calls generalizing s r log with
  | nil => exact playJournal_none hlog ht
  | cons c calls ih =>
    rw [journal_cons] at hlog
    obtain ⟨log₁, log₂, rfl, h1, h2⟩ := List.map_eq_append_iff.mp hlog
    obtain ⟨hclock₁, hclock₂⟩ := hclock.split
    obtain ⟨r₁, hr₁, ht₁⟩ := c.tracks h ht h1 hclock₁
    obtain ⟨r₂, hr₂, ht₂⟩ := ih (c.run_invariant h) ht₁ h2 hclock₂
    refine ⟨r₂, ?_, ht₂⟩
    rw [playJournal_append, hr₁]
    exact hr₂

/-! ## The rebuilt store -/

/-- A doc as it is read: with the version, claimant and arrival of its set. -/
def EQMem.readDoc (s : EQMem) (q : String × String) : Option Doc :=
  (s.docAt q).map (fun d => overlay d (s.lockOf ⟨d.ns, d.key⟩))

theorem Tracks.count_eq (h : s.Sound) (ht : Tracks P at_ s r) : r.count = s.count := by
  funext g
  apply h.docs.count_eq ht.sound.docs g
  have hside : ∀ {a b : EQMem}, (∀ q, (b.docAt q).map bare = (a.docAt q).map bare) → ∀ id,
      (∃ d, b.docAt (g.ns, id) = some d ∧ d.key = g.key) →
      ∃ d, a.docAt (g.ns, id) = some d ∧ d.key = g.key := by
    rintro a b hab id ⟨d, hd, hk⟩
    have hq := hab (g.ns, id)
    rw [hd, Option.map_some, eq_comm, Option.map_eq_some_iff] at hq
    obtain ⟨d', hd', he⟩ := hq
    exact ⟨d', hd', (congrArg Doc.key he).trans hk⟩
  exact fun id => ⟨hside ht.docAt id, hside (fun q => (ht.docAt q).symm) id⟩

theorem EQMem.readDoc_eq (s : EQMem) (q : String × String) :
    s.readDoc q = ((s.docAt q).map bare).map
      (fun d => overlay d ((s.lock? ⟨d.ns, d.key⟩).getD absent)) := by
  unfold EQMem.readDoc
  rw [Option.map_map]
  congr 1
  funext d
  rw [EQMem.lockOf_eq]
  rfl

/-- The last step gives the rebuilt store the live one's locks, with their counts. -/
theorem Tracks.finished (h : Invariant s) (ht : Tracks (fun _ => False) at_ s r) :
    Relocked r (finishDocReplay r) s.lock? := by
  have hcount := ht.count_eq h.toSound
  have hlocked : ∀ g, r.count g ≠ 0 → ∃ l, r.lock? g = some l := by
    intro g hg
    rw [ht.lock? g id]
    cases hl : s.lock? g with
    | none =>
      have := h.counted g
      rw [EQMem.lockOf_eq, hl, ← hcount] at this
      exact absurd this.symm hg
    | some l => exact ⟨counting 0 l, rfl⟩
  have hlocks : (fun g => if r.count g = 0 then r.lock? g
      else (r.lock? g).map (counting (r.count g))) = s.lock? := by
    funext g
    rw [ht.lock? g id, hcount]
    cases hl : s.lock? g with
    | none => split_ifs <;> rfl
    | some l =>
      have hnum : l.numDocs = s.count g := by
        rw [← h.counted g, EQMem.lockOf_eq, hl]
        rfl
      split_ifs with hz
      · change some (counting 0 l) = some l
        rw [counting, ← hz, ← hnum]
      · change some (counting (s.count g) (counting 0 l)) = some l
        rw [← hnum]
        rfl
  have hdone := finishDocReplay_spec ht.sound hlocked
  rwa [hlocks] at hdone

theorem Tracks.readDoc_eq {r' : EQMem} (ht : Tracks P at_ s r) (hdone : Relocked r r' s.lock?) :
    r'.readDoc = s.readDoc := by
  funext q
  rw [EQMem.readDoc_eq, EQMem.readDoc_eq, hdone.docAt, hdone.lock?, ht.docAt]

theorem Tracks.stored {r' : EQMem} (h : s.Sound) (ht : Tracks P at_ s r)
    (hdone : Relocked r r' s.lock?) (q id : String) :
    Option.Rel (Rebuilds at_) (s.stored q id) (r'.stored q id) := by
  have hrel := ht.task id
  rw [← hdone.task] at hrel
  -- a task is stored in the queue it names, on both sides
  have hstored : ∀ {a : EQMem}, a.Sound → a.stored q id = (a.task id).filter (fun t => t.queue = q) := by
    intro a ha
    ext t
    rw [ha.indexed.stored_iff, Option.filter_eq_some_iff, decide_eq_true_iff]
  rw [hstored h, hstored hdone.sound]
  generalize s.task id = old at hrel ⊢
  generalize r'.task id = new at hrel ⊢
  cases hrel with
  | none => exact .none
  | @some t t' hrel =>
    have hqueue : t'.queue = t.queue := by rw [← hrel.same]
    by_cases hq : t.queue = q
    · rw [Option.filter_some_pos (by simpa using hq),
        Option.filter_some_pos (by simpa [hqueue] using hq)]
      exact .some hrel
    · rw [Option.filter_some_neg (by simpa using hq),
        Option.filter_some_neg (by simpa [hqueue] using hq)]
      exact .none

/-- The journal of a run, replayed later, does not fail and rebuilds the tasks, the docs as they
are read, and the locks with their counts; a claimant is cleared only where the hold has ended. -/
theorem journal_rebuilds (calls : List Call) (log : List (JournalEntry × Time))
    (hlog : log.map Prod.fst = journal {} calls) (at_ : Time)
    (hclock : Later (calls.flatMap Call.clock) log at_) :
    ∃ r, playJournal {} log = .ok r ∧
      (∀ q id, Option.Rel (Rebuilds at_) ((run {} calls).stored q id)
        ((finishDocReplay r).stored q id)) ∧
      (finishDocReplay r).readDoc = (run {} calls).readDoc ∧
      (finishDocReplay r).lock? = (run {} calls).lock? := by
  obtain ⟨r, hr, ht⟩ := run_tracks invariant_empty calls (tracks_empty (fun _ => False) at_) hlog
    hclock
  have h := run_invariant invariant_empty calls
  have hdone := ht.finished h
  exact ⟨r, hr, ht.stored h.toSound hdone, ht.readDoc_eq hdone, hdone.lock?⟩

/-- A task is inserted and claimed, a set is claimed, and its lock is collected once it lapses. -/
def journaledRun : List Call :=
  [.modify { claimant := "w", inserts := [{ queue := "q", id := "t" }] } 5,
    .tryClaim { queues := ["q"], claimant := "w", duration := 10 }
      [{ q := "q", now := 6, draws := fun _ => 0 }],
    .claimDocs { sets := [{ ns := "n", key := "k" }], claimant := "w", duration := 10 } 7,
    .collectLocks ["n"] 30 10]

theorem journal_rebuilds_claim :
    (journal {} journaledRun).length = 4 ∧
    ∃ r, playJournal {} ((journal {} journaledRun).map (fun e => (e, 100))) = .ok r ∧
      Option.Rel (Rebuilds 100) ((run {} journaledRun).stored "q" "t")
        ((finishDocReplay r).stored "q" "t") := by
  refine ⟨by decide, ?_⟩
  have hlog : ((journal {} journaledRun).map (fun e => (e, (100 : Time)))).map Prod.fst =
      journal {} journaledRun := by
    rw [List.map_map]
    exact List.map_id _
  obtain ⟨r, hr, htasks, -⟩ := journal_rebuilds journaledRun
    ((journal {} journaledRun).map (fun e => (e, 100))) hlog 100
    ⟨by decide, fun t ht x hx => by
      obtain ⟨e, -, rfl⟩ := List.mem_map.mp hx
      have hle : ∀ t ∈ journaledRun.flatMap Call.clock, t ≤ (100 : Time) := by decide
      exact hle t ht, fun x hx => by
      obtain ⟨e, -, rfl⟩ := List.mem_map.mp hx
      exact le_refl _⟩
  exact ⟨r, hr, htasks "q" "t"⟩

end EntroQ.Eqmem
