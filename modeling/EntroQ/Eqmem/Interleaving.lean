import EntroQ.Eqmem.TaskHistory

/-! # Interleaved modifications

`Modify` prepares under the global lock, where it reads the index, and then checks and writes
under the locks of the queues it found; between the two, other calls go ahead. A modification
whose inserts are looked for in the right queues keeps every ID in one queue. What is not looked
for is an ID that another call has put into a further queue since the modification was prepared,
as those two calls hold no lock in common. -/

namespace EntroQ.Eqmem
open Foundation Docset

/-- The store, and the modifications that are prepared and not yet made, by call. -/
structure Interleaved where
  store : EQMem := {}
  pending : ℕ → Option Prepared := fun _ => none

inductive Event
  | prep (call : ℕ) (mod : Modification)
  | apply (call : ℕ) (now : Time)
  | tryClaim (cq : ClaimQuery) (attempts : List Attempt)

namespace Event

/-- A call whose arguments are refused prepares nothing. -/
def run (c : Interleaved) : Event → Interleaved
  | .prep call mod =>
    if Validate.modification mod = none ∧ missingInsertID mod = none then
      { c with pending := Function.update c.pending call (some (modPrep c.store mod false)) }
    else c
  | .apply call now =>
    match c.pending call with
    | none => c
    | some p =>
      { store := (modApply c.store p now false).1, pending := Function.update c.pending call none }
  | .tryClaim cq attempts => { c with store := (Eqmem.tryClaim c.store cq attempts).1 }

variable (c : Interleaved) (id : String)

def inserts : Event → Bool
  | .apply call now => (c.pending call).any fun p =>
      (modApply c.store p now false).2.isOk && id ∈ p.mod.inserts.map TaskData.id
  | _ => false

def deletes : Event → Bool
  | .apply call now => (c.pending call).any fun p =>
      (modApply c.store p now false).2.isOk && id ∈ p.mod.deletes.map TaskID.id
  | _ => false

/-- A modification is made and returns an error or panics. -/
def fails : Event → Bool
  | .apply call now => (c.pending call).any fun p => !(modApply c.store p now false).2.isOk
  | _ => false

end Event

def runEvents (c : Interleaved) (events : List Event) : Interleaved := events.foldl Event.run c

theorem runEvents_append (c : Interleaved) (es es' : List Event) :
    runEvents c (es ++ es') = runEvents (runEvents c es) es' :=
  List.foldl_append

/-! ## Inserts that are looked for where they are -/

instance (p : Prepared) (s : EQMem) : Decidable (p.Seen s) :=
  inferInstanceAs (Decidable (∀ ins ∈ p.mod.inserts, ∀ t ∈ s.task ins.id,
    t.queue = ins.queue ∨ p.misplaced.lookup ins.id = some t.queue))

def Event.Seen (c : Interleaved) : Event → Prop
  | .apply call _ => ∀ p, c.pending call = some p → p.Seen c.store
  | _ => True

instance (c : Interleaved) : (e : Event) → Decidable (e.Seen c)
  | .prep _ _ => .isTrue trivial
  | .apply call _ => inferInstanceAs (Decidable (∀ p ∈ c.pending call, p.Seen c.store))
  | .tryClaim _ _ => .isTrue trivial

/-- The store is sound, and what is prepared is proper. -/
structure Interleaved.Sound (c : Interleaved) : Prop where
  store : c.store.Sound
  pending : ∀ call p, c.pending call = some p → p.Proper

theorem interleaved_empty : Interleaved.Sound {} := ⟨EQMem.sound_empty, nofun⟩

/-- A task is there after a modification that does not delete it. -/
theorem Committed.task_stays {p : Prepared} {s s' : EQMem} {now : Time} (h : s.Sound)
    (hp : p.Proper) (hc : Committed p s now s') {id : String} (ht : s.task id ≠ none)
    (hd : id ∉ p.mod.deletes.map TaskID.id) : s'.task id ≠ none := by
  have hafter := hp.tasksAfter now false h.indexed (hc.passes.fits hp h.indexed)
  rw [hc.applied.task]
  by_cases ho : id ∈ p.origins.map TaskID.id
  · obtain ⟨r, hr, rfl⟩ := List.mem_map.mp ho
    rw [Prepared.origins, ← hp.covers.changed_origins h.indexed] at hr
    obtain ⟨c, hcm, rfl⟩ := List.mem_map.mp hr
    change effects _ _ c.task.id ≠ none
    rw [hafter.changed c hcm]
    exact Option.some_ne_none _
  · by_cases hi : id ∈ p.mod.inserts.map TaskData.id
    · obtain ⟨td, htd, rfl⟩ := List.mem_map.mp hi
      rw [hafter.inserted td htd]
      exact Option.some_ne_none _
    · rw [hafter.others id hd ho hi]
      exact ht

/-- One event keeps the store sound and every ID that it does not delete. What it inserts was not
there before, and is there after. -/
structure Keeps (c : Interleaved) (e : Event) : Prop where
  sound : (e.run c).Sound
  stays : ∀ id, c.store.task id ≠ none → e.deletes c id = false → (e.run c).store.task id ≠ none
  fresh : ∀ id, e.inserts c id = true → c.store.task id = none ∧ (e.run c).store.task id ≠ none

theorem Keeps.of_store {c : Interleaved} {e : Event} (h : (e.run c).Sound)
    (hs : (e.run c).store = c.store) (hno : ∀ id, e.inserts c id = false) : Keeps c e where
  sound := h
  stays id ht _ := by rwa [hs]
  fresh id hi := by
    rw [hno] at hi
    cases hi

/-- A modification that has an insert locks a queue. -/
theorem Prepared.Proper.no_inserts {p : Prepared} (hp : p.Proper) (hs : p.shortCircuits = true) :
    p.mod.inserts = [] := by
  by_contra hne
  obtain ⟨td, htd⟩ := List.exists_mem_of_ne_nil _ hne
  have hq := hp.covers.refs (td.queue, td.id)
    ((p.mem_taskRefs _).mpr (.inr ⟨td, htd, rfl, .inl rfl⟩)) (hp.inserts td htd).2
  simp only [Prepared.shortCircuits, Bool.and_eq_true, List.isEmpty_iff] at hs
  rw [hs.1.1.1.2] at hq
  cases hq

theorem apply_keeps {c : Interleaved} (h : c.Sound) (call : ℕ) (now : Time)
    (hseen : (Event.apply call now).Seen c) : Keeps c (.apply call now) := by
  cases hp : c.pending call with
  | none =>
    have hrun : (Event.apply call now).run c = c := by simp [Event.run, hp]
    exact .of_store (by rwa [hrun]) (by rw [hrun]) (by simp [Event.inserts, hp])
  | some p =>
    have hproper := h.pending call p hp
    have hstore : ((Event.apply call now).run c).store = (modApply c.store p now false).1 := by
      simp [Event.run, hp]
    have hpending : ∀ k q, ((Event.apply call now).run c).pending k = some q → q.Proper := by
      intro k q hq
      simp only [Event.run, hp] at hq
      by_cases hk : k = call
      · rw [hk, Function.update_self] at hq
        cases hq
      · rw [Function.update_of_ne hk] at hq
        exact h.pending k q hq
    have hinserts : ∀ id, (Event.apply call now).inserts c id =
        ((modApply c.store p now false).2.isOk && id ∈ p.mod.inserts.map TaskData.id) := by
      simp [Event.inserts, hp]
    have hdeletes : ∀ id, (Event.apply call now).deletes c id =
        ((modApply c.store p now false).2.isOk && id ∈ p.mod.deletes.map TaskID.id) := by
      simp [Event.deletes, hp]
    rcases modApply_cases h.store hproper (hseen p hp).fresh now with
      ⟨hs, hm⟩ | ⟨-, -, hm⟩ | ⟨-, -, e, -, hm⟩ | ⟨-, -, s', hm, hc⟩
    · refine .of_store ⟨by rw [hstore, hm]; exact h.store, hpending⟩ (by rw [hstore, hm]) fun id => ?_
      rw [hinserts, hproper.no_inserts hs]
      simp
    · refine .of_store ⟨by rw [hstore, hm]; exact h.store, hpending⟩ (by rw [hstore, hm]) fun id => ?_
      rw [hinserts, hm]
      rfl
    · refine .of_store ⟨by rw [hstore, hm]; exact h.store, hpending⟩ (by rw [hstore, hm]) fun id => ?_
      rw [hinserts, hm]
      rfl
    · rw [hm] at hstore
      refine ⟨⟨by rw [hstore]; exact hc.applied.sound, hpending⟩, fun id ht hd => ?_, fun id hi => ?_⟩
      · rw [hstore]
        rw [hdeletes, hm] at hd
        exact hc.task_stays h.store hproper ht (by simpa [Except.isOk, Except.toBool] using hd)
      · rw [hinserts, hm, Bool.and_eq_true, decide_eq_true_iff] at hi
        obtain ⟨td, htd, rfl⟩ := List.mem_map.mp hi.2
        have hafter := hproper.tasksAfter now false h.store.indexed
          (hc.passes.fits hproper h.store.indexed)
        refine ⟨hc.fresh td htd, ?_⟩
        rw [hstore, hc.applied.task, hafter.inserted td htd]
        exact Option.some_ne_none _

theorem prep_keeps {c : Interleaved} (h : c.Sound) (call : ℕ) (mod : Modification) :
    Keeps c (.prep call mod) := by
  by_cases hv : Validate.modification mod = none ∧ missingInsertID mod = none
  · have hrun : (Event.prep call mod).run c =
        { c with pending := Function.update c.pending call (some (modPrep c.store mod false)) } :=
      if_pos hv
    refine .of_store ?_ (by rw [hrun]) fun _ => rfl
    rw [hrun]
    refine ⟨h.store, fun k p hk => ?_⟩
    by_cases he : k = call
    · simp only [he, Function.update_self] at hk
      cases hk
      exact Validated.proper (Validate.modification_none mod hv.1) hv.2 c.store
    · simp only [Function.update_of_ne he] at hk
      exact h.pending k p hk
  · have hrun : (Event.prep call mod).run c = c := if_neg hv
    exact .of_store (by rwa [hrun]) (by rw [hrun]) fun _ => rfl

theorem tryClaim_keeps {c : Interleaved} (h : c.Sound) (cq : ClaimQuery)
    (attempts : List Attempt) : Keeps c (.tryClaim cq attempts) := by
  have hrun : (Event.tryClaim cq attempts).run c =
      { c with store := (tryClaim c.store cq attempts).1 } := rfl
  rcases tryClaim_cases h.store cq attempts with ⟨e, hr⟩ | hr | ⟨a, -, s', cl, t, hr, -, ht⟩
  · rw [hr] at hrun
    exact .of_store (by rwa [hrun]) (by rw [hrun]) fun _ => rfl
  · rw [hr] at hrun
    exact .of_store (by rwa [hrun]) (by rw [hrun]) fun _ => rfl
  · rw [hr] at hrun
    refine ⟨by rw [hrun]; exact ⟨ht.sound, h.pending⟩, fun id hid _ => ?_, nofun⟩
    rw [hrun]
    change s'.task id ≠ none
    rw [ht.table]
    by_cases he : id = t.id
    · rw [he, Function.update_self]
      exact Option.some_ne_none _
    · rw [Function.update_of_ne he]
      exact hid

theorem Event.keeps {c : Interleaved} (h : c.Sound) (e : Event) (hseen : e.Seen c) :
    Keeps c e := by
  cases e with
  | prep call mod => exact prep_keeps h call mod
  | apply call now => exact apply_keeps h call now hseen
  | tryClaim cq attempts => exact tryClaim_keeps h cq attempts

def AllSeen (c : Interleaved) (events : List Event) : Prop :=
  ∀ pre e post, events = pre ++ e :: post → e.Seen (runEvents c pre)

theorem allSeen_cons {c : Interleaved} {e : Event} {events : List Event} :
    AllSeen c (e :: events) ↔ e.Seen c ∧ AllSeen (e.run c) events := by
  constructor
  · intro h
    exact ⟨h [] e events rfl, fun pre e' post he => h (e :: pre) e' post (by rw [he]; rfl)⟩
  · rintro ⟨h, ht⟩ pre e' post he
    cases pre with
    | nil =>
      cases he
      exact h
    | cons d pre =>
      cases he
      exact ht pre e' post rfl

theorem AllSeen.left {c : Interleaved} {es es' : List Event} (h : AllSeen c (es ++ es')) :
    AllSeen c es :=
  fun pre e post he => h pre e (post ++ es') (by rw [he]; simp)

theorem AllSeen.right {c : Interleaved} {es es' : List Event} (h : AllSeen c (es ++ es')) :
    AllSeen (runEvents c es) es' := by
  intro pre e post he
  have := h (es ++ pre) e post (by rw [he]; simp)
  rwa [runEvents_append] at this

theorem runEvents_sound {c : Interleaved} (h : c.Sound) (events : List Event)
    (hseen : AllSeen c events) : (runEvents c events).Sound := by
  induction events generalizing c with
  | nil => exact h
  | cons e events ih =>
    obtain ⟨he, hseen⟩ := allSeen_cons.mp hseen
    exact ih (e.keeps h he).sound hseen

theorem runEvents_stays {c : Interleaved} (h : c.Sound) (events : List Event)
    (hseen : AllSeen c events) {id : String} (ht : c.store.task id ≠ none)
    (hdel : ∀ pre e post, events = pre ++ e :: post → e.deletes (runEvents c pre) id = false) :
    (runEvents c events).store.task id ≠ none := by
  induction events generalizing c with
  | nil => exact ht
  | cons e events ih =>
    obtain ⟨he, hseen⟩ := allSeen_cons.mp hseen
    have hk := e.keeps h he
    refine ih hk.sound hseen (hk.stays id ht (hdel [] e events rfl)) ?_
    exact fun pre e' post he => hdel (e :: pre) e' post (by rw [he]; rfl)

/-- If every modification is made on a store where each stored ID that it inserts is in a queue it
looks into, every ID is in one queue at every moment of the run, and of two inserts of an ID with
no delete of it in between one fails. -/
theorem interleaved_inserts (events : List Event) (hseen : AllSeen {} events) :
    (∀ pre post, events = pre ++ post →
      ∀ q q' id t t', (runEvents {} pre).store.stored q id = some t →
        (runEvents {} pre).store.stored q' id = some t' → q = q') ∧
    ∀ id pre e mid e' post, events = pre ++ e :: mid ++ e' :: post →
      e.inserts (runEvents {} pre) id = true →
      (∀ pre' d post', mid = pre' ++ d :: post' →
        d.deletes (runEvents {} (pre ++ e :: pre')) id = false) →
      e'.inserts (runEvents {} (pre ++ e :: mid)) id = false := by
  constructor
  · intro pre post he q q' id t t' ht ht'
    have hsound := runEvents_sound interleaved_empty pre (he ▸ hseen).left
    exact (hsound.store.indexed.unique ht ht').1
  · intro id pre e mid e' post he hi hdel
    rw [he] at hseen
    have hsound := runEvents_sound interleaved_empty _ hseen.left
    obtain ⟨hfirst, hmid⟩ := allSeen_cons.mp hseen.left.right
    have hk := e.keeps (runEvents_sound interleaved_empty pre hseen.left.left) hfirst
    -- the first insert leaves the ID there, and the events in between keep it
    have hstay : (runEvents {} (pre ++ e :: mid)).store.task id ≠ none := by
      rw [runEvents_append]
      refine runEvents_stays hk.sound mid hmid (hk.fresh id hi).2 ?_
      intro pre' d post' hd
      have := hdel pre' d post' hd
      rwa [runEvents_append] at this
    have hk' := e'.keeps hsound (allSeen_cons.mp hseen.right).1
    by_contra hi'
    rw [Bool.not_eq_false] at hi'
    exact hstay (hk'.fresh id hi').1

/-- A modification that fails, however long ago it was prepared and whatever has been made since,
leaves the store as it was: nothing of it is written half way. -/
theorem failed_leaves_store (events : List Event) (hseen : AllSeen {} events) (e : Event)
    (hf : e.fails (runEvents {} events) = true) :
    (e.run (runEvents {} events)).store = (runEvents {} events).store := by
  have h := runEvents_sound interleaved_empty events hseen
  generalize runEvents {} events = c at h hf ⊢
  cases e with
  | prep call mod => cases hf
  | tryClaim cq attempts => cases hf
  | apply call now =>
    cases hp : c.pending call with
    | none => simp [Event.fails, hp] at hf
    | some p =>
      have hstore : ((Event.apply call now).run c).store = (modApply c.store p now false).1 := by
        simp [Event.run, hp]
      rw [hstore]
      cases hr : (modApply c.store p now false).2 with
      | ok r => simp [Event.fails, hp, hr, Except.isOk, Except.toBool] at hf
      | error f => exact modApply_error h.store (h.pending call p hp) hr

def insertInto (q id : String) : Modification :=
  { claimant := "c", inserts := [{ queue := q, id := id }] }

def bothPrepared : List Event :=
  [.prep 1 (insertInto "q1" "t"), .prep 2 (insertInto "q2" "t"), .apply 1 10, .apply 2 20]

/-- Two inserts of one ID into two queues, both prepared before either is made, both succeed, and
the task is in both queues. -/
theorem interleaved_twice :
    Event.inserts (runEvents {} (bothPrepared.take 2)) "t" (.apply 1 10) = true ∧
    Event.inserts (runEvents {} (bothPrepared.take 3)) "t" (.apply 2 20) = true ∧
    ((runEvents {} bothPrepared).store.stored "q1" "t").isSome = true ∧
    ((runEvents {} bothPrepared).store.stored "q2" "t").isSome = true := by
  decide

/-- The second is prepared after the first is made, so it looks for the ID where it is. -/
def onePrepared : List Event :=
  [.prep 1 (insertInto "q1" "t"), .apply 1 10, .prep 2 (insertInto "q2" "t"), .apply 2 20]

theorem onePrepared_seen : AllSeen {} onePrepared := by
  simp only [onePrepared, allSeen_cons]
  exact ⟨by decide, by decide, by decide, by decide, by simp [AllSeen]⟩

/-- A modification is prepared that inserts a task and deletes another, and that one is changed before
it is made. -/
def lateDelete : List Event :=
  [.prep 1 (insertInto "q1" "t"), .apply 1 10,
   .prep 2 { insertInto "q2" "u" with deletes := [⟨"t", 0, "q1"⟩] },
   .prep 3 { claimant := "c", changes := [{ task := { queue := "q1", id := "t", fromQueue := "q1" } }] },
   .apply 3 20]

theorem lateDelete_seen : AllSeen {} lateDelete := by
  simp only [lateDelete, allSeen_cons]
  exact ⟨by decide, by decide, by decide, by decide, by decide, by simp [AllSeen]⟩

theorem failed_leaves_store_late :
    ((runEvents {} lateDelete).store.task "t").map Task.version = some 1 ∧
      ((Event.apply 2 30).run (runEvents {} lateDelete)).store = (runEvents {} lateDelete).store :=
  ⟨by decide, failed_leaves_store lateDelete lateDelete_seen (.apply 2 30) (by decide)⟩

theorem interleaved_once :
    Event.inserts (runEvents {} (onePrepared.take 1)) "t" (.apply 1 10) = true ∧
    Event.inserts (runEvents {} (onePrepared.take 1 ++
      .apply 1 10 :: [.prep 2 (insertInto "q2" "t")])) "t" (.apply 2 20) = false := by
  have hfirst : Event.inserts (runEvents {} (onePrepared.take 1)) "t" (.apply 1 10) = true := by
    decide
  have hprep : ∀ (pre' post' : List Event) (d : Event),
      [Event.prep 2 (insertInto "q2" "t")] = pre' ++ d :: post' →
        d.deletes (runEvents {} (onePrepared.take 1 ++ .apply 1 10 :: pre')) "t" = false := by
    intro pre' post' d he
    cases pre' with
    | nil =>
      cases he
      rfl
    | cons => simp at he
  exact ⟨hfirst, (interleaved_inserts onePrepared onePrepared_seen).2 "t" (onePrepared.take 1)
    (.apply 1 10) [.prep 2 (insertInto "q2" "t")] (.apply 2 20) [] rfl hfirst
    fun pre' d post' he => hprep pre' post' d he⟩

end EntroQ.Eqmem
