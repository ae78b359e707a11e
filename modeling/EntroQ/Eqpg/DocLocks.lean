import EntroQ.Docset.Sets

/-! # The lock rows of a modification

A modification in Postgres locks the rows of the sets it names, `FOR UPDATE` those it writes and
`FOR SHARE` those it only depends on, evaluates what it read from them and updates the rows of
the planned locks. The rows it has not locked are as if they were not there. -/

namespace EntroQ.Eqpg

open Docset

/-- A row of `doc_locks`. -/
structure Row where
  version : Int32
  claimant : String := ""
  atTime : Time
  numDocs : ℤ := 0
  deriving DecidableEq

/-- Marks a row made to lock a set that has none of its own. -/
def placeholderVersion : Int32 := -1

def Row.lock (r : Row) : Lock :=
  if r.version = placeholderVersion then absent
  else { stored := true, version := r.version, claimant := r.claimant, atTime := r.atTime,
         numDocs := r.numDocs }

def Row.ofLock (l : Lock) : Row := ⟨l.version, l.claimant, l.atTime, l.numDocs⟩

inductive Mode
  | share
  | update
  deriving DecidableEq

/-- What a transaction holds: the rows as it sees them, the row locks it took, the locks it read
under them and the database's time. -/
structure LockedSets where
  rows : SetName → Option Row
  taken : List (SetName × Mode) := []
  locks : SetName → Option Lock := fun _ => none
  now : Time := 0

namespace LockedSets

def lock (s : LockedSets) (g : SetName) : Lock := (s.locks g).getD absent

/-- Read the rows found into the locks. The time is zero if there were no rows. -/
def scanLocks (s : LockedSets) (clock : Time) (found : List SetName) : LockedSets :=
  { s with
    locks := fun g => if g ∈ found then (s.rows g).map Row.lock else s.locks g
    now := if found.isEmpty then 0 else clock }

def shareSets (clock : Time) (sets : List SetName) (s : LockedSets) : LockedSets :=
  let found := sets.filter fun g => (s.rows g).isSome
  { s with taken := s.taken ++ found.map (·, Mode.share) }.scanLocks clock found

def upsertSets (clock : Time) (sets : List SetName) (s : LockedSets) : LockedSets :=
  { s with
    rows := fun g =>
      if g ∈ sets then some ((s.rows g).getD { version := placeholderVersion, atTime := clock })
      else s.rows g
    taken := s.taken ++ sets.map (·, Mode.update) }.scanLocks clock sets

end LockedSets

section LockSets
variable (clock : Time) (rows : SetName → Option Row) (sets : List SetName)
  (exclusive : Finset SetName)

def sortSets : List SetName :=
  sets.mergeSort fun a b => decide (a.ns < b.ns) || (a.ns == b.ns && decide (a.key ≤ b.key))

def lockRun (s : LockedSets) (run : List SetName) : LockedSets :=
  match run.head? with
  | none => s
  | some g => if g ∈ exclusive then s.upsertSets clock run else s.shareSets clock run

def lockSets : LockedSets :=
  if sets.isEmpty then { rows, now := clock }
  else
    ((sortSets sets).splitBy fun a b => decide (a ∈ exclusive) == decide (b ∈ exclusive)).foldl
      (lockRun clock exclusive) { rows }

end LockSets

/-- `UPDATE` of the rows of the planned locks. -/
def saveLocks (locks : AList (fun _ : SetName => Lock)) (rows : SetName → Option Row)
    (g : SetName) : Option Row :=
  match locks.lookup g, rows g with
  | some l, some _ => some (Row.ofLock l)
  | _, r => r

def modifyDocs (mod : Modification) (clock : Time) (member : String → String → Option Doc)
    (occupant : SetName → String → Option Doc) (rows : SetName → Option Row) :
    Except DependencyError LockedSets :=
  if mod.docOps.isEmpty then .ok { rows }
  else
    let held := lockSets clock rows (sets mod member) (exclusive mod member)
    let plan := evaluate mod held.now member occupant held.lock
    match plan.err with
    | some e => .error e
    | none => .ok { held with rows := saveLocks plan.locks held.rows }

/-! ## What a transaction has locked -/

def storedLock (rows : SetName → Option Row) (g : SetName) : Lock :=
  ((rows g).map Row.lock).getD absent

/-- After the rows of `done` were locked: those of the exclusive sets are there and locked for
update, every lock read is the stored one, and no other row was touched. -/
structure Locked (exclusive : Finset SetName) (rows : SetName → Option Row)
    (done : List SetName) (s : LockedSets) : Prop where
  read : ∀ g ∈ done, s.lock g = storedLock rows g
  taken : ∀ g ∈ done, g ∈ exclusive → (g, Mode.update) ∈ s.taken ∧ (s.rows g).isSome = true
  same : ∀ g, storedLock s.rows g = storedLock rows g
  rest : ∀ g, g ∉ done ∨ g ∉ exclusive → s.rows g = rows g
  unread : ∀ g, g ∉ done → s.locks g = none

section Locked
variable {clock : Time} {rows : SetName → Option Row} {exclusive : Finset SetName}
  {done run : List SetName} {s : LockedSets}

theorem Locked.start : Locked exclusive rows [] { rows } :=
  ⟨by simp, by simp, fun _ => rfl, fun _ _ => rfl, fun _ _ => rfl⟩

theorem Locked.shareSets (h : Locked exclusive rows done s) (hrun : ∀ g ∈ run, g ∉ exclusive) :
    Locked exclusive rows (done ++ run) (s.shareSets clock run) := by
  have hlock (g : SetName) (hg : g ∈ done ∨ g ∈ run) :
      (s.shareSets clock run).lock g = storedLock rows g := by
    simp only [LockedSets.shareSets, LockedSets.scanLocks, LockedSets.lock, List.mem_filter]
    split_ifs with hfound
    · exact h.same g
    · by_cases hd : g ∈ done
      · exact h.read g hd
      · -- a set without a row is absent, read or not
        have hnone : s.rows g = none := by
          simpa [hg.resolve_left hd] using hfound
        rw [h.unread g hd, ← h.same g, storedLock, hnone]
        rfl
  refine ⟨?_, ?_, h.same, ?_, ?_⟩
  · intro g hg
    exact hlock g (List.mem_append.mp hg)
  · intro g hg hexcl
    rcases List.mem_append.mp hg with hd | hr
    · obtain ⟨ht, hrow⟩ := h.taken g hd hexcl
      exact ⟨List.mem_append_left _ ht, hrow⟩
    · exact absurd hexcl (hrun g hr)
  · intro g hg
    apply h.rest g
    rcases hg with hg | hg
    · exact .inl fun hd => hg (List.mem_append_left _ hd)
    · exact .inr hg
  · intro g hg
    rw [List.mem_append, not_or] at hg
    simp only [LockedSets.shareSets, LockedSets.scanLocks, List.mem_filter]
    rw [if_neg fun hf => hg.2 hf.1]
    exact h.unread g hg.1

theorem storedLock_upsert (h : ∀ g, storedLock s.rows g = storedLock rows g) (g : SetName) :
    storedLock (s.upsertSets clock run).rows g = storedLock rows g := by
  rw [← h g]
  simp only [LockedSets.upsertSets, LockedSets.scanLocks, storedLock]
  split_ifs
  · -- a row made for the lock reads back as no row
    cases s.rows g with
    | none => rfl
    | some r => rfl
  · rfl

theorem Locked.upsertSets (h : Locked exclusive rows done s) (hrun : ∀ g ∈ run, g ∈ exclusive) :
    Locked exclusive rows (done ++ run) (s.upsertSets clock run) := by
  have hsame : ∀ g, storedLock (s.upsertSets clock run).rows g = storedLock rows g :=
    storedLock_upsert h.same
  refine ⟨?_, ?_, hsame, ?_, ?_⟩
  · intro g hg
    by_cases hr : g ∈ run
    · rw [← hsame g]
      simp only [LockedSets.upsertSets, LockedSets.scanLocks, LockedSets.lock, storedLock, if_pos hr]
    · simp only [LockedSets.upsertSets, LockedSets.scanLocks, LockedSets.lock, if_neg hr]
      exact h.read g ((List.mem_append.mp hg).resolve_right hr)
  · intro g hg hexcl
    simp only [LockedSets.upsertSets, LockedSets.scanLocks]
    by_cases hr : g ∈ run
    · exact ⟨List.mem_append_right _ (List.mem_map.mpr ⟨g, hr, rfl⟩), by simp [hr]⟩
    · obtain ⟨ht, hrow⟩ := h.taken g ((List.mem_append.mp hg).resolve_right hr) hexcl
      exact ⟨List.mem_append_left _ ht, by simpa [hr] using hrow⟩
  · intro g hg
    have hr : g ∉ run := by
      rcases hg with hg | hg
      · exact fun hr => hg (List.mem_append_right _ hr)
      · exact fun hr => hg (hrun g hr)
    simp only [LockedSets.upsertSets, LockedSets.scanLocks, if_neg hr]
    apply h.rest g
    rcases hg with hg | hg
    · exact .inl fun hd => hg (List.mem_append_left _ hd)
    · exact .inr hg
  · intro g hg
    rw [List.mem_append, not_or] at hg
    simp only [LockedSets.upsertSets, LockedSets.scanLocks, if_neg hg.2]
    exact h.unread g hg.1

theorem Locked.lockRun (h : Locked exclusive rows done s)
    (hrun : ∀ a ∈ run, ∀ b ∈ run, (a ∈ exclusive ↔ b ∈ exclusive)) :
    Locked exclusive rows (done ++ run) (lockRun clock exclusive s run) := by
  cases run with
  | nil => simpa [Eqpg.lockRun] using h
  | cons g run =>
    simp only [Eqpg.lockRun, List.head?_cons]
    split_ifs with hg
    · exact h.upsertSets fun a ha => (hrun a ha g (by simp)).mpr hg
    · exact h.shareSets fun a ha hexcl => hg ((hrun a ha g (by simp)).mp hexcl)

theorem Locked.foldl {runs : List (List SetName)} (h : Locked exclusive rows done s)
    (hruns : ∀ run ∈ runs, ∀ a ∈ run, ∀ b ∈ run, (a ∈ exclusive ↔ b ∈ exclusive)) :
    Locked exclusive rows (done ++ runs.flatten)
      (runs.foldl (Eqpg.lockRun clock exclusive) s) := by
  induction runs generalizing done s with
  | nil => simpa using h
  | cons run runs ih =>
    rw [List.flatten_cons, ← List.append_assoc, List.foldl_cons]
    exact ih (h.lockRun (hruns run (by simp))) fun r hr => hruns r (List.mem_cons_of_mem _ hr)

theorem splitBy_mode {sets run : List SetName}
    (h : run ∈ sets.splitBy fun a b => decide (a ∈ exclusive) == decide (b ∈ exclusive)) :
    ∀ a ∈ run, ∀ b ∈ run, (a ∈ exclusive ↔ b ∈ exclusive) := by
  have hchain : run.IsChain fun a b => (a ∈ exclusive ↔ b ∈ exclusive) := by
    simpa using List.isChain_of_mem_splitBy h
  have : IsTrans SetName fun a b => (a ∈ exclusive ↔ b ∈ exclusive) := ⟨fun _ _ _ => Iff.trans⟩
  have hpair := List.isChain_iff_pairwise.mp hchain
  have : Std.Symm fun a b : SetName => (a ∈ exclusive ↔ b ∈ exclusive) := ⟨fun _ _ => Iff.symm⟩
  exact fun a ha b hb => hpair.forall_of_forall (fun _ _ => ⟨id, id⟩) ha hb

theorem lockSets_locked (clock : Time) (rows : SetName → Option Row) (sets : List SetName)
    (exclusive : Finset SetName) :
    Locked exclusive rows (sortSets sets) (lockSets clock rows sets exclusive) := by
  unfold lockSets
  split_ifs with hnil
  · rw [List.isEmpty_iff.mp hnil]
    exact ⟨by simp [sortSets], by simp [sortSets], fun _ => rfl, fun _ _ => rfl, fun _ _ => rfl⟩
  · have hstart : Locked exclusive rows [] { rows } := Locked.start
    let runs := (sortSets sets).splitBy
      fun a b => decide (a ∈ exclusive) == decide (b ∈ exclusive)
    have hruns : ∀ run ∈ runs, ∀ a ∈ run, ∀ b ∈ run, (a ∈ exclusive ↔ b ∈ exclusive) :=
      fun _ => splitBy_mode
    have h : Locked exclusive rows ([] ++ runs.flatten)
        (runs.foldl (Eqpg.lockRun clock exclusive) { rows }) := hstart.foldl hruns
    rwa [List.nil_append, List.flatten_splitBy] at h

theorem mem_sortSets {sets : List SetName} {g : SetName} : g ∈ sortSets sets ↔ g ∈ sets :=
  List.mem_mergeSort

end Locked

section Modify
variable (mod : Modification) (clock : Time) (member : String → String → Option Doc)
  (occupant : SetName → String → Option Doc) (rows : SetName → Option Row)

theorem plan_locked (now : Time) :
    evaluate mod now member occupant
        (lockSets clock rows (sets mod member) (exclusive mod member)).lock =
      evaluate mod now member occupant (storedLock rows) := by
  apply evaluate_reads_sets
  intro g hg
  exact (lockSets_locked clock rows _ _).read g (mem_sortSets.mpr hg)

/-- A row that the modification changed or made is one it locked for update, of a set it plans to
write, and it holds the planned lock. -/
theorem modifyDocs_rows {s : LockedSets} (h : modifyDocs mod clock member occupant rows = .ok s)
    (g : SetName) :
    (g ∈ exclusive mod member → (g, Mode.update) ∈ s.taken ∧
      ∃ l, (evaluate mod s.now member occupant (storedLock rows)).locks.lookup g = some l ∧
        s.rows g = some (Row.ofLock l)) ∧
    (g ∉ exclusive mod member → s.rows g = rows g) := by
  have hlocked := lockSets_locked clock rows (sets mod member) (exclusive mod member)
  have hplan := plan_locked mod clock member occupant rows
  unfold modifyDocs at h
  split_ifs at h with hnone
  · cases h
    have hexcl : exclusive mod member = ∅ := by
      rw [Finset.eq_empty_iff_forall_notMem]
      intro g hg
      rw [mem_exclusive, asked, List.isEmpty_iff.mp hnone] at hg
      exact hg rfl
    simp [hexcl]
  · dsimp only at h
    generalize lockSets clock rows (sets mod member) (exclusive mod member) = held
      at h hlocked hplan
    rw [hplan] at h
    cases herr : (evaluate mod held.now member occupant (storedLock rows)).err with
    | some e =>
      rw [herr] at h
      cases h
    | none =>
      rw [herr] at h
      cases h
      have hmem := mem_locks_iff_exclusive herr g
      constructor
      · intro hg
        obtain ⟨htaken, hrow⟩ := hlocked.taken g
          (mem_sortSets.mpr (exclusive_subset_sets mod member g hg)) hg
        obtain ⟨l, hl⟩ := Option.isSome_iff_exists.mp (AList.lookup_isSome.mpr (hmem.mpr hg))
        obtain ⟨r, hr⟩ := Option.isSome_iff_exists.mp hrow
        exact ⟨htaken, l, hl, by simp [saveLocks, hl, hr]⟩
      · intro hg
        have hl := AList.lookup_eq_none.mpr fun hin => hg (hmem.mp hin)
        rw [← hlocked.rest g (.inr hg)]
        simp [saveLocks, hl]

/-- Evaluation reads the locks of `sets` and no other, a plan without an error writes exactly the
locks of `exclusive`, which are among them, and so the rows a modification in Postgres writes are
rows it holds for update. -/
theorem locks_covered :
    (∀ now (lock lock' : SetName → Lock), (∀ g ∈ sets mod member, lock g = lock' g) →
      evaluate mod now member occupant lock = evaluate mod now member occupant lock') ∧
    (∀ now lock, (evaluate mod now member occupant lock).err = none →
      ∀ g, g ∈ (evaluate mod now member occupant lock).locks ↔ g ∈ exclusive mod member) ∧
    (∀ g ∈ exclusive mod member, g ∈ sets mod member) ∧
    (∀ s, modifyDocs mod clock member occupant rows = .ok s →
      ∀ g, s.rows g ≠ rows g → (g, Mode.update) ∈ s.taken) := by
  refine ⟨fun now lock lock' => evaluate_reads_sets, fun now lock => mem_locks_iff_exclusive,
    exclusive_subset_sets mod member, ?_⟩
  intro s hs g hne
  obtain ⟨hexcl, hrest⟩ := modifyDocs_rows mod clock member occupant rows hs g
  by_cases hg : g ∈ exclusive mod member
  · exact (hexcl hg).1
  · exact absurd (hrest hg) hne

end Modify

theorem locks_covered_threeWrites :
    (evaluate threeWrites 100 oneMember (fun _ _ => none) heldAtThree).err = none ∧
    (⟨"n", "k"⟩ ∈ (evaluate threeWrites 100 oneMember (fun _ _ => none) heldAtThree).locks ↔
      ⟨"n", "k"⟩ ∈ exclusive threeWrites oneMember) ∧
    (modifyDocs threeWrites 100 oneMember (fun _ _ => none)
      fun g => some (Row.ofLock (heldAtThree g))).toOption.isSome = true :=
  have herr : (evaluate threeWrites 100 oneMember (fun _ _ => none) heldAtThree).err = none := by
    decide +kernel
  ⟨herr, (locks_covered threeWrites 100 oneMember (fun _ _ => none) fun _ => none).2.1 100
    heldAtThree herr _, by decide +kernel⟩

end EntroQ.Eqpg
