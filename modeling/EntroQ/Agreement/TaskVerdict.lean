import EntroQ.Eqmem.Report
import EntroQ.Eqredis.Modify

/-! # The backends agree on tasks

What the checks of a backend report of the operations on tasks is a matter of the stored tasks
alone. Each backend comes to the same report by its own lookups, so tables that hold the same
tasks give the same verdict, whatever mix of operations fails. -/

namespace EntroQ
open Foundation

/-- What the checks read of a stored task. -/
structure Checked where
  ref : TaskID
  atTime : Time
  claimant : String
  deriving DecidableEq

def Task.checked (t : Task) : Checked := ⟨t.idVersion, t.atTime, t.claimant⟩

/-- The stored tasks as the checks read them. -/
abbrev TaskTable := String → Option Checked

namespace TaskTable
variable (table : TaskTable)

def Has (r : TaskID) : Prop :=
  ∃ c, table r.id = some c ∧ c.ref.queue = r.queue ∧ c.ref.version = r.version

def Held (claimant : String) (now : Time) (r : TaskID) : Prop :=
  ∃ c, table r.id = some c ∧ c.ref.queue = r.queue ∧ c.ref.version = r.version ∧
    now < c.atTime ∧ c.claimant ≠ "" ∧ c.claimant ≠ claimant

/-- Every task is stored under its ID, in a queue with a name. -/
def Named : Prop := ∀ id c, table id = some c → c.ref.id = id ∧ c.ref.queue ≠ "" ∧ id ≠ ""

end TaskTable

def Names (l : List TaskID) (id : String) (version : Int32) : Prop :=
  ∃ r ∈ l, r.id = id ∧ r.version = version

/-- The error reports, of the operations on tasks, those the table does not satisfy. Arrivals are
reported as the changes they become. -/
structure TaskReport (table : TaskTable) (mod : Modification) (now : Time) (e : DependencyError) :
    Prop where
  inserts : ∀ id version, Names e.inserts id version ↔
    ∃ ins ∈ mod.inserts, ∃ c, table ins.id = some c ∧ c.ref.id = id ∧ c.ref.version = version
  depends : ∀ id version, Names e.depends id version ↔
    ∃ r ∈ mod.depends, r.id = id ∧ r.version = version ∧ ¬table.Has r
  deletes : ∀ id version, Names e.deletes id version ↔
    ∃ r ∈ mod.deletes, r.id = id ∧ r.version = version ∧ ¬table.Has r
  changes : ∀ id version, Names e.changes id version ↔
    ∃ r ∈ mod.moved, r.id = id ∧ r.version = version ∧ ¬table.Has r
  claims : ∀ id version, Names e.claims id version ↔
    ∃ r ∈ mod.deletes ++ mod.moved, r.id = id ∧ r.version = version ∧
      table.Held mod.claimant now r
  arrives : e.arrives = []

def SameVerdict (a b : Option DependencyError) : Prop :=
  (a = none ↔ b = none) ∧
    ∀ c id version, Names ((a.getD {}).tasks c) id version ↔ Names ((b.getD {}).tasks c) id version

/-! ## Checks by lookups -/

section Tests
variable {table : TaskTable} {mod : Modification} {now : Time} {l : List TaskID}
  {test miss hold : TaskID → Option TaskID} {taken : String → Option TaskID} {P : TaskID → Prop}

/-- The test names, of the tasks in the list, just those with the property. -/
structure Tests (test : TaskID → Option TaskID) (l : List TaskID) (P : TaskID → Prop) : Prop where
  named : ∀ r r', test r = some r' → r'.id = r.id ∧ r'.version = r.version
  isSome : ∀ r ∈ l, (test r).isSome = true ↔ P r

theorem Tests.guard {p : TaskID → Bool} (h : ∀ r ∈ l, p r = true ↔ P r) :
    Tests (Option.guard p) l P where
  named r r' hr := by
    obtain ⟨rfl, -⟩ := Option.guard_eq_some_iff.mp hr
    exact ⟨rfl, rfl⟩
  isSome r hr := by rw [Option.isSome_guard, h r hr]

theorem Tests.names (h : Tests test l P) {l' : List TaskID} (hl : l' ⊆ l) (id : String)
    (version : Int32) : Names (l'.filterMap test) id version ↔
      ∃ r ∈ l', r.id = id ∧ r.version = version ∧ P r := by
  simp only [Names, List.mem_filterMap]
  constructor
  · rintro ⟨r', ⟨r, hr, ht⟩, rfl, rfl⟩
    obtain ⟨hid, hv⟩ := h.named r r' ht
    exact ⟨r, hr, hid.symm, hv.symm, (h.isSome r (hl hr)).mp (by rw [ht]; rfl)⟩
  · rintro ⟨r, hr, rfl, rfl, hp⟩
    obtain ⟨r', ht⟩ := Option.isSome_iff_exists.mp ((h.isSome r (hl hr)).mpr hp)
    exact ⟨r', ⟨r, hr, ht⟩, h.named r r' ht⟩

/-- The error of three tests: for tasks that are missing, tasks that are held, and IDs of inserts
that are taken. -/
def tested (mod : Modification) (miss hold : TaskID → Option TaskID)
    (taken : String → Option TaskID) : DependencyError where
  depends := mod.depends.filterMap miss
  deletes := mod.deletes.filterMap miss
  changes := mod.moved.filterMap miss
  claims := (mod.deletes ++ mod.moved).filterMap hold
  inserts := mod.inserts.filterMap fun ins => if ins.id = "" then none else taken ins.id

theorem names_taken (hn : table.Named)
    (htaken : ∀ ins ∈ mod.inserts, ins.id ≠ "" → (taken ins.id).map (fun r => (r.id, r.version)) =
      (table ins.id).map fun c => (c.ref.id, c.ref.version)) (id : String) (version : Int32) :
    Names (tested mod miss hold taken).inserts id version ↔ ∃ ins ∈ mod.inserts, ∃ c,
      table ins.id = some c ∧ c.ref.id = id ∧ c.ref.version = version := by
  have hone (ins : TaskData) (hins : ins ∈ mod.inserts) (hid : ins.id ≠ "") :
      (∃ r, taken ins.id = some r ∧ r.id = id ∧ r.version = version) ↔
        ∃ c, table ins.id = some c ∧ c.ref.id = id ∧ c.ref.version = version := by
    simpa [Option.map_eq_some_iff] using congrArg (· = some (id, version)) (htaken ins hins hid)
  simp only [Names, tested, List.mem_filterMap]
  constructor
  · rintro ⟨r, ⟨ins, hins, hr⟩, hnamed⟩
    split_ifs at hr with hid
    exact ⟨ins, hins, (hone ins hins hid).mp ⟨r, hr, hnamed⟩⟩
  · rintro ⟨ins, hins, c, hc, hnamed⟩
    have hid := (hn ins.id c hc).2.2
    obtain ⟨r, hr, hr'⟩ := (hone ins hins hid).mpr ⟨c, hc, hnamed⟩
    exact ⟨r, ⟨ins, hins, by rw [if_neg hid, hr]⟩, hr'⟩

theorem taskReport_tested (hn : table.Named)
    (hmiss : Tests miss (mod.depends ++ (mod.deletes ++ mod.moved)) fun r => ¬table.Has r)
    (hhold : Tests hold (mod.deletes ++ mod.moved) (table.Held mod.claimant now))
    (htaken : ∀ ins ∈ mod.inserts, ins.id ≠ "" → (taken ins.id).map (fun r => (r.id, r.version)) =
      (table ins.id).map fun c => (c.ref.id, c.ref.version)) :
    TaskReport table mod now ((tested mod miss hold taken).reported.getD {}) := by
  have htasks := (tested mod miss hold taken).reported_tasks
  constructor <;> try intro id version
  · rw [show DependencyError.inserts _ = _ from htasks .inserts]
    exact names_taken hn htaken id version
  · rw [show DependencyError.depends _ = _ from htasks .depends]
    exact hmiss.names (List.subset_append_left ..) id version
  · rw [show DependencyError.deletes _ = _ from htasks .deletes]
    exact hmiss.names (List.subset_append_of_subset_right _ (List.subset_append_left ..)) id version
  · rw [show DependencyError.changes _ = _ from htasks .changes]
    exact hmiss.names (List.subset_append_of_subset_right _ (List.subset_append_right ..)) id version
  · rw [show DependencyError.claims _ = _ from htasks .claims]
    exact hhold.names (List.Subset.refl _) id version
  · exact htasks .arrives

end Tests

/-! ## SQLite

The rows of the tasks a modification names are loaded by ID, and its operations on tasks are
checked against them. -/

namespace Eqsqlite

section Check
variable (mod : Modification) (tasks : FMap String Task) (now : Time)

def heldTask (t : Task) (claimant : String) : Bool :=
  t.claimant != "" && t.claimant != claimant && decide (now < t.atTime)

def missing (r : TaskID) : Bool :=
  match tasks.lookup r.id with
  | none => true
  | some found => found.version != r.version || r.queue == "" || found.queue != r.queue

def held (r : TaskID) : Bool :=
  !missing tasks r && (tasks.lookup r.id).any (heldTask now · mod.claimant)

def checkDependencies : DependencyError where
  depends := mod.depends.filter (missing tasks)
  deletes := mod.deletes.filter (missing tasks)
  changes := (mod.changes.map TaskChange.origin).filter (missing tasks)
  claims := mod.deletes.filter (held mod tasks now) ++
    (mod.changes.map TaskChange.origin).filter (held mod tasks now)
  inserts := mod.inserts.filterMap fun ins =>
    if ins.id = "" then none else (tasks.lookup ins.id).map Task.idVersion

end Check

/-- The rows of the tasks that `AllDependencies` lists. -/
def loadTasks (rows : FMap String Task) (mod : Modification) : FMap String Task :=
  match mod.allDependencies with
  | .ok _ => FMap.gather rows.lookup ((mod.modTaskDeps ++ mod.restTaskDeps).map Prod.fst)
  | .error _ => ∅

def taskVerdict (rows : FMap String Task) (mod : Modification) (now : Time) :
    Option DependencyError :=
  let found := loadTasks rows mod
  (checkDependencies (arrivalChanges mod found) found now).reported

variable {tasks : FMap String Task} {table : TaskTable} {r : TaskID}

theorem missing_iff (hr : (tasks.lookup r.id).map Task.checked = table r.id)
    (hn : table.Named) : missing tasks r = true ↔ ¬table.Has r := by
  unfold missing TaskTable.Has
  rw [← hr]
  cases ht : tasks.lookup r.id with
  | none => simp
  | some t =>
    have hq : t.queue ≠ "" := (hn r.id t.checked (by rw [← hr, ht]; rfl)).2.1
    simp only [Option.map_some, Option.some.injEq, exists_eq_left', Task.checked, Task.idVersion,
      Bool.or_eq_true, bne_iff_ne, beq_iff_eq, not_and_or]
    constructor
    · rintro ((hv | hq') | hq')
      · exact .inr hv
      · exact .inl fun he => hq (he.trans hq')
      · exact .inl hq'
    · rintro (hq' | hv)
      · exact .inr hq'
      · exact .inl (.inl hv)

theorem held_iff (mod : Modification) (now : Time)
    (hr : (tasks.lookup r.id).map Task.checked = table r.id) (hn : table.Named) :
    held mod tasks now r = true ↔ table.Held mod.claimant now r := by
  have hm := missing_iff hr hn
  unfold held TaskTable.Held
  rw [Bool.and_eq_true, Bool.not_eq_true', ← Bool.not_eq_true, hm, not_not, TaskTable.Has, ← hr]
  cases tasks.lookup r.id with
  | none => simp
  | some t =>
    simp only [Option.map_some, Option.some.injEq, exists_eq_left', Task.checked, Task.idVersion,
      Option.any_some, heldTask, Bool.and_eq_true, bne_iff_ne, decide_eq_true_eq, ne_eq]
    tauto

variable {rows : FMap String Task} {mod : Modification}

theorem lookup_loadTasks (hv : Validate.modification mod = none) {id : String}
    (hid : id ∈ (mod.modTaskDeps ++ mod.restTaskDeps).map Prod.fst) :
    (loadTasks rows mod).lookup id = rows.lookup id := by
  obtain ⟨d, hd⟩ := Validate.modification_allDependencies mod hv
  rw [loadTasks, hd]
  dsimp only
  rw [FMap.lookup_gather, if_pos hid]

theorem loadTasks_named (hrows : ∀ id, (rows.lookup id).map Task.checked = table id)
    (hn : table.Named) (hv : Validate.modification mod = none) {id : String} {t : Task}
    (ht : (loadTasks rows mod).lookup id = some t) : t.id = id := by
  obtain ⟨d, hd⟩ := Validate.modification_allDependencies mod hv
  rw [loadTasks, hd] at ht
  dsimp only at ht
  rw [FMap.lookup_gather] at ht
  split_ifs at ht
  exact (hn id t.checked (by rw [← hrows, ht]; rfl)).1

theorem mem_ids_of_insert {ins : TaskData} (hins : ins ∈ mod.inserts) (hid : ins.id ≠ "") :
    ins.id ∈ (mod.modTaskDeps ++ mod.restTaskDeps).map Prod.fst := by
  simp only [Modification.restTaskDeps, List.map_append, List.map_map, List.mem_append,
    List.mem_map, List.mem_filter, Function.comp_apply, bne_iff_ne]
  exact .inr (.inr ⟨ins, ⟨hins, hid⟩, rfl⟩)

theorem taskReport (hrows : ∀ id, (rows.lookup id).map Task.checked = table id)
    (hn : table.Named) (hv : Validate.modification mod = none) (now : Time) :
    TaskReport table mod now ((taskVerdict rows mod now).getD {}) := by
  have hids : ∀ r ∈ mod.depends ++ (mod.deletes ++ mod.moved),
      ((loadTasks rows mod).lookup r.id).map Task.checked = table r.id := by
    intro r hr
    rw [lookup_loadTasks hv, hrows]
    simp only [List.mem_append, Modification.moved, List.mem_map] at hr
    simp only [Modification.modTaskDeps, Modification.restTaskDeps, List.map_append, List.map_map,
      List.mem_append, List.mem_map, Function.comp_apply]
    rcases hr with hr | hr | ⟨c, hc, rfl⟩ | ⟨a, ha, rfl⟩
    · exact .inr (.inl ⟨r, hr, rfl⟩)
    · exact .inl (.inl (.inr ⟨r, hr, rfl⟩))
    · exact .inl (.inl (.inl ⟨c, hc, rfl⟩))
    · exact .inl (.inr ⟨a, ha, rfl⟩)
  have hmoved : (arrivalChanges mod (loadTasks rows mod)).changes.map TaskChange.origin =
      mod.moved := arrivalChanges_origins mod fun _ _ ht => loadTasks_named hrows hn hv ht
  have htested : checkDependencies (arrivalChanges mod (loadTasks rows mod)) (loadTasks rows mod)
      now = tested mod (Option.guard (missing (loadTasks rows mod)))
        (Option.guard (held mod (loadTasks rows mod) now))
        fun id => ((loadTasks rows mod).lookup id).map Task.idVersion := by
    rw [checkDependencies, hmoved, ← List.filter_append]
    simp only [tested, ← List.filterMap_eq_filter]
    rfl
  rw [taskVerdict, htested]
  refine taskReport_tested hn (.guard fun r hr => missing_iff (hids r hr) hn)
    (.guard fun r hr => held_iff mod now (hids r (List.mem_append_right _ hr)) hn) ?_
  intro ins hins hid
  rw [lookup_loadTasks hv (mem_ids_of_insert hins hid), ← hrows]
  cases rows.lookup ins.id <;> rfl

end Eqsqlite

/-! ## Redis -/

namespace Eqredis
variable {states : FMap String TaskFields} {table : TaskTable} {r : TaskID}

/-- What the checks read of a task hash. -/
def TaskFields.checked (f : TaskFields) : Checked := f.toTask.checked

theorem missing_isSome_iff (hr : (states.lookup r.id).map TaskFields.checked = table r.id)
    (hn : table.Named) : (missing states r).isSome = true ↔ ¬table.Has r := by
  unfold missing TaskTable.Has
  rw [← hr]
  cases ht : states.lookup r.id with
  | none => simp
  | some f =>
    have hq : f.queue ≠ "" := (hn r.id f.checked (by rw [← hr, ht]; rfl)).2.1
    simp only [Option.map_some, Option.some.injEq, exists_eq_left', TaskFields.checked,
      TaskFields.toTask, Task.checked, Task.idVersion]
    by_cases hv : f.version = r.version
    · by_cases hfq : f.queue = r.queue
      · rw [hfq] at hq
        simp [hv, hfq, hq]
      · simp [hv, hfq, Ne.symm hfq]
    · simp [hv]

theorem missing_named {r' : TaskID} (h : missing states r = some r') :
    r'.id = r.id ∧ r'.version = r.version := by
  unfold missing at h
  split at h
  · cases h
    exact ⟨rfl, rfl⟩
  · split_ifs at h
    · cases h
      exact ⟨rfl, rfl⟩
    · cases h
      exact ⟨rfl, rfl⟩

theorem held_isSome_iff (mod : Modification) (now : Time)
    (hr : (states.lookup r.id).map TaskFields.checked = table r.id) (hn : table.Named) :
    (held states mod (unixMilli now) r).isSome = true ↔ table.Held mod.claimant now r := by
  have hm := missing_isSome_iff hr hn
  unfold held TaskTable.Held
  unfold TaskTable.Has at hm
  rw [← hr] at hm ⊢
  cases hmiss : missing states r with
  | some r' =>
    rw [hmiss] at hm
    have hno := hm.mp rfl
    constructor
    · rintro ⟨⟩
    · rintro ⟨c, hc, hq, hv, -⟩
      exact absurd ⟨c, hc, hq, hv⟩ hno
  | none =>
    rw [hmiss] at hm
    cases ht : states.lookup r.id with
    | none => simp
    | some f =>
      rw [ht] at hm
      simp only [Option.map_some, Option.some.injEq, exists_eq_left', TaskFields.checked,
        TaskFields.toTask, Task.checked, Task.idVersion, heldByOther, lt_ofUnixMilli] at hm ⊢
      simp only [Option.isSome_none, Bool.false_eq_true, false_iff, not_not] at hm
      simp only [Option.isSome_ite, Bool.and_eq_true, bne_iff_ne, decide_eq_true_eq, ne_eq]
      tauto

theorem held_named {mod : Modification} {nowMs : ℤ} {r' : TaskID}
    (h : held states mod nowMs r = some r') : r'.id = r.id ∧ r'.version = r.version := by
  unfold held at h
  split at h
  · split_ifs at h
    cases h
    exact ⟨rfl, rfl⟩
  · cases h

variable {db : Redis} {mod : Modification}

theorem taskReport (hdb : ∀ id, (taskHash db id).map TaskFields.checked = table id)
    (hn : table.Named) (now : Time) :
    TaskReport table mod now ((taskVerdict mod (unixMilli now) (read mod db)).getD {}) := by
  have hids : ∀ r ∈ mod.depends ++ (mod.deletes ++ mod.moved),
      ((read mod db).states.lookup r.id).map TaskFields.checked = table r.id := by
    intro r hr
    rw [lookup_states, hdb]
    simp only [List.mem_append, Modification.moved, List.mem_map] at hr
    simp only [allIDs, List.mem_append, List.mem_map]
    rcases hr with hr | hr | ⟨c, hc, rfl⟩ | ⟨a, ha, rfl⟩
    · exact .inl (.inl (.inl (.inl ⟨r, hr, rfl⟩)))
    · exact .inl (.inl (.inl (.inr ⟨r, hr, rfl⟩)))
    · exact .inl (.inl (.inr ⟨c, hc, rfl⟩))
    · exact .inl (.inr ⟨a, ha, rfl⟩)
  have hmoved : (changed mod (read mod db)).changes.map TaskChange.origin = mod.moved := by
    apply arrivalChanges_origins
    intro id t ht
    rw [FMap.lookup_gather] at ht
    split_ifs at ht with hid
    rw [lookup_states hid] at ht
    obtain ⟨f, hf, rfl⟩ := Option.map_eq_some_iff.mp ht
    exact (hn id f.checked (by rw [← hdb, hf]; rfl)).1
  have htested : checkTasks (read mod db).states (changed mod (read mod db)) (unixMilli now) =
      tested mod (missing (read mod db).states) (held (read mod db).states mod (unixMilli now))
        fun id => ((read mod db).states.lookup id).map fun f => { id, version := f.version } := by
    rw [checkTasks, hmoved, ← List.filterMap_append]
    rfl
  rw [taskVerdict, htested]
  refine taskReport_tested hn
    ⟨fun _ _ => missing_named, fun r hr => missing_isSome_iff (hids r hr) hn⟩
    ⟨fun _ _ => held_named,
      fun r hr => held_isSome_iff mod now (hids r (List.mem_append_right _ hr)) hn⟩ ?_
  intro ins hins hid
  rw [lookup_states (mem_allIDs_of_insert hins hid)]
  have hins := hn ins.id
  rw [← hdb] at hins ⊢
  cases hf : taskHash db ins.id with
  | none => rfl
  | some f =>
    have hfid := (hins f.checked (by rw [hf]; rfl)).1
    exact congrArg (fun id => some (id, f.version)) hfid.symm

end Eqredis

/-! ## Memory -/

namespace Eqmem

/-- The queue check merged with the check of what was found. -/
def taskVerdict (s : EQMem) (mod : Modification) (now : Time) : Option DependencyError :=
  let p := modPrep s mod false
  DependencyError.merge p.queueDeps ((p.taskMod s).dependencyError (p.found s) ∅ now)

/-- The operations on tasks alone, without the inserts whose IDs are yet to be made. -/
def onTasks (mod : Modification) : Modification :=
  { mod with
    inserts := mod.inserts.filter (fun t => t.id != "")
    docInserts := []
    docChanges := []
    docDeletes := []
    docDepends := []
    docArrives := [] }

section OnTasks
variable {s : EQMem} {mod : Modification}

theorem onTasks_proper (hv : mod.Validated) (s : EQMem) :
    (modPrep s (onTasks mod) false).Proper where
  covers := modPrep_covers s (onTasks mod) false
  once := by
    refine (List.Perm.nodup_iff (List.perm_iff_count.mpr fun a => ?_)).mp hv.taskOnce
    simp only [Modification.modTaskDeps, Modification.restTaskDeps, Prepared.taskIDs, modPrep,
      onTasks, List.map_append, List.map_map, List.count_append, Bool.false_eq_true, if_false]
    have href : (Prod.fst ∘ fun d : TaskID => (d.id, d.version)) = TaskID.id := rfl
    have hins : (Prod.fst ∘ fun t : TaskData => (t.id, (-1 : Int32))) = TaskData.id := rfl
    simp only [href, hins, Function.comp_def]
    omega
  targets := hv.changeQueue
  inserts ins hins := by
    obtain ⟨hm, hid⟩ := List.mem_filter.mp hins
    exact ⟨by simpa using hid, hv.insertQueue ins hm⟩
  docInserts d hd := by cases hd
  docArrives a ha := by cases ha
  docOnce := List.nodup_nil

theorem misplacedInsIDs_onTasks (qByID : FMap String String) (mod : Modification) :
    misplacedInsIDs qByID (onTasks mod) = misplacedInsIDs qByID mod := by
  change (mod.inserts.filter _).foldl _ _ = mod.inserts.foldl _ _
  rw [List.foldl_filter]
  congr 1
  funext m ins
  split_ifs with hid
  · rfl
  · rw [misplacedQueue, if_pos (by simpa using hid)]

/-- An insert without an ID finds nothing. -/
theorem found_onTasks (h : s.Indexed) :
    (modPrep s (onTasks mod) false).found s = (modPrep s mod false).found s := by
  apply Finmap.ext_lookup
  intro id
  apply Option.ext
  intro t
  rw [(modPrep_covers s (onTasks mod) false).found_iff h, (modPrep_covers s mod false).found_iff h]
  refine and_congr_right fun ht => ?_
  have hid : id ≠ "" := (h.task_named ht).2.2
  rw [Prepared.mem_taskRefs, Prepared.mem_taskRefs]
  refine or_congr Iff.rfl (exists_congr fun ins => ?_)
  change ins ∈ mod.inserts.filter _ ∧ _ ∧ (_ ∨ (misplacedInsIDs _ (onTasks mod)).lookup _ = _) ↔ _
  rw [misplacedInsIDs_onTasks, List.mem_filter, bne_iff_ne]
  constructor
  · rintro ⟨⟨hm, -⟩, hr⟩
    exact ⟨hm, hr⟩
  · rintro ⟨hm, hr⟩
    exact ⟨⟨hm, hr.1 ▸ hid⟩, hr⟩

/-- The verdict does not depend on inserts without an ID, nor on docs. -/
theorem taskVerdict_onTasks (h : s.Indexed) (now : Time) :
    taskVerdict s (onTasks mod) now = taskVerdict s mod now := by
  have hnone : ((modPrep s mod false).found s).lookup "" = none := by
    rw [Option.eq_none_iff_forall_ne_some]
    intro t ht
    exact (h.task_named (((modPrep_covers s mod false).found_iff h _ _).mp ht).1).2.2 rfl
  have hins : (onTasks mod).badInserts ((modPrep s mod false).found s) =
      mod.badInserts ((modPrep s mod false).found s) := by
    change (mod.inserts.filter _).filterMap _ = mod.inserts.filterMap _
    rw [List.filterMap_filter]
    congr 1
    funext ins
    by_cases hid : ins.id = ""
    · have hlook : ((modPrep s mod false).found s).lookup ins.id = none := by
        rw [hid]
        exact hnone
      simp [hlook]
    · simp [hid]
  have hfail : ((modPrep s (onTasks mod) false).taskMod s).failures
      ((modPrep s (onTasks mod) false).found s) ∅ now =
      { ((modPrep s mod false).taskMod s).failures ((modPrep s mod false).found s) ∅ now with
        inserts := (onTasks mod).badInserts ((modPrep s mod false).found s) } := by
    unfold Prepared.taskMod Prepared.changed
    rw [found_onTasks h]
    rfl
  unfold taskVerdict Modification.dependencyError
  dsimp only
  rw [hfail, hins]
  rfl

/-- For such a modification the verdict is the whole one. -/
theorem depErr_onTasks (h : s.Indexed) (now : Time) :
    (modPrep s (onTasks mod) false).depErr s now false = taskVerdict s mod now := by
  rw [← taskVerdict_onTasks h]
  have hfound : (modPrep s (onTasks mod) false).foundDeps s now false =
      ((modPrep s (onTasks mod) false).taskMod s).dependencyError
        ((modPrep s (onTasks mod) false).found s) ∅ now := rfl
  unfold Prepared.depErr taskVerdict
  rw [hfound]
  dsimp only
  split_ifs with hany
  · rfl
  · rw [Bool.or_eq_true, not_or, Option.not_isSome_iff_eq_none, Option.not_isSome_iff_eq_none] at hany
    rw [hany.1, hany.2]
    rfl

def taskTable (s : EQMem) : TaskTable := fun id => (s.task id).map Task.checked

theorem taskTable_named (h : s.Indexed) : (taskTable s).Named := by
  intro id c hc
  obtain ⟨t, ht, rfl⟩ := Option.map_eq_some_iff.mp hc
  exact h.task_named ht

theorem hasTask_iff (r : TaskID) : s.HasTask r ↔ (taskTable s).Has r := by
  simp only [EQMem.HasTask, TaskTable.Has, taskTable, Option.map_eq_some_iff, exists_exists_and_eq_and]
  rfl

theorem heldByOther_iff (claimant : String) (now : Time) (r : TaskID) :
    s.HeldByOther claimant now r ↔ (taskTable s).Held claimant now r := by
  simp only [EQMem.HeldByOther, TaskTable.Held, taskTable, Option.map_eq_some_iff,
    exists_exists_and_eq_and]
  rfl

theorem taskReport (h : Invariant s) (hv : mod.Validated) (now : Time) :
    TaskReport (taskTable s) mod now ((taskVerdict s mod now).getD {}) := by
  have hp := onTasks_proper hv s
  have hcol := (modPrep s (onTasks mod) false).depErr_collects s now false
  rw [depErr_onTasks h.indexed] at hcol
  constructor
  · intro id version
    simp only [Names, reports_inserts h hp hcol]
    constructor
    · rintro ⟨r, ⟨ins, hins, t, ht, rfl⟩, rfl, rfl⟩
      exact ⟨ins, (List.mem_filter.mp hins).1, t.checked, by rw [taskTable, ht]; rfl, rfl, rfl⟩
    · rintro ⟨ins, hins, c, hc, rfl, rfl⟩
      obtain ⟨t, ht, rfl⟩ := Option.map_eq_some_iff.mp hc
      have hid := (h.indexed.task_named ht).2.2
      exact ⟨t.idVersion, ⟨ins, List.mem_filter.mpr ⟨hins, by simpa using hid⟩, t, ht, rfl⟩, rfl,
        rfl⟩
  · intro id version
    simp only [Names, reports_depends h hp hcol, hasTask_iff]
    exact exists_congr fun r => by tauto
  · intro id version
    simp only [Names, reports_deletes h hp hcol, hasTask_iff]
    exact exists_congr fun r => by tauto
  · intro id version
    rw [Names, reports_origins h hp hcol]
    simp only [hasTask_iff]
    rfl
  · intro id version
    rw [Names, reports_claims h hp hcol, Modification.written, List.append_assoc]
    simp only [heldByOther_iff]
    rfl
  · exact reports_noArrives h hp hcol

end OnTasks

end Eqmem

/-! ## Agreement -/

section Agreement
variable {table : TaskTable} {mod : Modification} {now now' : Time} {a b : Option DependencyError}

/-- Reports of the same table give the same verdict, if no arrival lies between their readings
of the clock. -/
theorem TaskReport.same (ha : TaskReport table mod now (a.getD {}))
    (hb : TaskReport table mod now' (b.getD {}))
    (hclock : ∀ id c, table id = some c → (now < c.atTime ↔ now' < c.atTime)) (c : TaskClass)
    (id : String) (version : Int32) :
    Names ((a.getD {}).tasks c) id version ↔ Names ((b.getD {}).tasks c) id version := by
  cases c with
  | inserts => exact (ha.inserts id version).trans (hb.inserts id version).symm
  | depends => exact (ha.depends id version).trans (hb.depends id version).symm
  | deletes => exact (ha.deletes id version).trans (hb.deletes id version).symm
  | changes => exact (ha.changes id version).trans (hb.changes id version).symm
  | claims =>
    refine (ha.claims id version).trans (Iff.trans ?_ (hb.claims id version).symm)
    refine exists_congr fun r => and_congr_right fun _ => and_congr_right fun _ =>
      and_congr_right fun _ => exists_congr fun c => and_congr_right fun hc => ?_
    rw [hclock r.id c hc]
  | arrives =>
    change Names (a.getD {}).arrives id version ↔ Names (b.getD {}).arrives id version
    rw [ha.arrives, hb.arrives]

/-- A verdict reports nothing of docs, and is there only to report something. -/
def TaskOnly (a : Option DependencyError) : Prop :=
  ∀ e, a = some e → e.hasAny = true ∧ ∀ c, e.docs c = []

theorem taskOnly_reported {e : DependencyError} (h : ∀ c, e.docs c = []) : TaskOnly e.reported := by
  intro e' he'
  obtain ⟨rfl, hany⟩ := DependencyError.eq_of_reported he'
  exact ⟨hany, h⟩

theorem TaskOnly.eq_none_iff (h : TaskOnly a) : a = none ↔ ∀ c, (a.getD {}).tasks c = [] := by
  cases a with
  | none =>
    refine ⟨fun _ c => ?_, fun _ => rfl⟩
    cases c <;> rfl
  | some e =>
    obtain ⟨hany, hdocs⟩ := h e rfl
    refine ⟨nofun, fun ht => ?_⟩
    rw [e.hasAny_eq_false_iff.mpr ⟨ht, hdocs⟩] at hany
    cases hany

theorem eq_nil_iff_names (l : List TaskID) : l = [] ↔ ∀ id version, ¬Names l id version := by
  rw [List.eq_nil_iff_forall_not_mem]
  constructor
  · rintro h id version ⟨r, hr, -⟩
    exact h r hr
  · intro h r hr
    exact h r.id r.version ⟨r, hr, rfl, rfl⟩

theorem TaskReport.sameVerdict (ha : TaskReport table mod now (a.getD {}))
    (hb : TaskReport table mod now' (b.getD {})) (hao : TaskOnly a) (hbo : TaskOnly b)
    (hclock : ∀ id c, table id = some c → (now < c.atTime ↔ now' < c.atTime)) :
    SameVerdict a b := by
  have hsame := ha.same hb hclock
  refine ⟨?_, hsame⟩
  rw [hao.eq_none_iff, hbo.eq_none_iff]
  simp only [eq_nil_iff_names, hsame]

theorem SameVerdict.nameArrivals (h : SameVerdict a b) (mod : Modification) :
    SameVerdict (a.map (·.nameArrivals mod)) (b.map (·.nameArrivals mod)) := by
  refine ⟨by simpa using h.1, fun c id version => ?_⟩
  have hempty : DependencyError.nameArrivals {} mod = {} := by
    unfold DependencyError.nameArrivals
    split_ifs <;> rfl
  have hmap : ∀ x : Option DependencyError,
      (x.map (·.nameArrivals mod)).getD {} = (x.getD {}).nameArrivals mod := by
    intro x
    cases x with
    | none => exact hempty.symm
    | some e => rfl
  have hchanges : ∀ e : DependencyError, Names (e.nameArrivals mod).changes id version ↔
      Names e.changes id version ∧ ∀ a ∈ mod.arrives, a.taskID.id ≠ id := by
    intro e
    simp only [Names, (e.mem_nameArrivals mod _).1]
    constructor
    · rintro ⟨r, ⟨hr, hno⟩, rfl, rfl⟩
      exact ⟨⟨r, hr, rfl, rfl⟩, hno⟩
    · rintro ⟨⟨r, hr, rfl, rfl⟩, hno⟩
      exact ⟨r, ⟨hr, hno⟩, rfl, rfl⟩
  have harrives : ∀ e : DependencyError, Names (e.nameArrivals mod).arrives id version ↔
      Names e.arrives id version ∨ Names e.changes id version ∧ ∃ a ∈ mod.arrives, a.taskID.id = id := by
    intro e
    simp only [Names, (e.mem_nameArrivals mod _).2]
    constructor
    · rintro ⟨r, hr | ⟨hr, hyes⟩, rfl, rfl⟩
      · exact .inl ⟨r, hr, rfl, rfl⟩
      · exact .inr ⟨⟨r, hr, rfl, rfl⟩, hyes⟩
    · rintro (⟨r, hr, rfl, rfl⟩ | ⟨⟨r, hr, rfl, rfl⟩, hyes⟩)
      · exact ⟨r, .inl hr, rfl, rfl⟩
      · exact ⟨r, .inr ⟨hr, hyes⟩, rfl, rfl⟩
  have hrest : ∀ e : DependencyError, c ≠ .changes → c ≠ .arrives →
      (e.nameArrivals mod).tasks c = e.tasks c := by
    intro e h1 h2
    unfold DependencyError.nameArrivals
    split_ifs
    · rfl
    · cases c <;> first | rfl | exact absurd rfl h1 | exact absurd rfl h2
  rw [hmap, hmap]
  by_cases h1 : c = .changes
  · subst h1
    exact (hchanges _).trans ((and_congr_left' (h.2 .changes id version)).trans (hchanges _).symm)
  · by_cases h2 : c = .arrives
    · subst h2
      refine (harrives _).trans (Iff.trans ?_ (harrives _).symm)
      exact or_congr (h.2 .arrives id version) (and_congr_left' (h.2 .changes id version))
    · rw [hrest _ h1 h2, hrest _ h1 h2]
      exact h.2 c id version

end Agreement

theorem Eqmem.taskVerdict_taskOnly (s : EQMem) (mod : Modification) (now : Time) :
    TaskOnly (taskVerdict s mod now) := by
  apply taskOnly_reported
  intro c
  have hdocs : (((modPrep s mod false).taskFailures s now).reported.getD {}).docs c = [] := by
    rw [DependencyError.reported_docs, Prepared.taskFailures_docs]
  change (((modPrep s mod false).queueDeps.getD {}).merged
    (((modPrep s mod false).taskFailures s now).reported.getD {})).docs c = []
  rw [DependencyError.merged_docs, queueDeps_docs, hdocs]
  rfl

/-- Stores that hold the same tasks give the same verdict on the operations on tasks, at every
reading of the clock, which two of them cut to milliseconds. -/
theorem task_verdicts_agree (s : Eqmem.EQMem) (h : Eqmem.Invariant s) (rows : FMap String Task)
    (db : Eqredis.Redis)
    (hrows : ∀ id, (rows.lookup id).map Task.checked = (s.task id).map Task.checked)
    (hdb : ∀ id, (Eqredis.taskHash db id).map (fun f => f.toTask.checked) =
      (s.task id).map Task.checked)
    (mod : Modification) (hv : Validate.modification mod = none) (now : Time) :
    let mem := Eqmem.taskVerdict s mod now
    let sqlite := Eqsqlite.taskVerdict rows mod (Eqredis.ofUnixMilli (Eqredis.unixMilli now))
    let redis := Eqredis.taskVerdict mod (Eqredis.unixMilli now) (Eqredis.read mod db)
    (SameVerdict mem sqlite ∧ SameVerdict mem redis) ∧
      SameVerdict (mem.map (·.nameArrivals mod)) (sqlite.map (·.nameArrivals mod)) ∧
      SameVerdict (mem.map (·.nameArrivals mod)) (redis.map (·.nameArrivals mod)) := by
  intro mem sqlite redis
  have hn := Eqmem.taskTable_named h.indexed
  have hmem := Eqmem.taskReport h (Validate.modification_none mod hv) now
  have hmemOnly := Eqmem.taskVerdict_taskOnly s mod now
  have hsqlite : SameVerdict mem sqlite := by
    refine hmem.sameVerdict (Eqsqlite.taskReport hrows hn hv _) hmemOnly
      (taskOnly_reported fun c => by cases c <;> rfl) fun id c hc => ?_
    rw [Eqmem.taskTable, ← hdb] at hc
    obtain ⟨f, -, rfl⟩ := Option.map_eq_some_iff.mp hc
    change now < Eqredis.ofUnixMilli f.atMs ↔ _ < Eqredis.ofUnixMilli f.atMs
    rw [Eqredis.lt_ofUnixMilli, Eqredis.lt_ofUnixMilli, Eqredis.unixMilli_ofUnixMilli]
  have hredis : SameVerdict mem redis :=
    hmem.sameVerdict (Eqredis.taskReport hdb hn now) hmemOnly
      (taskOnly_reported fun c => by cases c <;> rfl) fun _ _ _ => Iff.rfl
  exact ⟨⟨hsqlite, hredis⟩, hsqlite.nameArrivals mod, hredis.nameArrivals mod⟩

section Witness
open Eqmem Eqredis

def oneHeld : EQMem :=
  run {} [.modify { claimant := "w", inserts := [{ queue := "q", id := "t", byDur := second }] }
    (ofUnixMilli 5000)]

def heldRow : Task :=
  { queue := "q", id := "t", atTime := ofUnixMilli 6000, claimant := "w",
    created := ofUnixMilli 5000, modified := ofUnixMilli 5000 }

def heldHash : Redis :=
  Keyspace.exec {} (insertBlock { queue := "q", id := "t", atMs := 6000, claimant := "w",
                                  created := 5000, modified := 5000 })

/-- Someone else deletes the task, depends on one that is not there, and releases another. -/
def mixed : Modification :=
  { claimant := "v", deletes := [⟨"t", 0, "q"⟩], depends := [⟨"u", 3, "q"⟩],
    arrives := [{ taskID := ⟨"x", 1, "q"⟩ }] }

theorem task_verdicts_agree_mixed :
    (Eqmem.taskVerdict oneHeld mixed (ofUnixMilli 5500 + 7)).isSome = true ∧
      SameVerdict (Eqmem.taskVerdict oneHeld mixed (ofUnixMilli 5500 + 7))
        (Eqredis.taskVerdict mixed (unixMilli (ofUnixMilli 5500 + 7)) (read mixed heldHash)) := by
  have hq : oneHeld.qByID = Finmap.singleton "t" "q" := by decide
  have ht : oneHeld.stored "q" "t" = some heldRow := by decide
  have hs : ∀ id, oneHeld.task id = (Finmap.singleton "t" heldRow : FMap String Task).lookup id := by
    intro id
    rw [EQMem.task, hq]
    by_cases hid : id = "t"
    · subst hid
      rw [Finmap.lookup_singleton_eq, Finmap.lookup_singleton_eq]
      exact ht
    · rw [Finmap.lookup_eq_none.mpr (by simpa using hid),
        Finmap.lookup_eq_none.mpr (by simpa using hid)]
      rfl
  have hdb : ∀ id, (taskHash heldHash id).map (fun f => f.toTask.checked) =
      (oneHeld.task id).map Task.checked := by
    intro id
    rw [hs]
    by_cases hid : id = "t"
    · subst hid
      rw [Finmap.lookup_singleton_eq]
      decide
    · rw [Finmap.lookup_eq_none.mpr (by simpa using hid)]
      simp [heldHash, Keyspace.exec, insertBlock, Keyspace.run, taskHash, hid]
  refine ⟨by decide, ?_⟩
  exact (task_verdicts_agree oneHeld (run_invariant invariant_empty _) (Finmap.singleton "t" heldRow)
    heldHash (fun id => by rw [hs]) hdb mixed (by decide) (ofUnixMilli 5500 + 7)).1.2

end Witness

end EntroQ
