import EntroQ.Client.DependencyError

/-! # Checks on a request before a backend touches storage

A check returns the first thing wrong with a request, or `none`. What `Validated` keeps of the
long conjunction of checks is what the backend relies on later: write targets have names, and no
task or doc is named by two operations. -/

namespace EntroQ
open Foundation

/-- A request no state could satisfy: the message as its format and arguments, and the
contexts wrapped around it, outermost first. -/
structure InvalidArgument extends Message where
  contexts : List String := []
  deriving DecidableEq

def InvalidArgument.within (e : InvalidArgument) (context : String) : InvalidArgument :=
  { e with contexts := context :: e.contexts }

section Walk
variable {α κ ε : Type*} [DecidableEq κ]

/-- Walk a list, stopping at the first item that is bad or whose key came before. -/
def walkUnique (key : α → κ) (bad : α → Option ε) (again : α → ε) (seen : List κ) :
    List α → Option ε
  | [] => none
  | x :: xs =>
    match bad x with
    | some e => some e
    | none => if key x ∈ seen then some (again x) else walkUnique key bad again (key x :: seen) xs

theorem walkUnique_eq_none_iff (key : α → κ) (bad : α → Option ε) (again : α → ε) (seen : List κ)
    (l : List α) :
    walkUnique key bad again seen l = none ↔
      (∀ x ∈ l, bad x = none) ∧ (l.map key).Nodup ∧ ∀ x ∈ l, key x ∉ seen := by
  induction l generalizing seen with
  | nil => simp [walkUnique]
  | cons x xs ih =>
    rw [walkUnique]
    cases hb : bad x with
    | some e => simp [hb]
    | none =>
      by_cases hs : key x ∈ seen
      · simp [hs]
      · simp only [hs, if_false, ih, List.map_cons, List.nodup_cons, List.mem_map, not_exists,
          not_and]
        rw [List.forall_mem_cons, List.forall_mem_cons]
        constructor
        · rintro ⟨hbad, hnd, hk⟩
          simp only [List.mem_cons, not_or] at hk
          exact ⟨⟨hb, hbad⟩, ⟨fun y hy he => (hk y hy).1 he, hnd⟩, hs, fun y hy => (hk y hy).2⟩
        · rintro ⟨⟨-, hbad⟩, ⟨hne, hnd⟩, -, hk⟩
          refine ⟨hbad, hnd, fun y hy hm => ?_⟩
          rcases List.mem_cons.mp hm with he | hm
          · exact hne y hy he
          · exact hk y hy hm

/-- Record the version of each item under its key, refusing a key already recorded. -/
def addDeps (key : α → κ) (version : α → Int32) (again : α → ε) (deps : FMap κ Int32) :
    List α → Except ε (FMap κ Int32)
  | [] => .ok deps
  | x :: xs =>
    if key x ∈ deps then .error (again x)
    else addDeps key version again (deps.insert (key x) (version x)) xs

theorem addDeps_ok (key : α → κ) (version : α → Int32) (again : α → ε) (deps d : FMap κ Int32)
    (l : List α) (h : addDeps key version again deps l = .ok d) :
    (l.map key).Nodup ∧ (∀ x ∈ l, key x ∉ deps) ∧ ∀ k, k ∈ d ↔ k ∈ deps ∨ k ∈ l.map key := by
  induction l generalizing deps with
  | nil =>
    cases h
    simp
  | cons x xs ih =>
    rw [addDeps] at h
    split_ifs at h with hk
    obtain ⟨hnd, hne, hd⟩ := ih _ h
    simp only [Finmap.mem_insert, not_or] at hne hd
    refine ⟨?_, ?_, ?_⟩
    · rw [List.map_cons, List.nodup_cons, List.mem_map]
      exact ⟨fun ⟨y, hy, he⟩ => (hne y hy).1 he, hnd⟩
    · exact List.forall_mem_cons.mpr ⟨hk, fun y hy => (hne y hy).2⟩
    · intro k
      rw [hd, List.map_cons, List.mem_cons, or_assoc, or_left_comm]

end Walk

namespace Modification
variable (m : Modification)

def ensureModifyKeys : Option InvalidArgument :=
  if m.isEmpty then some { format := "modify: nothing to do" }
  else
    (m.inserts.findSome? fun ins =>
      if ins.queue = "" then
        some { format := "modify: insert of task %q must name a queue", args := [.str ins.id] }
      else none) <|>
    (m.changes.findSome? fun c =>
      if c.task.queue = "" then
        some { format := "modify: change of task %q must name a destination queue"
               args := [.str c.task.id] }
      else none) <|>
    (m.arrives.findSome? fun a =>
      if a.taskID.queue = "" then
        some { format := "modify: arrival of task %q must name its queue"
               args := [.str a.taskID.id] }
      else none) <|>
    (m.docInserts.findSome? fun ins =>
      if ins.ns = "" then
        some { format := "modify: doc insert %q must name a namespace", args := [.str ins.id] }
      else none) <|>
    walkUnique (fun a : DocArrival => (a.docID.ns, a.docID.key))
      (fun a =>
        if !a.docID.isSetRef then
          some { format := "modify: doc arrival %v must name a doc set by key, not a doc"
                 args := [.docID a.docID] }
        else if a.docID.ns = "" then
          some { format := "modify: arrival of doc set %q must name a namespace"
                 args := [.str a.docID.key] }
        else none)
      (fun a =>
        { format := "modify: doc set %q in %q arrives more than once"
          args := [.str a.docID.key, .str a.docID.ns] })
      [] m.docArrives

def modTaskDeps : List (String × Int32) :=
  m.changes.map (fun c => (c.task.id, c.task.version)) ++
    m.deletes.map (fun d => (d.id, d.version)) ++
    m.arrives.map (fun a => (a.taskID.id, a.taskID.version))

def modDocDeps : List (String × String × Int32) :=
  m.docChanges.map (fun c => (c.doc.ns, c.doc.id, c.doc.version)) ++
    m.docDeletes.map (fun d => (d.ns, d.id, d.version))

def restTaskDeps : List (String × Int32) :=
  m.depends.map (fun d => (d.id, d.version)) ++
    (m.inserts.filter (fun t => t.id != "")).map (fun t => (t.id, -1))

def restDocDeps : List (String × String × Int32) :=
  m.docDepends.map (fun d => (d.ns, d.id, d.version)) ++
    (m.docInserts.filter (fun d => d.id != "")).map (fun d => (d.ns, d.id, -1))

end Modification

def addTaskDeps (deps : FMap String Int32) (l : List (String × Int32)) :
    Except InvalidArgument (FMap String Int32) :=
  addDeps Prod.fst Prod.snd
    (fun t =>
      { format := "task %q appears in more than one operation of the modification"
        args := [.str t.1] })
    deps l

def addDocDeps (deps : FMap String Int32) (l : List (String × String × Int32)) :
    Except InvalidArgument (FMap String Int32) :=
  addDeps (fun d => docKey d.1 d.2.1) (fun d => d.2.2)
    (fun d =>
      { format := "doc %q in namespace %q appears in more than one operation of the modification"
        args := [.str d.2.1, .str d.1] })
    deps l

namespace Modification
variable (m : Modification)

def modDependencies : Except InvalidArgument (FMap String Int32 × FMap String Int32) := do
  let tasks ← (addTaskDeps ∅ m.modTaskDeps).mapError (·.within "modify task")
  let docs ← (addDocDeps ∅ m.modDocDeps).mapError (·.within "modify doc")
  return (tasks, docs)

/-- The versions the modification names for tasks and docs, each of which only one operation
may name. -/
def allDependencies : Except InvalidArgument (FMap String Int32 × FMap String Int32) :=
  Except.mapError (·.within "all dependencies") do
    let (tasks, docs) ← m.modDependencies
    let tasks ← addTaskDeps tasks m.restTaskDeps
    let docs ← addDocDeps docs m.restDocDeps
    return (tasks, docs)

end Modification

/-! ## The backend's checks -/

namespace Validate

def maxIDBytes : ℕ := 64
def maxClaimantBytes : ℕ := 512
def maxNamespaceBytes : ℕ := 1024
def maxDocKeyBytes : ℕ := 256

def check (what s : String) (limit : ℕ) : Option InvalidArgument :=
  if s.utf8ByteSize > limit then
    some { format := "%s is %d bytes, limit is %d"
           args := [.str what, .num s.utf8ByteSize, .num limit] }
  else none

def claimant (c : String) : Option InvalidArgument := check "claimant" c maxClaimantBytes

def claim (cq : ClaimQuery) : Option InvalidArgument :=
  if cq.queues.isEmpty then some { format := "claim must name at least one queue" }
  else if cq.claimant = "" then some { format := "claim must name a claimant" }
  else if cq.duration ≤ 0 then
    some { format := "claim duration must be positive, got %v", args := [.duration cq.duration] }
  else if cq.duration > maxClaimDuration then
    some { format := "claim duration is %v, limit is %v (a unit error?)"
           args := [.duration cq.duration, .duration maxClaimDuration] }
  else claimant cq.claimant

/-- `DocClaim.Validate`. -/
def docClaimQuery (cq : DocClaim) : Option InvalidArgument :=
  if cq.sets.isEmpty then some { format := "doc claim must name a doc set" }
  else
    walkUnique (fun s : DocSetClaim => (s.ns, s.key))
      (fun s =>
        if s.ns = "" then some { format := "doc claim must name a namespace for each set" }
        else if s.key = "" then some { format := "doc claim must name a key for each set" }
        else none)
      (fun s =>
        { format := "doc claim names set %q in %q more than once"
          args := [.str s.key, .str s.ns] })
      [] cq.sets <|>
    (if cq.claimant = "" then some { format := "doc claim must name a claimant" }
    else if cq.leases > 1 then some { format := "doc claim gives more than one lease" }
    else if cq.duration < 0 then
      some { format := "doc claim duration must not be negative, got %v"
             args := [.duration cq.duration] }
    else if cq.duration > maxClaimDuration then
      some { format := "doc claim duration is %v, limit is %v (a unit error?)"
             args := [.duration cq.duration, .duration maxClaimDuration] }
    else if cq.duration > 0 && cq.taskToMatch.isSome then
      some { format := "doc claim gives both a duration and a task to match" }
    else
      cq.taskToMatch.bind fun t =>
        if t.id = "" || t.queue = "" then
          some { format := "doc claim matches a task with no ID or no queue: %v"
                 args := [.taskID t] }
        else none)

def docClaim (cq : DocClaim) : Option InvalidArgument :=
  docClaimQuery cq <|>
    (if cq.duration = 0 && cq.taskToMatch.isNone then
      some { format := "doc claim must give a duration or a task to match" }
    else none) <|>
    (cq.sets.findSome? fun s =>
      check "doc namespace" s.ns maxNamespaceBytes <|> check "doc key" s.key maxDocKeyBytes) <|>
    claimant cq.claimant

def doc (ns id key secondaryKey : String) : Option InvalidArgument :=
  check "doc namespace" ns maxNamespaceBytes <|> check "doc id" id maxIDBytes <|>
    check "doc key" key maxDocKeyBytes <|> check "doc secondary key" secondaryKey maxDocKeyBytes

def both (what : String) (r : DocID) : Option InvalidArgument :=
  if r.id != "" && r.key != "" then
    some { format := "%s names both doc %q and set %q in namespace %q; name one"
           args := [.str what, .str r.id, .str r.key, .str r.ns] }
  else none

def docRefs (m : Modification) : Option InvalidArgument :=
  (m.docDeletes.findSome? fun d =>
    both "doc delete" d <|>
      if d.isSetRef then
        some { format := "doc delete names set %q in namespace %q; a delete names a doc"
               args := [.str d.key, .str d.ns] }
      else none) <|>
  m.docDepends.findSome? (both "doc depend")

def docPlaces (m : Modification) : Option InvalidArgument :=
  walkUnique (fun d : DocData => (d.ns, d.key, d.secondaryKey)) (fun _ => none)
    (fun d =>
      { format := "two inserts name secondary key %q in set %q of namespace %q; " ++
          "a set holds one doc per secondary key"
        args := [.str d.secondaryKey, .str d.key, .str d.ns] })
    [] m.docInserts

/-- Bounds on every value the modification would store. -/
def lengths (m : Modification) : Option InvalidArgument :=
  (if m.inserts.isEmpty && m.changes.isEmpty && m.docInserts.isEmpty && m.docChanges.isEmpty &&
      m.arrives.isEmpty && m.docArrives.isEmpty then none
    else claimant m.claimant) <|>
  (m.inserts.findSome? fun t => check "task id" t.id maxIDBytes) <|>
  (m.changes.findSome? fun c => check "task id" c.task.id maxIDBytes) <|>
  (m.docInserts.findSome? fun d => doc d.ns d.id d.key d.secondaryKey) <|>
  (m.docChanges.findSome? fun c => doc c.doc.ns c.doc.id c.doc.key c.doc.secondaryKey)

def modification (m : Modification) : Option InvalidArgument :=
  m.ensureModifyKeys <|> docRefs m <|> docPlaces m <|>
    (match m.allDependencies with
      | .error e => some e
      | .ok _ => none) <|>
    lengths m

def tasksQuery (q : TasksQuery) : Option InvalidArgument :=
  if q.queue = "" && q.ids.isEmpty then
    some { format := "tasks query must name a queue or task IDs" }
  else none

def docQuery (q : DocQuery) : Option InvalidArgument :=
  if q.ns = "" then some { format := "docs query must name a namespace" } else none

end Validate

/-! ## What a validated modification is -/

/-- What the checks on names leave of a modification, whatever its lengths. -/
structure Modification.Validated (m : Modification) : Prop where
  nonempty : m.isEmpty = false
  insertQueue : ∀ t ∈ m.inserts, t.queue ≠ ""
  changeQueue : ∀ c ∈ m.changes, c.task.queue ≠ ""
  arriveQueue : ∀ a ∈ m.arrives, a.taskID.queue ≠ ""
  docInsertNs : ∀ d ∈ m.docInserts, d.ns ≠ ""
  docArriveSet : ∀ a ∈ m.docArrives, a.docID.isSetRef = true ∧ a.docID.ns ≠ ""
  docArriveOnce : (m.docArrives.map (fun a => (a.docID.ns, a.docID.key))).Nodup
  docDeleteRef : ∀ d ∈ m.docDeletes, d.key = ""
  docDependRef : ∀ d ∈ m.docDepends, d.id = "" ∨ d.key = ""
  placeOnce : (m.docInserts.map (fun d => (d.ns, d.key, d.secondaryKey))).Nodup
  taskOnce : ((m.modTaskDeps ++ m.restTaskDeps).map Prod.fst).Nodup
  docOnce : ((m.modDocDeps ++ m.restDocDeps).map (fun d => docKey d.1 d.2.1)).Nodup

theorem Except.bind_eq_ok_iff {ε α β : Type} (x : Except ε α) (f : α → Except ε β) (b : β) :
    (x >>= f) = .ok b ↔ ∃ a, x = .ok a ∧ f a = .ok b := by
  cases x <;> simp [bind, Except.bind]

theorem Except.mapError_eq_ok_iff {ε ε' α : Type} (f : ε → ε') (x : Except ε α) (a : α) :
    x.mapError f = .ok a ↔ x = .ok a := by
  cases x <;> simp [Except.mapError]

theorem Modification.allDependencies_ok (m : Modification)
    (r : FMap String Int32 × FMap String Int32) (h : m.allDependencies = .ok r) :
    ((m.modTaskDeps ++ m.restTaskDeps).map Prod.fst).Nodup ∧
      ((m.modDocDeps ++ m.restDocDeps).map (fun d => docKey d.1 d.2.1)).Nodup := by
  rw [allDependencies, Except.mapError_eq_ok_iff, Except.bind_eq_ok_iff] at h
  obtain ⟨⟨t1, d1⟩, h1, h⟩ := h
  obtain ⟨t2, h2, h⟩ := (Except.bind_eq_ok_iff _ _ _).mp h
  obtain ⟨d2, h3, h⟩ := (Except.bind_eq_ok_iff _ _ _).mp h
  rw [modDependencies, Except.bind_eq_ok_iff] at h1
  obtain ⟨t1', ht1, h1⟩ := h1
  obtain ⟨d1', hd1, h1⟩ := (Except.bind_eq_ok_iff _ _ _).mp h1
  cases h1
  rw [Except.mapError_eq_ok_iff] at ht1 hd1
  obtain ⟨hnt1, -, hmt1⟩ := addDeps_ok _ _ _ _ _ _ ht1
  obtain ⟨hnt2, hat2, -⟩ := addDeps_ok _ _ _ _ _ _ h2
  obtain ⟨hnd1, -, hmd1⟩ := addDeps_ok _ _ _ _ _ _ hd1
  obtain ⟨hnd2, had2, -⟩ := addDeps_ok _ _ _ _ _ _ h3
  rw [List.map_append, List.map_append]
  refine ⟨List.nodup_append'.mpr ⟨hnt1, hnt2, ?_⟩, List.nodup_append'.mpr ⟨hnd1, hnd2, ?_⟩⟩
  · intro k hk hk'
    obtain ⟨x, hx, rfl⟩ := List.mem_map.mp hk'
    exact hat2 x hx ((hmt1 _).mpr (.inr hk))
  · intro k hk hk'
    obtain ⟨x, hx, rfl⟩ := List.mem_map.mp hk'
    exact had2 x hx ((hmd1 _).mpr (.inr hk))

theorem Validate.modification_allDependencies (m : Modification)
    (h : Validate.modification m = none) : ∃ r, m.allDependencies = .ok r := by
  simp only [modification, Option.orElse_eq_none] at h
  obtain ⟨-, -, -, hdeps, -⟩ := h
  cases hd : m.allDependencies with
  | ok r => exact ⟨r, rfl⟩
  | error e => simp [hd] at hdeps

theorem Validate.modification_none (m : Modification) (h : Validate.modification m = none) :
    m.Validated := by
  obtain ⟨r, hr⟩ := modification_allDependencies m h
  simp only [modification, Option.orElse_eq_none] at h
  obtain ⟨hkeys, hrefs, hplaces, -, -⟩ := h
  have hempty : m.isEmpty = false := by
    by_contra he
    rw [Modification.ensureModifyKeys, if_pos (by simpa using he)] at hkeys
    cases hkeys
  simp only [Modification.ensureModifyKeys, hempty, Bool.false_eq_true, if_false,
    Option.orElse_eq_none, List.findSome?_eq_none_iff,
    walkUnique_eq_none_iff] at hkeys
  obtain ⟨hins, hch, harr, hdi, hda, hdan, -⟩ := hkeys
  simp only [docRefs, Option.orElse_eq_none,
    List.findSome?_eq_none_iff] at hrefs
  obtain ⟨hdel, hdep⟩ := hrefs
  rw [docPlaces, walkUnique_eq_none_iff] at hplaces
  obtain ⟨htask, hdoc⟩ := m.allDependencies_ok r hr
  refine ⟨hempty, ?_, ?_, ?_, ?_, ?_, hdan, ?_, ?_, hplaces.2.1, htask, hdoc⟩
  · intro t ht he
    simpa [he] using hins t ht
  · intro c hc he
    simpa [he] using hch c hc
  · intro a ha he
    simpa [he] using harr a ha
  · intro d hd he
    simpa [he] using hdi d hd
  · intro a ha
    have := hda a ha
    split_ifs at this with h1 h2
    simp only [Bool.not_eq_true', Bool.not_eq_false] at h1
    exact ⟨h1, h2⟩
  · intro d hd
    obtain ⟨hb, hs⟩ := hdel d hd
    by_contra hk
    by_cases hi : d.id = ""
    · simp [DocID.isSetRef, hi, hk] at hs
    · simp [both, hi, hk] at hb
  · intro d hd
    have hb := hdep d hd
    by_contra hk
    rw [not_or] at hk
    simp [both, hk.1, hk.2] at hb

end EntroQ
