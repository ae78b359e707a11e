import EntroQ.Docset.Lock

/-! # What a modification does to doc sets

`evaluate` walks the doc operations in the order of their classes. What becomes of an operation
depends on the stored docs and locks alone, so it is a function `outcome` of the operation, and
the walk records outcomes: failures in the error, and writes in the locks to come. -/

namespace EntroQ

/-- A doc operation of a modification. -/
inductive DocOp
  | insert (d : DocData)
  | change (c : DocChange)
  | delete (d : DocID)
  | depend (d : DocID)
  | arrive (a : DocArrival)
  deriving DecidableEq

def Modification.docOps (m : Modification) : List DocOp :=
  m.docInserts.map .insert ++ m.docChanges.map .change ++ m.docDeletes.map .delete ++
    m.docDepends.map .depend ++ m.docArrives.map .arrive

namespace Docset

/-- What becomes of one doc operation. -/
inductive Outcome
  | collides (id : DocID)
  | changeMissing (id : DocID)
  | deleteMissing (id : DocID)
  | dependMissing (id : DocID)
  | arriveMissing (id : DocID)
  | heldByOther (g : SetName) (named : Option DocID)
  | write (g : SetName) (byDur : Duration) (added : ℤ)
  | holds
  deriving DecidableEq

/-- What the writes to one set come to: the latest arrival asked for, and the docs inserted
less the docs deleted. -/
structure Write where
  latest : Time := 0
  added : ℤ := 0
  deriving DecidableEq

structure Evaluation where
  depErr : DependencyError := {}
  writes : AList (fun _ : SetName => Write) := ∅
  reported : List SetName := []

structure Plan where
  err : Option DependencyError := none
  locks : AList (fun _ : SetName => Lock) := ∅
  arrived : List DocSet := []

section Evaluate
variable (mod : Modification) (now : Time) (member : String → String → Option Doc)
  (occupant : SetName → String → Option Doc) (lock : SetName → Lock)

/-- The modification names the set itself, so its members may leave out the version. -/
def provided (g : SetName) : Bool :=
  mod.docArrives.any (fun a => (⟨a.docID.ns, a.docID.key⟩ : SetName) == g) ||
    mod.docDepends.any (fun d => d.isSetRef && (⟨d.ns, d.key⟩ : SetName) == g)

def stored (ns id : String) (version : Int32) : Option SetName :=
  (member ns id).bind fun d =>
    if (version == 0 && provided mod ⟨d.ns, d.key⟩) ||
        (lock ⟨d.ns, d.key⟩).version == version then
      some ⟨d.ns, d.key⟩
    else none

def insertOutcome (ins : DocData) : Outcome :=
  let g : SetName := ⟨ins.ns, ins.key⟩
  if ins.id != "" && (member ins.ns ins.id).isSome then .collides (newDocID ins.ns ins.id 0)
  else
    match if (lock g).numDocs > 0 then occupant g ins.secondaryKey else none with
    | some d => .collides (newDocID d.ns d.id (lock g).version)
    | none =>
      if (lock g).heldByOther mod.claimant now then
        .heldByOther g (some (newDocID ins.ns ins.id (lock g).version))
      else .write g ins.byDur 1

def changeOutcome (c : DocChange) : Outcome :=
  let id := newDocID c.doc.ns c.doc.id c.doc.version
  match stored mod member lock c.doc.ns c.doc.id c.doc.version with
  | none => .changeMissing id
  | some g =>
    if (lock g).heldByOther mod.claimant now then .heldByOther g (some id)
    else .write g c.byDur 0

def deleteOutcome (d : DocID) : Outcome :=
  match stored mod member lock d.ns d.id d.version with
  | none => .deleteMissing d
  | some g =>
    if (lock g).heldByOther mod.claimant now then .heldByOther g (some d)
    else .write g 0 (-1)

def dependOutcome (d : DocID) : Outcome :=
  if d.isSetRef then
    if !(lock ⟨d.ns, d.key⟩).stored || (lock ⟨d.ns, d.key⟩).version != d.version then
      .dependMissing d
    else .holds
  else if (stored mod member lock d.ns d.id d.version).isNone then .dependMissing d
  else .holds

def arriveOutcome (a : DocArrival) : Outcome :=
  let g : SetName := ⟨a.docID.ns, a.docID.key⟩
  if !(lock g).stored || (lock g).version != a.docID.version then
    .arriveMissing (ref g (lock g))
  else if (lock g).heldByOther mod.claimant now then .heldByOther g none
  else .write g a.byDur 0

def outcome : DocOp → Outcome
  | .insert ins => insertOutcome mod now member occupant lock ins
  | .change c => changeOutcome mod now member lock c
  | .delete d => deleteOutcome mod now member lock d
  | .depend d => dependOutcome mod member lock d
  | .arrive a => arriveOutcome mod now lock a

/-- Record an outcome. A set held by someone else is named the first time, and then the
operation it stopped, for clients that know only doc failures. -/
def record (e : Evaluation) : Outcome → Evaluation
  | .collides id =>
    { e with depErr := { e.depErr with docInserts := e.depErr.docInserts ++ [id] } }
  | .changeMissing id =>
    { e with depErr := { e.depErr with docChanges := e.depErr.docChanges ++ [id] } }
  | .deleteMissing id =>
    { e with depErr := { e.depErr with docDeletes := e.depErr.docDeletes ++ [id] } }
  | .dependMissing id =>
    { e with depErr := { e.depErr with docDepends := e.depErr.docDepends ++ [id] } }
  | .arriveMissing id =>
    { e with depErr := { e.depErr with docArrives := e.depErr.docArrives ++ [id] } }
  | .heldByOther g named =>
    let first := if g ∈ e.reported then [] else [ref g (lock g)]
    { e with depErr := { e.depErr with docClaims := e.depErr.docClaims ++ first ++ named.toList }
             reported := g :: e.reported }
  | .write g byDur added =>
    let w := (e.writes.lookup g).getD {}
    let latest := if 0 < byDur ∧ w.latest < now + byDur then now + byDur else w.latest
    { e with writes := e.writes.insert g { latest, added := w.added + added } }
  | .holds => e

def recordAll (os : List Outcome) : Evaluation := os.foldl (record now lock) {}

def nextLock (g : SetName) (w : Write) : Lock :=
  { stored := true, version := written (lock g)
    claimant := if w.latest = 0 then "" else mod.claimant
    atTime := if w.latest = 0 then now else w.latest
    numDocs := (lock g).numDocs + w.added }

/-- What the walk decided. -/
def plan (e : Evaluation) : Plan :=
  if e.depErr.hasAny then { err := some e.depErr }
  else
    let locks : AList (fun _ : SetName => Lock) :=
      ⟨e.writes.entries.map (Sigma.map id (nextLock mod now lock)),
        List.NodupKeys.map₂ _ _ e.writes.nodupKeys⟩
    { locks
      arrived := mod.docArrives.map fun a =>
        current ⟨a.docID.ns, a.docID.key⟩ ((locks.lookup ⟨a.docID.ns, a.docID.key⟩).getD absent) }

def evaluate : Plan :=
  plan mod now lock (recordAll now lock (mod.docOps.map (outcome mod now member occupant lock)))

end Evaluate

/-! ## What the walk comes to -/

namespace Outcome

/-- The operation goes ahead. -/
def passes : Outcome → Bool
  | .write .. => true
  | .holds => true
  | _ => false

/-- The operation fails, and the error names the reference for it among those of the class. -/
def Fails (lock : SetName → Lock) : Outcome → DocClass → DocID → Prop
  | .collides id, .inserts, r => r = id
  | .changeMissing id, .changes, r => r = id
  | .deleteMissing id, .deletes, r => r = id
  | .dependMissing id, .depends, r => r = id
  | .arriveMissing id, .arrives, r => r = id
  | .heldByOther g named, .claims, r => r = ref g (lock g) ∨ named = some r
  | _, _, _ => False

def addedTo (g : SetName) : Outcome → ℤ
  | .write g' _ n => if g' = g then n else 0
  | _ => 0

end Outcome

section Spec
variable (now : Time) (lock : SetName → Lock)

theorem recordAll_append (os : List Outcome) (o : Outcome) :
    recordAll now lock (os ++ [o]) = record now lock (recordAll now lock os) o := by
  simp [recordAll]

/-- Tasks are not docset's business. -/
theorem recordAll_tasks (os : List Outcome) (c : TaskClass) :
    (recordAll now lock os).depErr.tasks c = [] := by
  induction os using List.reverseRecOn with
  | nil => cases c <;> rfl
  | append_singleton os o ih =>
    rw [recordAll_append]
    cases o <;> cases c <;> exact ih

theorem mem_reported (os : List Outcome) (g : SetName) :
    g ∈ (recordAll now lock os).reported ↔ ∃ named, Outcome.heldByOther g named ∈ os := by
  induction os using List.reverseRecOn with
  | nil => simp [recordAll]
  | append_singleton os o ih =>
    rw [recordAll_append]
    cases o <;> simp [record, ih, exists_or, or_comm]

/-- The error names what fails, and a held set beside the operations it stops. -/
theorem mem_recordAll_docs (os : List Outcome) (c : DocClass) (r : DocID) :
    r ∈ (recordAll now lock os).depErr.docs c ↔ ∃ o ∈ os, o.Fails lock c r := by
  induction os using List.reverseRecOn generalizing r with
  | nil => cases c <;> simp [recordAll, DependencyError.docs]
  | append_singleton os o ih =>
    have hstep : r ∈ (record now lock (recordAll now lock os) o).depErr.docs c ↔
        r ∈ (recordAll now lock os).depErr.docs c ∨ o.Fails lock c r := by
      cases o with
      | heldByOther g named =>
        cases c with
        | claims =>
          by_cases hg : g ∈ (recordAll now lock os).reported
          · -- the set is named already
            obtain ⟨named', hmem⟩ := (mem_reported now lock os g).mp hg
            have hfirst := (ih (ref g (lock g))).mpr ⟨_, hmem, .inl rfl⟩
            simp only [record, hg, if_true, DependencyError.docs, List.append_nil, List.mem_append,
              Option.mem_toList, Outcome.Fails]
            constructor
            · rintro (h | h)
              · exact .inl h
              · exact .inr (.inr h)
            · rintro (h | rfl | h)
              · exact .inl h
              · exact .inl hfirst
              · exact .inr h
          · simp [record, hg, DependencyError.docs, Outcome.Fails]
        | _ => simp [record, DependencyError.docs, Outcome.Fails]
      | _ => cases c <;> simp [record, DependencyError.docs, Outcome.Fails]
    rw [recordAll_append, hstep, ih]
    simp only [List.mem_append, List.mem_singleton, or_and_right, exists_or, exists_eq_left]

theorem Outcome.passes_iff (o : Outcome) : o.passes = true ↔ ∀ c r, ¬o.Fails lock c r := by
  constructor
  · intro h c r
    cases o with
    | write | holds => exact id
    | _ => cases h
  · intro h
    cases o with
    | collides id => exact absurd rfl (h .inserts id)
    | changeMissing id => exact absurd rfl (h .changes id)
    | deleteMissing id => exact absurd rfl (h .deletes id)
    | dependMissing id => exact absurd rfl (h .depends id)
    | arriveMissing id => exact absurd rfl (h .arrives id)
    | heldByOther g named => exact absurd (.inl rfl) (h .claims (ref g (lock g)))
    | write | holds => rfl

theorem recordAll_hasAny (os : List Outcome) :
    (recordAll now lock os).depErr.hasAny = false ↔ ∀ o ∈ os, o.passes = true := by
  simp only [DependencyError.hasAny_eq_false_iff, recordAll_tasks, List.eq_nil_iff_forall_not_mem,
    mem_recordAll_docs, not_exists, not_and, Outcome.passes_iff lock]
  constructor
  · rintro ⟨-, h⟩ o ho c r
    exact h c r o ho
  · intro h
    exact ⟨fun _ => trivial, fun c r o ho => h o ho c r⟩

/-- A set is written exactly if an operation writes it, and then by what those operations add. -/
theorem recordAll_writes (os : List Outcome) (g : SetName) :
    (g ∈ (recordAll now lock os).writes ↔ ∃ byDur n, Outcome.write g byDur n ∈ os) ∧
      (((recordAll now lock os).writes.lookup g).getD {}).added =
        (os.map (Outcome.addedTo g)).sum := by
  induction os using List.reverseRecOn with
  | nil => simp [recordAll]
  | append_singleton os o ih =>
    obtain ⟨ihm, iha⟩ := ih
    rw [recordAll_append]
    cases o with
    | write g' byDur n =>
      by_cases hg : g' = g
      · subst hg
        simp only [record, AList.mem_insert, true_or, AList.lookup_insert, Option.getD_some, iha,
          List.map_append, List.sum_append, List.map_cons, List.map_nil, List.sum_cons,
          List.sum_nil, Outcome.addedTo, if_true, add_zero, and_true, true_iff]
        exact ⟨byDur, n, by simp⟩
      · have hg' : g ≠ g' := fun h => hg h.symm
        simp only [record, AList.mem_insert, hg', false_or, AList.lookup_insert_ne hg', iha, ihm,
          List.map_append, List.sum_append, List.map_cons, List.map_nil, List.sum_cons,
          List.sum_nil, Outcome.addedTo, hg, if_false, add_zero, and_true]
        constructor
        · rintro ⟨d, k, h⟩
          exact ⟨d, k, by simp [h]⟩
        · rintro ⟨d, k, h⟩
          simp only [List.mem_append, List.mem_singleton, Outcome.write.injEq, hg', false_and,
            or_false] at h
          exact ⟨d, k, h⟩
    | _ => simp [record, ihm, iha, Outcome.addedTo]

theorem recordAll_latest (os : List Outcome) (g : SetName) (w : Write)
    (h : (recordAll now lock os).writes.lookup g = some w) : w.latest = 0 ∨ now < w.latest := by
  induction os using List.reverseRecOn generalizing w with
  | nil => simp [recordAll] at h
  | append_singleton os o ih =>
    rw [recordAll_append] at h
    cases o with
    | write g' byDur n =>
      simp only [record] at h
      by_cases hg : g = g'
      · subst hg
        rw [AList.lookup_insert] at h
        cases h
        have hprev : (((recordAll now lock os).writes.lookup g).getD {}).latest = 0 ∨
            now < (((recordAll now lock os).writes.lookup g).getD {}).latest := by
          cases hw : (recordAll now lock os).writes.lookup g with
          | none => exact .inl rfl
          | some w' => exact ih w' hw
        dsimp only
        split_ifs with hc
        · exact .inr (Int.lt_add_of_pos_right now hc.1)
        · exact hprev
      · rw [AList.lookup_insert_ne hg] at h
        exact ih w h
    | _ => exact ih w h

end Spec

section PlanSpec
variable (mod : Modification) (now : Time) (member : String → String → Option Doc)
  (occupant : SetName → String → Option Doc) (lock : SetName → Lock)

theorem evaluate_err_eq :
    (evaluate mod now member occupant lock).err =
      (recordAll now lock
        (mod.docOps.map (outcome mod now member occupant lock))).depErr.reported := by
  unfold evaluate plan DependencyError.reported
  split_ifs <;> rfl

theorem evaluate_err_none_iff :
    (evaluate mod now member occupant lock).err = none ↔
      ∀ op ∈ mod.docOps, (outcome mod now member occupant lock op).passes = true := by
  have h := recordAll_hasAny now lock (mod.docOps.map (outcome mod now member occupant lock))
  rw [List.forall_mem_map] at h
  rw [← h, evaluate_err_eq, DependencyError.reported_eq_none_iff]

theorem evaluate_err_some (e : DependencyError)
    (h : (evaluate mod now member occupant lock).err = some e) :
    e = (recordAll now lock (mod.docOps.map (outcome mod now member occupant lock))).depErr ∧
      e.hasAny = true := by
  rw [evaluate_err_eq] at h
  obtain ⟨rfl, ha⟩ := DependencyError.eq_of_reported h
  exact ⟨rfl, ha⟩

/-- A plan without an error holds the next lock of every set the walk wrote. -/
theorem evaluate_locks_lookup (h : (evaluate mod now member occupant lock).err = none)
    (g : SetName) :
    (evaluate mod now member occupant lock).locks.lookup g =
      ((recordAll now lock (mod.docOps.map (outcome mod now member occupant lock))).writes.lookup
        g).map (nextLock mod now lock g) := by
  unfold evaluate plan at h ⊢
  dsimp only at h ⊢
  split_ifs at h ⊢ with hc
  rw [AList.lookup, List.dlookup_map₂]
  rfl

/-- The planned locks are the next locks of the sets some operation writes. -/
theorem evaluate_locks (h : (evaluate mod now member occupant lock).err = none) (g : SetName)
    (l : Lock) (hl : (evaluate mod now member occupant lock).locks.lookup g = some l) :
    ∃ w, l = nextLock mod now lock g w ∧ (w.latest = 0 ∨ now < w.latest) ∧
      w.added = ((mod.docOps.map (outcome mod now member occupant lock)).map
        (Outcome.addedTo g)).sum ∧
      ∃ op ∈ mod.docOps, ∃ byDur n,
        outcome mod now member occupant lock op = .write g byDur n := by
  rw [evaluate_locks_lookup mod now member occupant lock h, Option.map_eq_some_iff] at hl
  obtain ⟨w, hw, rfl⟩ := hl
  obtain ⟨hmem, hadd⟩ := recordAll_writes now lock
    (mod.docOps.map (outcome mod now member occupant lock)) g
  rw [hw] at hadd
  refine ⟨w, rfl, recordAll_latest now lock _ g w hw, hadd, ?_⟩
  obtain ⟨byDur, n, hm⟩ := hmem.mp (AList.lookup_isSome.mp (by rw [hw]; rfl))
  obtain ⟨op, hop, ho⟩ := List.mem_map.mp hm
  exact ⟨op, hop, byDur, n, ho⟩

theorem evaluate_locks_mem (h : (evaluate mod now member occupant lock).err = none)
    (op : DocOp) (hop : op ∈ mod.docOps) (g : SetName) (byDur : Duration) (n : ℤ)
    (ho : outcome mod now member occupant lock op = .write g byDur n) :
    ∃ l, (evaluate mod now member occupant lock).locks.lookup g = some l := by
  have hmem := (recordAll_writes now lock
    (mod.docOps.map (outcome mod now member occupant lock)) g).1.mpr
    ⟨byDur, n, List.mem_map.mpr ⟨op, hop, ho⟩⟩
  obtain ⟨w, hw⟩ := Option.isSome_iff_exists.mp (AList.lookup_isSome.mpr hmem)
  exact ⟨_, by rw [evaluate_locks_lookup mod now member occupant lock h, hw]; rfl⟩

/-- The plan depends on the stored docs only through the outcomes of the operations. -/
theorem evaluate_congr (member' : String → String → Option Doc)
    (h : ∀ op ∈ mod.docOps,
      outcome mod now member' occupant lock op = outcome mod now member occupant lock op) :
    evaluate mod now member' occupant lock = evaluate mod now member occupant lock := by
  unfold evaluate
  rw [List.map_congr_left h]

end PlanSpec

/-! ## Outcomes that go ahead -/

section Passing
variable {mod : Modification} {now : Time} {member : String → String → Option Doc}
  {occupant : SetName → String → Option Doc} {lock : SetName → Lock}

/-- The doc is there, and its set is at the version named, or is named itself. -/
def AtVersion (mod : Modification) (member : String → String → Option Doc)
    (lock : SetName → Lock) (ns id : String) (version : Int32) (d : Doc) : Prop :=
  member ns id = some d ∧
    (version = 0 ∧ provided mod ⟨d.ns, d.key⟩ = true ∨ (lock ⟨d.ns, d.key⟩).version = version)

theorem stored_eq_some {ns id : String} {version : Int32} {g : SetName} :
    stored mod member lock ns id version = some g ↔
      ∃ d, AtVersion mod member lock ns id version d ∧ g = ⟨d.ns, d.key⟩ := by
  unfold stored AtVersion
  rw [Option.bind_eq_some_iff]
  refine exists_congr fun d => ?_
  rw [Option.ite_none_right_eq_some]
  rw [Bool.or_eq_true, Bool.and_eq_true, beq_iff_eq, beq_iff_eq, Option.some.injEq, and_assoc,
    eq_comm (a := g)]

theorem stored_eq_none {ns id : String} {version : Int32} :
    stored mod member lock ns id version = none ↔
      ∀ d, ¬AtVersion mod member lock ns id version d := by
  rw [Option.eq_none_iff_forall_ne_some]
  constructor
  · intro h d hd
    exact h _ (stored_eq_some.mpr ⟨d, hd, rfl⟩)
  · intro h g hg
    obtain ⟨d, hd, -⟩ := stored_eq_some.mp hg
    exact h d hd

/-- A change, delete or arrival finds its set at the version named, free or held, or misses it. -/
theorem changeOutcome_cases (c : DocChange) :
    (∃ d, AtVersion mod member lock c.doc.ns c.doc.id c.doc.version d ∧
      changeOutcome mod now member lock c =
        if (lock ⟨d.ns, d.key⟩).heldByOther mod.claimant now then
          .heldByOther ⟨d.ns, d.key⟩ (some (newDocID c.doc.ns c.doc.id c.doc.version))
        else .write ⟨d.ns, d.key⟩ c.byDur 0) ∨
    (∀ d, ¬AtVersion mod member lock c.doc.ns c.doc.id c.doc.version d) ∧
      changeOutcome mod now member lock c =
        .changeMissing (newDocID c.doc.ns c.doc.id c.doc.version) := by
  unfold changeOutcome
  cases hs : stored mod member lock c.doc.ns c.doc.id c.doc.version with
  | none => exact .inr ⟨stored_eq_none.mp hs, rfl⟩
  | some g =>
    obtain ⟨d, hd, rfl⟩ := stored_eq_some.mp hs
    exact .inl ⟨d, hd, rfl⟩

theorem deleteOutcome_cases (r : DocID) :
    (∃ d, AtVersion mod member lock r.ns r.id r.version d ∧
      deleteOutcome mod now member lock r =
        if (lock ⟨d.ns, d.key⟩).heldByOther mod.claimant now then
          .heldByOther ⟨d.ns, d.key⟩ (some r)
        else .write ⟨d.ns, d.key⟩ 0 (-1)) ∨
    (∀ d, ¬AtVersion mod member lock r.ns r.id r.version d) ∧
      deleteOutcome mod now member lock r = .deleteMissing r := by
  unfold deleteOutcome
  cases hs : stored mod member lock r.ns r.id r.version with
  | none => exact .inr ⟨stored_eq_none.mp hs, rfl⟩
  | some g =>
    obtain ⟨d, hd, rfl⟩ := stored_eq_some.mp hs
    exact .inl ⟨d, hd, rfl⟩

def AtLock (lock : SetName → Lock) (r : DocID) : Prop :=
  (lock ⟨r.ns, r.key⟩).stored = true ∧ (lock ⟨r.ns, r.key⟩).version = r.version

theorem atLock_iff (r : DocID) :
    (!(lock ⟨r.ns, r.key⟩).stored || (lock ⟨r.ns, r.key⟩).version != r.version) = false ↔
      AtLock lock r := by
  simp [AtLock]

theorem arriveOutcome_cases (a : DocArrival) :
    (AtLock lock a.docID ∧ arriveOutcome mod now lock a =
      if (lock ⟨a.docID.ns, a.docID.key⟩).heldByOther mod.claimant now then
        .heldByOther ⟨a.docID.ns, a.docID.key⟩ none
      else .write ⟨a.docID.ns, a.docID.key⟩ a.byDur 0) ∨
    ¬AtLock lock a.docID ∧ arriveOutcome mod now lock a =
      .arriveMissing (ref ⟨a.docID.ns, a.docID.key⟩ (lock ⟨a.docID.ns, a.docID.key⟩)) := by
  rw [← atLock_iff]
  unfold arriveOutcome
  dsimp only
  cases (!(lock ⟨a.docID.ns, a.docID.key⟩).stored ||
      (lock ⟨a.docID.ns, a.docID.key⟩).version != a.docID.version)
  · exact .inl ⟨rfl, rfl⟩
  · exact .inr ⟨nofun, rfl⟩

/-- What a dependency finds. -/
def DependHolds (mod : Modification) (member : String → String → Option Doc)
    (lock : SetName → Lock) (r : DocID) : Prop :=
  if r.isSetRef then AtLock lock r else ∃ d, AtVersion mod member lock r.ns r.id r.version d

theorem dependOutcome_cases (r : DocID) :
    (DependHolds mod member lock r ∧ dependOutcome mod member lock r = .holds) ∨
    ¬DependHolds mod member lock r ∧ dependOutcome mod member lock r = .dependMissing r := by
  unfold dependOutcome DependHolds
  split_ifs with h1 h2 h3
  · refine .inr ⟨fun h => ?_, rfl⟩
    rw [(atLock_iff r).mpr h] at h2
    cases h2
  · exact .inl ⟨(atLock_iff r).mp (by simpa using h2), rfl⟩
  · rw [Option.isNone_iff_eq_none, stored_eq_none] at h3
    exact .inr ⟨fun ⟨d, hd⟩ => h3 d hd, rfl⟩
  · rw [Option.isNone_iff_eq_none, stored_eq_none, not_forall] at h3
    obtain ⟨d, hd⟩ := h3
    exact .inl ⟨⟨d, not_not.mp hd⟩, rfl⟩

theorem insertOutcome_passes {ins : DocData}
    (h : (insertOutcome mod now member occupant lock ins).passes = true) :
    (ins.id ≠ "" → member ins.ns ins.id = none) ∧
      ((lock ⟨ins.ns, ins.key⟩).numDocs > 0 →
        occupant ⟨ins.ns, ins.key⟩ ins.secondaryKey = none) ∧
      (lock ⟨ins.ns, ins.key⟩).heldByOther mod.claimant now = false ∧
      insertOutcome mod now member occupant lock ins = .write ⟨ins.ns, ins.key⟩ ins.byDur 1 := by
  unfold insertOutcome at h ⊢
  dsimp only at h ⊢
  split_ifs at h ⊢ with h1 h2 h3
  · cases h
  · cases ho : occupant ⟨ins.ns, ins.key⟩ ins.secondaryKey with
    | some d => simp [ho, Outcome.passes] at h
    | none => simp [ho, Outcome.passes] at h
  · cases ho : occupant ⟨ins.ns, ins.key⟩ ins.secondaryKey with
    | some d => simp [ho, Outcome.passes] at h
    | none =>
      refine ⟨fun hid => ?_, fun _ => rfl, by simpa using h3, rfl⟩
      simpa [hid] using h1
  · simp [Outcome.passes] at h
  · rename_i h3
    refine ⟨fun hid => ?_, fun hpos => absurd hpos h2, by simpa using h3, rfl⟩
    simpa [hid] using h1

/-- An outcome that is a write unless another claimant holds the set. -/
theorem Outcome.passes_unheld {o fails writes : Outcome} {held : Bool}
    (he : o = if held then fails else writes) (hf : fails.passes = false) (h : o.passes = true) :
    held = false ∧ o = writes := by
  cases held
  · exact ⟨rfl, he⟩
  · cases (hf.symm.trans (congrArg passes he).symm).trans h

theorem changeOutcome_passes {c : DocChange}
    (h : (changeOutcome mod now member lock c).passes = true) :
    ∃ d, AtVersion mod member lock c.doc.ns c.doc.id c.doc.version d ∧
      (lock ⟨d.ns, d.key⟩).heldByOther mod.claimant now = false ∧
      changeOutcome mod now member lock c = .write ⟨d.ns, d.key⟩ c.byDur 0 := by
  rcases @changeOutcome_cases mod now member lock c with
    ⟨d, hd, he⟩ | ⟨-, he⟩
  · exact ⟨d, hd, Outcome.passes_unheld he rfl h⟩
  · rw [he] at h
    cases h

theorem deleteOutcome_passes {r : DocID}
    (h : (deleteOutcome mod now member lock r).passes = true) :
    ∃ d, AtVersion mod member lock r.ns r.id r.version d ∧
      (lock ⟨d.ns, d.key⟩).heldByOther mod.claimant now = false ∧
      deleteOutcome mod now member lock r = .write ⟨d.ns, d.key⟩ 0 (-1) := by
  rcases @deleteOutcome_cases mod now member lock r with
    ⟨d, hd, he⟩ | ⟨-, he⟩
  · exact ⟨d, hd, Outcome.passes_unheld he rfl h⟩
  · rw [he] at h
    cases h

theorem arriveOutcome_passes {a : DocArrival} (h : (arriveOutcome mod now lock a).passes = true) :
    AtLock lock a.docID ∧
      (lock ⟨a.docID.ns, a.docID.key⟩).heldByOther mod.claimant now = false ∧
      arriveOutcome mod now lock a = .write ⟨a.docID.ns, a.docID.key⟩ a.byDur 0 := by
  rcases @arriveOutcome_cases mod now lock a with ⟨hl, he⟩ | ⟨-, he⟩
  · exact ⟨hl, Outcome.passes_unheld he rfl h⟩
  · rw [he] at h
    cases h

theorem dependOutcome_addedTo (r : DocID) (g : SetName) :
    (dependOutcome mod member lock r).addedTo g = 0 := by
  unfold dependOutcome
  split_ifs <;> rfl

end Passing
end Docset
end EntroQ
