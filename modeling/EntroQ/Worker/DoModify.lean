import EntroQ.Worker.RunOne

/-! # Results that the worker commits

A `DoModify` handler returns what it wants changed, and the worker commits it once renewal has
stopped: at the versions renewal left, with the doc sets it claimed released, and with the claims
of a task it changes reset. -/

namespace EntroQ.Worker

/-- What a `DoModify` function returns. The hooks are given by what they return. -/
structure Result where
  mods : List ModifyArg
  onSuccess : Option (Option Err) := none
  onDependency : Option (DependencyError → Option Err) := none
  stop : Bool := false

def docVersion (sets : List DocSet) (ns id : String) : Option Int32 :=
  ((sets.flatMap DocSet.docs).reverse.find? fun d => d.ns == ns && d.id == id).map Doc.version

def setVersion (sets : List DocSet) (ns key : String) : Option Int32 :=
  (sets.reverse.find? fun g => g.ns == ns && g.key == key).map DocSet.version

def fixVersions (m : Modification) (task : Task) (sets : List DocSet) : Modification :=
  let at_ (t : TaskID) : TaskID := if t.id = task.id then { t with version := task.version } else t
  let docAt (d : DocID) : DocID := { d with version := (docVersion sets d.ns d.id).getD d.version }
  { m with
    changes := m.changes.map fun c =>
      if c.task.id = task.id then { c with task := { c.task with version := task.version } } else c
    depends := m.depends.map at_
    deletes := m.deletes.map at_
    arrives := m.arrives.map fun a => { a with taskID := at_ a.taskID }
    docChanges := m.docChanges.map fun c =>
      { c with doc :=
        { c.doc with version := (docVersion sets c.doc.ns c.doc.id).getD c.doc.version } }
    docDeletes := m.docDeletes.map docAt
    docDepends := m.docDepends.map docAt
    docArrives := m.docArrives.map fun a =>
      { a with docID :=
        { a.docID with version := (setVersion sets a.docID.ns a.docID.key).getD a.docID.version } } }

/-- The modification says itself when the set is ready again. -/
def decided (m : Modification) (g : DocSet) : Bool :=
  m.docArrives.any (fun a => a.docID.ns == g.ns && a.docID.key == g.key) ||
    m.docInserts.any (fun d => decide (0 < d.byDur) && d.ns == g.ns && d.key == g.key) ||
    m.docChanges.any (fun c => decide (0 < c.byDur) && c.doc.ns == g.ns && c.doc.key == g.key)

/-- Add a release of every set that the modification does not decide about. -/
def releasing (m : Modification) (sets : List DocSet) : Modification :=
  if sets.isEmpty then m else arriving 0 [] (sets.filter fun g => !decided m g) m

def rewritesTask (m : Modification) (id : String) : Bool :=
  m.changes.any (fun c => c.task.id == id) || m.deletes.any (fun t => t.id == id)

def onlyArrives (m : Modification) (id : String) : Bool :=
  m.arrives.any (fun a => a.taskID.id == id) && !rewritesTask m id

section Finish
variable (initialTask : Task) (result : Option Result) (final : Held)

def resultModification (mods : List ModifyArg) : Modification :=
  let m := fixVersions (newModification "" mods) final.task final.sets
  -- a task changed on purpose is no poison pill
  (m.changes.filter fun c => c.task.id == final.task.id).foldl
    (fun m c => m.resetClaimsOf c.task.id) m

def finishModification : Modification :=
  let m := match result with
    | some r => if r.mods.isEmpty then newModification "" [] else resultModification final r.mods
    | none => newModification "" []
  releasing m final.sets

/-- A commit that did not apply. -/
def commitFailed (e : Err) : Err :=
  match e.asDependency with
  | some d =>
    match result.bind Result.onDependency with
    | some fn => (fn d).getD (e.wrap "worker doModify finish dependency")
    | none => e.wrap "worker doModify finish dependency"
  | none =>
    if e.isCanceled || e.isTimeout then e.wrap "canceled doModify finish"
    else e.wrap "worker doModify finish"

/-- What `Finish` does and how it ends. -/
structure Finished where
  modification : Option Modification := none
  succeeded : Bool := false
  released : Bool := false
  err : Option Err := none

def afterCommit (r : Result) : Option Err :=
  match r.onSuccess.join.filter fun e => e.asFatal.isSome with
  | some fatal => some fatal
  | none =>
    if r.stop then some (errShutdown.wrap "stopping after a result that asked to be the last")
    else none

/-- `Finish` of a `DoModify` handler, with the answer to its commit. -/
def doModifyFinish (claimant : String) (modify : Modification → Option Err) : Finished :=
  if (result.any fun r => !r.mods.isEmpty) ∧ final.task.version < initialTask.version then
    let expected := "task updated inside worker body, expected version <= "
    { err := some
        { msg := expected ++ toString final.task.version.toInt ++ ", got " ++
            toString initialTask.version.toInt } }
  else
    let m := finishModification result final
    let sent := newModification claimant [withModification m]
    if m.isEmpty then { succeeded := true, err := result.bind afterCommit }
    else
      match modify sent with
      | some e => { modification := some sent, err := some (commitFailed result e) }
      | none =>
        { modification := some sent, succeeded := true
          released := onlyArrives m final.task.id, err := result.bind afterCommit }

end Finish

/-! ## The commit of a result -/

theorem releasing_tasks (m : Modification) (sets : List DocSet) :
    (releasing m sets).inserts = m.inserts ∧ (releasing m sets).deletes = m.deletes := by
  unfold releasing
  split_ifs <;> exact ⟨rfl, rfl⟩

theorem resultModification_tasks (final : Held) (mods : List ModifyArg) :
    (resultModification final mods).inserts = (newModification "" mods).inserts ∧
      (resultModification final mods).deletes = (newModification "" mods).deletes.map fun t =>
        if t.id = final.task.id then { t with version := final.task.version } else t := by
  have hreset : ∀ (cs : List TaskChange) (m : Modification),
      (cs.foldl (fun m c => m.resetClaimsOf c.task.id) m).inserts = m.inserts ∧
        (cs.foldl (fun m c => m.resetClaimsOf c.task.id) m).deletes = m.deletes := by
    intro cs
    induction cs with
    | nil => exact fun m => ⟨rfl, rfl⟩
    | cons c cs ih => exact fun m => ih (m.resetClaimsOf c.task.id)
  exact hreset _ _

theorem finishModification_tasks {r : Result} (final : Held) (hne : r.mods.isEmpty = false) :
    (finishModification (some r) final).inserts = (newModification "" r.mods).inserts ∧
      (finishModification (some r) final).deletes = (newModification "" r.mods).deletes.map fun t =>
        if t.id = final.task.id then { t with version := final.task.version } else t := by
  obtain ⟨hi, hd⟩ := releasing_tasks (resultModification final r.mods) final.sets
  obtain ⟨hi', hd'⟩ := resultModification_tasks final r.mods
  simp only [finishModification, hne, Bool.false_eq_true, if_false]
  exact ⟨hi.trans hi', hd.trans hd'⟩

theorem doModifyFinish_deletes {initialTask : Task} {r : Result} {final : Held}
    (hver : ¬final.task.version < initialTask.version) (hne : r.mods.isEmpty = false)
    (hdel : (newModification "" r.mods).deletes ≠ []) (claimant : String)
    (modify : Modification → Option Err) :
    let m := finishModification (some r) final
    let sent := newModification claimant [withModification m]
    doModifyFinish initialTask (some r) final claimant modify =
      match modify sent with
      | some e => { modification := some sent, err := some (commitFailed (some r) e) }
      | none =>
        { modification := some sent, succeeded := true
          released := onlyArrives m final.task.id, err := afterCommit r } := by
  have hm : (finishModification (some r) final).isEmpty = false := by
    have hd := (finishModification_tasks final hne).2
    have hmap : (finishModification (some r) final).deletes ≠ [] := by
      rw [hd]
      simpa using hdel
    simp [Modification.isEmpty, List.isEmpty_eq_false_iff.mpr hmap]
  intro m sent
  unfold doModifyFinish
  rw [if_neg fun h => hver h.2]
  simp only [hm, Bool.false_eq_true, if_false]
  rfl

end EntroQ.Worker
