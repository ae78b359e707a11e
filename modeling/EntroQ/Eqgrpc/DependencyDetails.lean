import EntroQ.Eqgrpc.ModifyRequest
import EntroQ.Eqmem.Exact

/-! # Dependency errors over the wire

The service sends what a modification failed on as a list of details, and the client reads them
into an error of its own. An arrival that failed travels as a change; a set is told from a doc by
its key, and a task's arrival from its change by the modification. -/

namespace EntroQ

namespace Pb

inductive ActionType
  | claim | delete | change | depend | detail | insert | read
  | other (n : Int32)
  deriving DecidableEq

structure ModifyDep where
  type : ActionType
  id : Option TaskID := none
  msg : String := ""
  docID : Option DocID := none
  deriving DecidableEq

/-- The key a reference names a set by, or nothing. -/
def DocID.getKey (d : DocID) : String :=
  match d.ref with
  | some (.key key) => key
  | _ => ""

end Pb

namespace Pbconv

section Details
variable (e : DependencyError)

/-- A failed arrival of a task is a change on the wire. -/
def taskMap : Pb.ActionType → List TaskID
  | .insert => e.inserts
  | .depend => e.depends
  | .delete => e.deletes
  | .change => e.changes ++ e.arrives
  | .claim => e.claims
  | _ => []

def docMap : Pb.ActionType → List DocID
  | .insert => e.docInserts
  | .delete => e.docDeletes
  | .depend => e.docDepends
  | .change => e.docChanges ++ e.docArrives
  | .claim => e.docClaims
  | _ => []

def mapKeys : List Pb.ActionType := [.insert, .depend, .delete, .change, .claim]

def taskDep (type : Pb.ActionType) (tid : TaskID) : Pb.ModifyDep where
  type := type
  id := some (taskIDToProto tid)

def docDep (type : Pb.ActionType) (did : DocID) : Pb.ModifyDep where
  type := type
  docID := some (docRefToProto did)

def dependencyErrorDetails (printed : Message → String) (taskOrder docOrder : List Pb.ActionType) :
    List Pb.ModifyDep :=
  { type := .detail, msg := printed e.message } ::
    (taskOrder.flatMap (fun type => (taskMap e type).map (taskDep type)) ++
      docOrder.flatMap (fun type => (docMap e type).map (docDep type)))

end Details

def taskIDFromProto (tid : Pb.TaskID) : TaskID where
  id := tid.id
  version := tid.version
  queue := tid.queue

end Pbconv

namespace Eqgrpc
open Pbconv

def codeNotFound : UInt32 := 5
def codeAborted : UInt32 := 10

/-- A detail of a status, which may be a message of any kind. -/
inductive StatusDetail
  | modifyDep (d : Pb.ModifyDep)
  | other (type : String)

/-- A status as it arrives: its code, the text of its error, and its details. -/
structure Status where
  code : UInt32
  text : String
  details : List StatusDetail

/-- Why a status is not read as a dependency error. -/
inductive StatusError
  | unexpectedCode (code : UInt32)
  | unexpectedDetail (type : String)
  | unknownType (format : String) (detail : Pb.ModifyDep)
  | panic (text : String)
  deriving DecidableEq

/-- A set failed as a whole. -/
def setDetail (e : DependencyError) (detail : Pb.ModifyDep) (ref : DocID) :
    Except StatusError DependencyError :=
  match detail.type with
  | .claim => .ok { e with docClaims := e.docClaims ++ [ref] }
  | .change => .ok { e with docArrives := e.docArrives ++ [ref] }
  | .depend => .ok { e with docDepends := e.docDepends ++ [ref] }
  | _ => .error (.unknownType "grpc doc set dependency unknown type %v in detail %v" detail)

def docDetail (e : DependencyError) (detail : Pb.ModifyDep) (did : DocID) :
    Except StatusError DependencyError :=
  match detail.type with
  | .insert => .ok { e with docInserts := e.docInserts ++ [did] }
  | .claim => .ok { e with docClaims := e.docClaims ++ [did] }
  | .delete => .ok { e with docDeletes := e.docDeletes ++ [did] }
  | .change => .ok { e with docChanges := e.docChanges ++ [did] }
  | .depend => .ok { e with docDepends := e.docDepends ++ [did] }
  | _ => .error (.unknownType "grpc doc dependency unknown type %v in detail %v" detail)

def taskDetail (e : DependencyError) (detail : Pb.ModifyDep) (tid : TaskID) :
    Except StatusError DependencyError :=
  match detail.type with
  | .claim => .ok { e with claims := e.claims ++ [tid] }
  | .delete => .ok { e with deletes := e.deletes ++ [tid] }
  | .change => .ok { e with changes := e.changes ++ [tid] }
  | .depend => .ok { e with depends := e.depends ++ [tid] }
  | .insert => .ok { e with inserts := e.inserts ++ [tid] }
  | _ => .error (.unknownType "grpc dependency unknown type %v in detail %v" detail)

def withMsg (e : DependencyError) (msg : String) : DependencyError :=
  if msg = "" then e
  else { e with message := { e.message with format := e.message.format ++ ": " ++ msg } }

def readDep (e : DependencyError) (detail : Pb.ModifyDep) : Except StatusError DependencyError :=
  if detail.type = .detail then .ok (withMsg e detail.msg)
  else
    match detail.docID with
    | some d =>
      if d.getKey ≠ "" then setDetail e detail (newDocSetRef d.ns d.getKey d.version)
      else docDetail e detail { ns := d.ns, id := d.getID, version := d.version }
    | none =>
      match detail.id with
      | some tid => taskDetail e detail (taskIDFromProto tid)
      | none => .error (.panic "invalid memory address or nil pointer dereference")

def readDetail (e : DependencyError) : StatusDetail → Except StatusError DependencyError
  | .modifyDep detail => readDep e detail
  | .other type => .error (.unexpectedDetail type)

def depErrorFromStat (stat : Status) : Except StatusError DependencyError :=
  if stat.code ≠ codeNotFound ∧ stat.code ≠ codeAborted then .error (.unexpectedCode stat.code)
  else stat.details.foldlM readDetail { message := { format := stat.text } }

end Eqgrpc

/-! ## Reading what was written -/

inductive Failure
  | task (c : TaskClass) (r : TaskID)
  | doc (c : DocClass) (r : DocID)

namespace Failure

def taskIn (c : TaskClass) : Failure → Option TaskID
  | task c' r => if c' = c then some r else none
  | doc _ _ => none

def docIn (c : DocClass) : Failure → Option DocID
  | task _ _ => none
  | doc c' r => if c' = c then some r else none

end Failure

namespace DependencyError

def addTask (e : DependencyError) (r : TaskID) : TaskClass → DependencyError
  | .inserts => { e with inserts := e.inserts ++ [r] }
  | .depends => { e with depends := e.depends ++ [r] }
  | .deletes => { e with deletes := e.deletes ++ [r] }
  | .changes => { e with changes := e.changes ++ [r] }
  | .claims => { e with claims := e.claims ++ [r] }
  | .arrives => { e with arrives := e.arrives ++ [r] }

def addDoc (e : DependencyError) (r : DocID) : DocClass → DependencyError
  | .inserts => { e with docInserts := e.docInserts ++ [r] }
  | .depends => { e with docDepends := e.docDepends ++ [r] }
  | .deletes => { e with docDeletes := e.docDeletes ++ [r] }
  | .changes => { e with docChanges := e.docChanges ++ [r] }
  | .claims => { e with docClaims := e.docClaims ++ [r] }
  | .arrives => { e with docArrives := e.docArrives ++ [r] }

def add (e : DependencyError) : Failure → DependencyError
  | .task c r => e.addTask r c
  | .doc c r => e.addDoc r c

theorem add_tasks (e : DependencyError) (f : Failure) (c : TaskClass) :
    (e.add f).tasks c = e.tasks c ++ (f.taskIn c).toList := by
  cases f with
  | task c' r => cases c' <;> cases c <;> simp [add, addTask, tasks, Failure.taskIn]
  | doc c' r => cases c' <;> cases c <;> simp [add, addDoc, tasks, Failure.taskIn]

theorem add_docs (e : DependencyError) (f : Failure) (c : DocClass) :
    (e.add f).docs c = e.docs c ++ (f.docIn c).toList := by
  cases f with
  | task c' r => cases c' <;> cases c <;> simp [add, addTask, docs, Failure.docIn]
  | doc c' r => cases c' <;> cases c <;> simp [add, addDoc, docs, Failure.docIn]

theorem foldl_add_tasks (e : DependencyError) (fs : List Failure) (c : TaskClass) :
    (fs.foldl add e).tasks c = e.tasks c ++ fs.filterMap (Failure.taskIn c) := by
  induction fs generalizing e with
  | nil => simp
  | cons f fs ih =>
    rw [List.foldl_cons, ih, add_tasks, List.append_assoc, List.filterMap_cons]
    cases f.taskIn c <;> rfl

theorem foldl_add_docs (e : DependencyError) (fs : List Failure) (c : DocClass) :
    (fs.foldl add e).docs c = e.docs c ++ fs.filterMap (Failure.docIn c) := by
  induction fs generalizing e with
  | nil => simp
  | cons f fs ih =>
    rw [List.foldl_cons, ih, add_docs, List.append_assoc, List.filterMap_cons]
    cases f.docIn c <;> rfl

/-- What the references of a class look like, if the wire is to carry them: a doc's ID or a set's
key where either may fail, and only the one or the other elsewhere. -/
def Carried : DocClass → DocID → Prop
  | .inserts, r | .deletes, r | .changes, r => r.key = ""
  | .depends, r | .claims, r => r.id = "" ∨ r.key = ""
  | .arrives, r => r.isSetRef = true

end DependencyError

namespace Pbconv

def taskClass : Pb.ActionType → TaskClass
  | .insert => .inserts
  | .depend => .depends
  | .delete => .deletes
  | .claim => .claims
  | _ => .changes

def docClass (set : Bool) : Pb.ActionType → DocClass
  | .insert => .inserts
  | .depend => .depends
  | .delete => .deletes
  | .claim => .claims
  | _ => if set then .arrives else .changes

end Pbconv

namespace Eqgrpc
open Pbconv

theorem readDep_taskDep (e : DependencyError) {type : Pb.ActionType} (h : type ∈ mapKeys)
    (r : TaskID) : readDep e (taskDep type r) = .ok (e.add (.task (taskClass type) r)) := by
  simp only [mapKeys, List.mem_cons, List.not_mem_nil, or_false] at h
  rcases h with rfl | rfl | rfl | rfl | rfl <;> rfl

theorem readDep_setRef (e : DependencyError) {type : Pb.ActionType} (h : type ≠ .detail) {r : DocID}
    (hr : r.isSetRef = true) : readDep e (docDep type r) = setDetail e (docDep type r) r := by
  have href : docRefToProto r = docSetIDToProto r.ns r.key r.version := by
    rw [docRefToProto, if_pos hr]
  obtain ⟨ns, id, key, version⟩ := r
  obtain ⟨rfl, hkey⟩ : id = "" ∧ key ≠ "" := by simpa [DocID.isSetRef] using hr
  simp [readDep, docDep, href, docSetIDToProto, Pb.DocID.getKey, newDocSetRef, h, hkey]

theorem readDep_docRef (e : DependencyError) {type : Pb.ActionType} (h : type ≠ .detail) {r : DocID}
    (hr : r.isSetRef = false) (hkey : r.key = "") :
    readDep e (docDep type r) = docDetail e (docDep type r) r := by
  have href : docRefToProto r = docIDToProto r.ns r.id r.version := by
    simp [docRefToProto, hr]
  obtain ⟨ns, id, key, version⟩ := r
  obtain rfl : key = "" := hkey
  simp [readDep, docDep, href, docIDToProto, Pb.DocID.getKey, Pb.DocID.getID, h]

theorem readDep_docDep (e : DependencyError) {type : Pb.ActionType} (h : type ∈ mapKeys)
    {r : DocID} (hr : DependencyError.Carried (docClass r.isSetRef type) r) :
    readDep e (docDep type r) = .ok (e.add (.doc (docClass r.isSetRef type) r)) := by
  have hdetail : type ≠ .detail := by
    rintro rfl
    simp [mapKeys] at h
  simp only [mapKeys, List.mem_cons, List.not_mem_nil, or_false] at h
  cases hs : r.isSetRef with
  | true =>
    have hkey : r.key ≠ "" := by simp_all [DocID.isSetRef]
    rw [hs] at hr
    rw [readDep_setRef e hdetail hs]
    rcases h with rfl | rfl | rfl | rfl | rfl
    case inl | inr.inr.inl => exact absurd hr hkey
    all_goals rfl
  | false =>
    have hnot : r.id = "" → r.key = "" := by simpa [DocID.isSetRef] using hs
    have hkey : r.key = "" := by
      rw [hs] at hr
      rcases h with rfl | rfl | rfl | rfl | rfl
      case inr.inl | inr.inr.inr.inr => exact Or.elim hr hnot id
      all_goals exact hr
    rw [readDep_docRef e hdetail hs hkey]
    rcases h with rfl | rfl | rfl | rfl | rfl <;> rfl

def failuresOf (e : DependencyError) (taskOrder docOrder : List Pb.ActionType) : List Failure :=
  taskOrder.flatMap (fun type => (taskMap e type).map (.task (taskClass type))) ++
    docOrder.flatMap (fun type => (docMap e type).map fun r => .doc (docClass r.isSetRef type) r)

theorem foldlM_readDetail {α : Type} {dep : α → Pb.ModifyDep} {failure : α → Failure} {l : List α}
    (h : ∀ x ∈ l, ∀ e, readDep e (dep x) = .ok (e.add (failure x))) (e : DependencyError) :
    ((l.map dep).map StatusDetail.modifyDep).foldlM readDetail e =
      .ok ((l.map failure).foldl DependencyError.add e) := by
  induction l generalizing e with
  | nil => rfl
  | cons x l ih =>
    obtain ⟨hx, h⟩ := List.forall_mem_cons.mp h
    rw [List.map_cons, List.map_cons, List.foldlM_cons, readDetail, hx]
    exact ih h _

theorem foldlM_flatMap {α : Type} (order : List Pb.ActionType) (refs : Pb.ActionType → List α)
    (dep : Pb.ActionType → α → Pb.ModifyDep) (failure : Pb.ActionType → α → Failure)
    (h : ∀ type ∈ order, ∀ x ∈ refs type, ∀ e, readDep e (dep type x) = .ok (e.add (failure type x)))
    (e : DependencyError) :
    ((order.flatMap fun type => (refs type).map (dep type)).map StatusDetail.modifyDep).foldlM
        readDetail e =
      .ok ((order.flatMap fun type => (refs type).map (failure type)).foldl DependencyError.add e)
    := by
  induction order generalizing e with
  | nil => rfl
  | cons type order ih =>
    obtain ⟨htype, h⟩ := List.forall_mem_cons.mp h
    rw [List.flatMap_cons, List.map_append, List.foldlM_append, foldlM_readDetail htype,
      List.flatMap_cons, List.foldl_append]
    exact ih h _

/-- Of a list without repetitions, all but one member of which gives nothing. -/
theorem flatMap_eq_of_mem {α β : Type} {l : List α} (hl : l.Nodup) {a : α} (ha : a ∈ l)
    {f : α → List β} (hf : ∀ b ∈ l, b ≠ a → f b = []) : l.flatMap f = f a := by
  induction l with
  | nil => cases ha
  | cons b l ih =>
    obtain ⟨hb, hl⟩ := List.nodup_cons.mp hl
    obtain ⟨hfb, hf⟩ := List.forall_mem_cons.mp hf
    rw [List.flatMap_cons]
    by_cases hab : b = a
    · subst hab
      have hrest : l.flatMap f = [] :=
        List.flatMap_eq_nil_iff.mpr fun x hx => hf x hx fun h => hb (h ▸ hx)
      rw [hrest, List.append_nil]
    · rw [hfb hab, List.nil_append]
      exact ih hl ((List.mem_cons.mp ha).resolve_left fun h => hab h.symm) hf

theorem withMsg_tasks (e : DependencyError) (msg : String) (c : TaskClass) :
    (withMsg e msg).tasks c = e.tasks c := by
  unfold withMsg
  split_ifs <;> cases c <;> rfl

theorem withMsg_docs (e : DependencyError) (msg : String) (c : DocClass) :
    (withMsg e msg).docs c = e.docs c := by
  unfold withMsg
  split_ifs <;> cases c <;> rfl

theorem mapKeys_nodup : mapKeys.Nodup := by decide

section Sent
variable (e : DependencyError) {taskOrder docOrder : List Pb.ActionType}
  (ht : taskOrder.Perm mapKeys) (hd : docOrder.Perm mapKeys)

def sentTasks : TaskClass → List TaskID
  | .changes => e.changes ++ e.arrives
  | .arrives => []
  | c => e.tasks c

theorem filterMap_task (c c' : TaskClass) (l : List TaskID) :
    (l.map (Failure.task c)).filterMap (Failure.taskIn c') = if c = c' then l else [] := by
  split_ifs with h <;> simp [List.filterMap_map, Function.comp_def, Failure.taskIn, h]

include ht in
theorem failuresOf_tasks (c : TaskClass) :
    (failuresOf e taskOrder docOrder).filterMap (Failure.taskIn c) = sentTasks e c := by
  have hdocs : (docOrder.flatMap (fun type =>
      (docMap e type).map fun r => Failure.doc (docClass r.isSetRef type) r)).filterMap
        (Failure.taskIn c) = [] := by
    refine List.filterMap_eq_nil_iff.mpr fun f hf => ?_
    obtain ⟨type, -, hf⟩ := List.mem_flatMap.mp hf
    obtain ⟨r, -, rfl⟩ := List.mem_map.mp hf
    rfl
  rw [failuresOf, List.filterMap_append, hdocs, List.append_nil, List.filterMap_flatMap]
  simp only [filterMap_task]
  have hinj : ∀ a ∈ mapKeys, ∀ b ∈ mapKeys, b ≠ a → taskClass b ≠ taskClass a := by decide
  have hone : ∀ a ∈ mapKeys, taskClass a = c →
      (taskOrder.flatMap fun type => if taskClass type = c then taskMap e type else []) =
        taskMap e a := by
    rintro a ha rfl
    rw [flatMap_eq_of_mem (ht.nodup_iff.mpr mapKeys_nodup) (ht.mem_iff.mpr ha)]
    · rw [if_pos rfl]
    · intro b hb hne
      rw [if_neg (hinj a ha b (ht.mem_iff.mp hb) hne)]
  cases c with
  | inserts => exact hone .insert (by decide) rfl
  | depends => exact hone .depend (by decide) rfl
  | deletes => exact hone .delete (by decide) rfl
  | changes => exact hone .change (by decide) rfl
  | claims => exact hone .claim (by decide) rfl
  | arrives =>
    have hno : ∀ a ∈ mapKeys, taskClass a ≠ .arrives := by decide
    refine List.flatMap_eq_nil_iff.mpr fun a ha => ?_
    rw [if_neg (hno a (ht.mem_iff.mp ha))]

def docAction : DocClass → Pb.ActionType
  | .inserts => .insert
  | .depends => .depend
  | .deletes => .delete
  | .claims => .claim
  | .changes | .arrives => .change

theorem docAction_mem (c : DocClass) : docAction c ∈ mapKeys := by
  cases c <;> decide

theorem docClass_ne (c : DocClass) : ∀ set, ∀ a ∈ mapKeys, a ≠ docAction c → docClass set a ≠ c := by
  cases c <;> decide

theorem filterMap_doc (type : Pb.ActionType) (c : DocClass) (l : List DocID) :
    (l.map fun r => Failure.doc (docClass r.isSetRef type) r).filterMap (Failure.docIn c) =
      l.filter fun r => decide (docClass r.isSetRef type = c) := by
  induction l with
  | nil => rfl
  | cons r l ih =>
    rw [List.map_cons, List.filterMap_cons, List.filter_cons, ih]
    by_cases h : docClass r.isSetRef type = c <;> simp [Failure.docIn, h]

variable (hcarried : ∀ c, ∀ r ∈ e.docs c, DependencyError.Carried c r)
include hcarried

theorem filter_docMap (c : DocClass) :
    ((docMap e (docAction c)).filter fun r => decide (docClass r.isSetRef (docAction c) = c)) =
      e.docs c := by
  have hdocs : ∀ r ∈ e.docChanges, r.isSetRef = false := by
    intro r hr
    have hkey : r.key = "" := hcarried .changes r hr
    simp [DocID.isSetRef, hkey]
  have hsets : ∀ r ∈ e.docArrives, r.isSetRef = true := hcarried .arrives
  cases c with
  | inserts | depends | deletes | claims =>
    exact List.filter_eq_self.mpr fun r _ => decide_eq_true rfl
  | changes =>
    change (e.docChanges ++ e.docArrives).filter _ = e.docChanges
    rw [List.filter_append, List.filter_eq_self.mpr, List.filter_eq_nil_iff.mpr, List.append_nil]
    · intro r hr
      simp [docAction, docClass, hsets r hr]
    · intro r hr
      simp [docAction, docClass, hdocs r hr]
  | arrives =>
    change (e.docChanges ++ e.docArrives).filter _ = e.docArrives
    rw [List.filter_append, List.filter_eq_nil_iff.mpr, List.filter_eq_self.mpr, List.nil_append]
    · intro r hr
      simp [docAction, docClass, hsets r hr]
    · intro r hr
      simp [docAction, docClass, hdocs r hr]

include hd in
theorem failuresOf_docs (c : DocClass) :
    (failuresOf e taskOrder docOrder).filterMap (Failure.docIn c) = e.docs c := by
  have htasks : (taskOrder.flatMap (fun type =>
      (taskMap e type).map (Failure.task (taskClass type)))).filterMap (Failure.docIn c) = [] := by
    refine List.filterMap_eq_nil_iff.mpr fun f hf => ?_
    obtain ⟨type, -, hf⟩ := List.mem_flatMap.mp hf
    obtain ⟨r, -, rfl⟩ := List.mem_map.mp hf
    rfl
  rw [failuresOf, List.filterMap_append, htasks, List.nil_append, List.filterMap_flatMap]
  simp only [filterMap_doc]
  rw [flatMap_eq_of_mem (hd.nodup_iff.mpr mapKeys_nodup)
    (hd.mem_iff.mpr (docAction_mem c)), filter_docMap e hcarried]
  intro b hb hne
  refine List.filter_eq_nil_iff.mpr fun r _ => ?_
  rw [decide_eq_true_eq]
  exact docClass_ne c r.isSetRef b (hd.mem_iff.mp hb) hne

theorem carried_docMap {type : Pb.ActionType} (htype : type ∈ mapKeys) {r : DocID}
    (hr : r ∈ docMap e type) : DependencyError.Carried (docClass r.isSetRef type) r := by
  simp only [mapKeys, List.mem_cons, List.not_mem_nil, or_false] at htype
  rcases htype with rfl | rfl | rfl | rfl | rfl
  · exact hcarried .inserts r hr
  · exact hcarried .depends r hr
  · exact hcarried .deletes r hr
  · rcases List.mem_append.mp hr with hr | hr
    · have hkey : r.key = "" := hcarried .changes r hr
      have hset : r.isSetRef = false := by simp [DocID.isSetRef, hkey]
      rw [hset]
      exact hkey
    · have hset : r.isSetRef = true := hcarried .arrives r hr
      rw [hset]
      exact hset
  · exact hcarried .claims r hr

include ht hd in
/-- The error that is read has the failures that were sent, in the same order. -/
theorem depErrorFromStat_details (printed : Message → String) {code : UInt32}
    (hcode : code = codeNotFound ∨ code = codeAborted) (text : String) :
    ∃ d, depErrorFromStat ⟨code, text,
        (dependencyErrorDetails e printed taskOrder docOrder).map .modifyDep⟩ = .ok d ∧
      (∀ c, d.tasks c = sentTasks e c) ∧ ∀ c, d.docs c = e.docs c := by
  have hc : ¬(code ≠ codeNotFound ∧ code ≠ codeAborted) := by
    rcases hcode with rfl | rfl <;> decide
  have htasks := foldlM_flatMap taskOrder (taskMap e) taskDep (fun type => .task (taskClass type))
    fun type htype r _ e' => readDep_taskDep e' (ht.mem_iff.mp htype) r
  have hdocs := foldlM_flatMap docOrder (docMap e) docDep
    (fun type r => .doc (docClass r.isSetRef type) r)
    fun type htype r hr e' => readDep_docDep e' (hd.mem_iff.mp htype)
      (carried_docMap e hcarried (hd.mem_iff.mp htype) hr)
  refine ⟨(failuresOf e taskOrder docOrder).foldl DependencyError.add
    (withMsg { message := { format := text } } (printed e.message)), ?_, ?_, ?_⟩
  · rw [depErrorFromStat, if_neg hc, dependencyErrorDetails, List.map_cons, List.map_append,
      List.foldlM_cons, failuresOf, List.foldl_append]
    change List.foldlM readDetail (withMsg { message := { format := text } } (printed e.message)) _ = _
    rw [List.foldlM_append, htasks]
    exact hdocs _
  · intro c
    rw [DependencyError.foldl_add_tasks, failuresOf_tasks e ht, withMsg_tasks]
    cases c <;> rfl
  · intro c
    rw [DependencyError.foldl_add_docs, failuresOf_docs e hd hcarried, withMsg_docs]
    cases c <;> rfl

end Sent

end Eqgrpc

namespace DependencyError

theorem nameArrivals_docs (e : DependencyError) (mod : Modification) (c : DocClass) :
    (e.nameArrivals mod).docs c = e.docs c := by
  unfold nameArrivals
  split_ifs <;> cases c <;> rfl

def arriving (mod : Modification) (r : TaskID) : Bool :=
  mod.arrives.any fun a => a.taskID.id == r.id

theorem nameArrivals_tasks (e : DependencyError) (mod : Modification) (c : TaskClass) :
    (e.nameArrivals mod).tasks c =
      match c with
      | .changes => e.changes.filter fun r => !arriving mod r
      | .arrives => e.arrives ++ e.changes.filter (arriving mod)
      | c => e.tasks c := by
  unfold nameArrivals
  split_ifs with h
  · rw [List.isEmpty_iff] at h
    cases c <;> simp [tasks, arriving, h]
  · cases c <;> rfl

/-- Naming the arrivals undoes what the wire does to them. -/
theorem nameArrivals_sent {d e x : DependencyError} {mod : Modification} (he : e.arrives = [])
    (hx : x = e ∨ x = e.nameArrivals mod) (hd : ∀ c, d.tasks c = Eqgrpc.sentTasks x c)
    (c : TaskClass) : (d.nameArrivals mod).tasks c = (e.nameArrivals mod).tasks c := by
  have hchanges : d.changes = x.changes ++ x.arrives := hd .changes
  have harrives : d.arrives = [] := hd .arrives
  have hsame : d.changes.filter (fun r => !arriving mod r) =
        e.changes.filter (fun r => !arriving mod r) ∧
      d.changes.filter (arriving mod) = e.changes.filter (arriving mod) := by
    rcases hx with rfl | rfl
    · rw [hchanges, he, List.append_nil]
      exact ⟨rfl, rfl⟩
    · have h1 : (e.nameArrivals mod).changes = _ := e.nameArrivals_tasks mod .changes
      have h2 : (e.nameArrivals mod).arrives = _ := e.nameArrivals_tasks mod .arrives
      rw [hchanges, h1, h2, he]
      simp [List.filter_filter]
  have hother : c ≠ .changes → c ≠ .arrives → d.tasks c = e.tasks c := by
    intro h1 h2
    rw [hd c]
    rcases hx with rfl | rfl
    · cases c <;> first | rfl | contradiction
    · have := e.nameArrivals_tasks mod c
      cases c <;> first | exact this | contradiction
  rw [nameArrivals_tasks, nameArrivals_tasks]
  cases c with
  | changes => exact hsame.1
  | arrives =>
    change d.arrives ++ _ = e.arrives ++ _
    rw [harrives, he, hsame.2]
  | inserts | depends | deletes | claims => exact hother nofun nofun

end DependencyError

/-! ## The errors of `Modify` -/

namespace Docset

/-- A failed operation is named so that the wire carries it. -/
def Outcome.Carried : Outcome → Prop
  | .collides r => DependencyError.Carried .inserts r
  | .changeMissing r => DependencyError.Carried .changes r
  | .deleteMissing r => DependencyError.Carried .deletes r
  | .dependMissing r => DependencyError.Carried .depends r
  | .arriveMissing r => DependencyError.Carried .arrives r
  | .heldByOther _ named => ∀ r, named = some r → r.key = ""
  | .write .. | .holds => True

variable (mod : Modification) (now : Time) (member : String → String → Option Doc)
  (occupant : SetName → String → Option Doc) (lock : SetName → Lock)

theorem insertOutcome_carried (d : DocData) :
    (insertOutcome mod now member occupant lock d).Carried := by
  dsimp only [insertOutcome]
  generalize (if (lock ⟨d.ns, d.key⟩).numDocs > 0 then occupant ⟨d.ns, d.key⟩ d.secondaryKey
    else none) = place
  cases place with
  | some o => split_ifs <;> rfl
  | none =>
    split_ifs with hid hheld
    · rfl
    · rintro r ⟨⟩
      rfl
    · trivial

theorem changeOutcome_carried (c : DocChange) : (changeOutcome mod now member lock c).Carried := by
  dsimp only [changeOutcome]
  cases stored mod member lock c.doc.ns c.doc.id c.doc.version with
  | none => rfl
  | some g =>
    dsimp only
    split_ifs with hheld
    · rintro r ⟨⟩
      rfl
    · trivial

theorem deleteOutcome_carried {r : DocID} (hr : r.key = "") :
    (deleteOutcome mod now member lock r).Carried := by
  dsimp only [deleteOutcome]
  cases stored mod member lock r.ns r.id r.version with
  | none => exact hr
  | some g =>
    dsimp only
    split_ifs with hheld
    · rintro r ⟨⟩
      exact hr
    · trivial

theorem dependOutcome_carried {r : DocID} (hr : r.id = "" ∨ r.key = "") :
    (dependOutcome mod member lock r).Carried := by
  dsimp only [dependOutcome]
  split_ifs
  · exact hr
  · trivial
  · exact hr
  · trivial

theorem arriveOutcome_carried {a : DocArrival} (ha : a.docID.isSetRef = true) :
    (arriveOutcome mod now lock a).Carried := by
  dsimp only [arriveOutcome]
  split_ifs with hmiss hheld
  · simp_all [Outcome.Carried, DependencyError.Carried, ref, newDocSetRef, DocID.isSetRef]
  · intro d h
    cases h
  · trivial

/-- The references of a doc verdict are such as the wire carries. -/
theorem evaluate_carried (hdel : ∀ r ∈ mod.docDeletes, r.key = "")
    (hdep : ∀ r ∈ mod.docDepends, r.id = "" ∨ r.key = "")
    (harr : ∀ a ∈ mod.docArrives, a.docID.isSetRef = true) (c : DocClass) {r : DocID}
    (hr : r ∈ ((evaluate mod now member occupant lock).err.getD {}).docs c) :
    DependencyError.Carried c r := by
  have hall : ∀ o ∈ mod.docOps.map (outcome mod now member occupant lock), o.Carried := by
    simp only [Modification.docOps, List.map_append, List.map_map, List.mem_append, List.mem_map]
    rintro o ((((⟨d, -, rfl⟩ | ⟨c, -, rfl⟩) | ⟨r, hr, rfl⟩) | ⟨r, hr, rfl⟩) | ⟨a, ha, rfl⟩)
    · exact insertOutcome_carried mod now member occupant lock d
    · exact changeOutcome_carried mod now member lock c
    · exact deleteOutcome_carried mod now member lock (hdel r hr)
    · exact dependOutcome_carried mod member lock (hdep r hr)
    · exact arriveOutcome_carried mod now lock (harr a ha)
  rw [evaluate_err_eq, DependencyError.reported_docs] at hr
  generalize mod.docOps.map (outcome mod now member occupant lock) = os at hall hr
  obtain ⟨o, ho, hf⟩ := (mem_recordAll_docs now lock os c r).mp hr
  have hcarried := hall o ho
  cases o with
  | heldByOther g named =>
    cases c with
    | claims =>
      rcases hf with rfl | hn
      · exact .inl rfl
      · exact .inr (hcarried r hn)
    | _ => exact hf.elim
  | write | holds => exact hf.elim
  | _ =>
    cases c <;> cases hf
    exact hcarried

end Docset

namespace Eqmem
open Docset

/-- A dependency error is what the checks under the locks found. -/
theorem modApply_dependency {s : EQMem} {p : Prepared} {now : Time} {e : DependencyError}
    (h : (modApply s p now false).2 = .error (.dependency e)) :
    ∃ locked, p.depErr locked now false = some e := by
  dsimp only [modApply] at h
  split_ifs at h with hshort
  refine ⟨s.locked p, ?_⟩
  generalize s.locked p = locked at h
  dsimp only [modLocked] at h
  split_ifs at h with hset
  · cases h
  · cases hd : p.depErr locked now false with
    | none =>
      simp only [hd, Option.filter_none] at h
      split at h <;> cases h
    | some e' =>
      rw [hd] at h
      cases h
      rfl

section Modify
variable {s₀ s : EQMem} {mod : Modification} {now : Time} {e : DependencyError}
  (he : (modPrep s₀ mod false).depErr s now false = some e)
include he

theorem depErr_collected : e.Collects ((modPrep s₀ mod false).failures s now false) := by
  have := (modPrep s₀ mod false).depErr_collects s now false
  rwa [he] at this

theorem depErr_arrives : e.arrives = [] := by
  refine List.eq_nil_iff_forall_not_mem.mpr fun r hr => ?_
  obtain ⟨x, hx, hr⟩ := (depErr_collected he).tasks .arrives r hr
  simp only [Prepared.failures, List.mem_cons, List.not_mem_nil, or_false] at hx
  rcases hx with rfl | rfl | rfl
  · exact (queueDeps_tasks .arrives r hr).2
  · cases hr
  · rw [Prepared.docFailures, Prepared.docPlan, if_neg Bool.false_ne_true, evaluate_err_eq,
      DependencyError.reported_tasks, recordAll_tasks] at hr
    cases hr

theorem depErr_carried (hv : mod.Validated) (c : DocClass) {r : DocID} (hr : r ∈ e.docs c) :
    DependencyError.Carried c r := by
  obtain ⟨x, hx, hr⟩ := (depErr_collected he).docs c r hr
  simp only [Prepared.failures, List.mem_cons, List.not_mem_nil, or_false] at hx
  rcases hx with rfl | rfl | rfl
  · rw [queueDeps_docs] at hr
    cases hr
  · rw [Prepared.taskFailures_docs] at hr
    cases hr
  · rw [Prepared.docFailures, Prepared.docPlan, if_neg Bool.false_ne_true] at hr
    have hdel : ((modPrep s₀ mod false).changed s).docDeletes = mod.docDeletes := rfl
    have hdep : ((modPrep s₀ mod false).changed s).docDepends = mod.docDepends := rfl
    have harr : ((modPrep s₀ mod false).changed s).docArrives = mod.docArrives := rfl
    refine evaluate_carried _ now _ _ _ ?_ ?_ ?_ c hr
    · rw [hdel]
      exact hv.docDeleteRef
    · rw [hdep]
      exact hv.docDependRef
    · rw [harr]
      exact fun a ha => (hv.docArriveSet a ha).1

end Modify

end Eqmem

namespace Eqgrpc
open Pbconv Eqmem

/-- What the client reads of a failed modification, whatever happened between its preparation and
its checks. With the arrivals named it is the error with its arrivals named, in every class and
order, whether or not the service named them before it sent the error. -/
theorem depErrorFromStat_modify {mod : Modification} (hmod : Validate.modification mod = none)
    {s₀ s : EQMem} {now : Time} {e : DependencyError}
    (he : (modApply s (modPrep s₀ mod false) now false).2 = .error (.dependency e))
    {sent : DependencyError} (hsent : sent = e ∨ sent = e.nameArrivals mod)
    {taskOrder docOrder : List Pb.ActionType} (ht : taskOrder.Perm mapKeys)
    (hd : docOrder.Perm mapKeys) (printed : Message → String) {code : UInt32}
    (hcode : code = codeNotFound ∨ code = codeAborted) (text : String) :
    ∃ d, depErrorFromStat ⟨code, text,
        (dependencyErrorDetails sent printed taskOrder docOrder).map .modifyDep⟩ = .ok d ∧
      (∀ c, (d.nameArrivals mod).tasks c = (e.nameArrivals mod).tasks c) ∧
      ∀ c, (d.nameArrivals mod).docs c = (e.nameArrivals mod).docs c := by
  obtain ⟨locked, he⟩ := modApply_dependency he
  have hdocs : ∀ c, sent.docs c = e.docs c := by
    rcases hsent with rfl | rfl
    · exact fun _ => rfl
    · exact e.nameArrivals_docs mod
  have hcarried : ∀ c, ∀ r ∈ sent.docs c, DependencyError.Carried c r := by
    intro c r hr
    rw [hdocs] at hr
    exact depErr_carried he (Validate.modification_none mod hmod) c hr
  obtain ⟨d, hread, hdt, hdd⟩ := depErrorFromStat_details sent ht hd hcarried printed hcode text
  refine ⟨d, hread, DependencyError.nameArrivals_sent (depErr_arrives he) hsent hdt, ?_⟩
  intro c
  rw [DependencyError.nameArrivals_docs, DependencyError.nameArrivals_docs, hdd, hdocs]

/-- A task that is not there is to arrive later, with a doc set that is not there either. -/
def lateArrival : Modification where
  claimant := "worker"
  arrives := [{ taskID := ⟨"b", 1, "work"⟩, byDur := second }]
  docArrives := [{ docID := newDocSetRef "ns" "k" 4, byDur := second }]

/-- What `Modify` reports of it. -/
def lateArrivalError : DependencyError where
  changes := [⟨"b", 1, ""⟩]
  docArrives := [newDocSetRef "ns" "k" 0]

theorem depErrorFromStat_lateArrival :
    ∃ d, depErrorFromStat ⟨codeAborted, "",
        (dependencyErrorDetails lateArrivalError Message.format mapKeys mapKeys).map .modifyDep⟩ =
          .ok d ∧
      (∀ c, (d.nameArrivals lateArrival).tasks c =
        (lateArrivalError.nameArrivals lateArrival).tasks c) ∧
      ∀ c, (d.nameArrivals lateArrival).docs c =
        (lateArrivalError.nameArrivals lateArrival).docs c := by
  have he : (modApply {} (modPrep {} lateArrival false) 5 false).2 =
      .error (.dependency lateArrivalError) := by decide
  exact depErrorFromStat_modify (by decide) he (.inl rfl) (.refl _) (.refl _) Message.format
    (.inr rfl) ""

/-- The error of `Modify` itself names no arrivals, and what the client makes of it does. -/
theorem lateArrival_named :
    Validate.modification lateArrival = none ∧
      (modify {} lateArrival 5).2 = .error (.dependency lateArrivalError) ∧
      ∃ d, depErrorFromStat ⟨codeAborted, "",
          (dependencyErrorDetails lateArrivalError Message.format mapKeys mapKeys).map .modifyDep⟩ =
            .ok d ∧
        (d.nameArrivals lateArrival).arrives = [⟨"b", 1, ""⟩] ∧ lateArrivalError.arrives = [] :=
  ⟨by decide, by decide, { docArrives := [newDocSetRef "ns" "k" 0], changes := [⟨"b", 1, ""⟩] },
    by decide, by decide, rfl⟩

end Eqgrpc
end EntroQ
