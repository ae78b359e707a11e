import EntroQ.Client.Validate
import EntroQ.Pbconv.ModifyArgs

/-! # Modifications over the wire

The client writes a modification as a request and the service reads the request as the arguments of
a modification of its own. Arrivals travel among the changes, told apart by their mode, and a move
is split over two fields. What is read is the modification that was written, apart from what the
wire does not carry. -/

namespace EntroQ

/-- A duration is a 64-bit number, and travels as milliseconds. -/
def Duration.milliseconds (d : Duration) : Int64 := Int64.ofInt d / 1000000

namespace Pbconv
variable {V : Type} (unmarshalJSON : RawMessage → Except String V)

def jsonToProto (raw : RawMessage) : Except String (Option V) :=
  if raw = "" then .ok none
  else ((unmarshalJSON raw).mapError ("json to proto: " ++ ·)).map some

def taskDataToProto (td : TaskData) : Except String (Pb.TaskData V) := do
  let val ← (jsonToProto unmarshalJSON td.value).mapError ("task data value: " ++ ·)
  return { queue := td.queue, byMs := Duration.milliseconds td.byDur, value := val
           attempt := td.attempt, err := td.err, id := td.id }

def taskChangeToProto (c : TaskChange) (resetClaims : Bool) :
    Except String (Pb.TaskChange V) := do
  let nd ← (taskDataToProto unmarshalJSON { c.task.data with byDur := c.byDur }).mapError
    ("change task " ++ c.task.id ++ ": " ++ ·)
  return { oldID := some { id := c.task.id, version := c.task.version, queue := c.task.fromQueue }
           newData := some nd
           mode := if resetClaims then .changeResetClaims else .changeDefault }

def taskArrivalToProto (a : TaskArrival) : Pb.TaskChange V where
  oldID := some { id := a.taskID.id, version := a.taskID.version, queue := a.taskID.queue }
  newData := some { byMs := Duration.milliseconds a.byDur }
  mode := .changeLease

def docIDToProto (ns id : String) (version : Int32) : Pb.DocID where
  ns := ns
  ref := some (.id id)
  version := version

def docSetIDToProto (ns key : String) (version : Int32) : Pb.DocID where
  ns := ns
  ref := some (.key key)
  version := version

def docRefToProto (did : DocID) : Pb.DocID :=
  if did.isSetRef then docSetIDToProto did.ns did.key did.version
  else docIDToProto did.ns did.id did.version

def docArrivalToProto (a : DocArrival) : Pb.DocChange V where
  oldID := some (docRefToProto a.docID)
  newData := some { byMs := Duration.milliseconds a.byDur }
  mode := .changeLease

def taskIDToProto (tid : TaskID) : Pb.TaskID where
  id := tid.id
  version := tid.version
  queue := tid.queue

end Pbconv

namespace Eqgrpc
open Pbconv
variable {V : Type} (unmarshalJSON : RawMessage → Except String V)

def docInsertToProto (di : DocData) : Except String (Pb.DocData V) := do
  let val ← (jsonToProto unmarshalJSON di.content).mapError ("doc insert value: " ++ ·)
  return { ns := di.ns, id := di.id, byMs := Duration.milliseconds di.byDur, key := di.key
           secondaryKey := di.secondaryKey, content := val }

def docChangeToProto (dc : DocChange) : Except String (Pb.DocChange V) := do
  let val ← (jsonToProto unmarshalJSON dc.doc.content).mapError ("doc change value: " ++ ·)
  return { oldID := some (docIDToProto dc.doc.ns dc.doc.id dc.doc.version)
           newData := some { key := dc.doc.key, secondaryKey := dc.doc.secondaryKey, content := val
                             byMs := Duration.milliseconds dc.byDur } }

def modifyRequest (mod : Modification) : Except String (Pb.ModifyRequest V) := do
  let inserts ← mod.inserts.mapM fun ins =>
    (taskDataToProto unmarshalJSON ins).mapError ("grpc modify insert value: " ++ ·)
  let changes ← mod.changes.mapM fun c =>
    (taskChangeToProto unmarshalJSON c (mod.resetsClaims c.task.id)).mapError
      ("grpc modify change value: " ++ ·)
  let docInserts ← mod.docInserts.mapM (docInsertToProto unmarshalJSON)
  let docChanges ← mod.docChanges.mapM (docChangeToProto unmarshalJSON)
  return { claimantID := mod.claimant
           inserts
           changes := mod.arrives.map taskArrivalToProto ++ changes
           deletes := mod.deletes.map taskIDToProto
           depends := mod.depends.map taskIDToProto
           docInserts
           docChanges := mod.docArrives.map docArrivalToProto ++ docChanges
           docDeletes := mod.docDeletes.map fun dd => docIDToProto dd.ns dd.id dd.version
           docDepends := mod.docDepends.map docRefToProto }

end Eqgrpc

/-! ## What the wire carries -/

/-- A duration without its fraction of a millisecond. -/
def Duration.truncated (d : Duration) : Duration := (Int64.ofInt d).toInt.tdiv 1000000 * 1000000

def TaskData.carried (d : TaskData) : TaskData :=
  { d with byDur := Duration.truncated d.byDur, atTime := 0, created := 0, modified := 0 }

def TaskChange.carried (claimant : String) (c : TaskChange) : TaskChange where
  task := { c.task with claimant, atTime := 0, claims := 0, created := 0, modified := 0 }
  byDur := Duration.truncated c.byDur

def TaskArrival.carried (a : TaskArrival) : TaskArrival :=
  { a with byDur := Duration.truncated a.byDur }

def DocData.carried (d : DocData) : DocData :=
  { d with byDur := Duration.truncated d.byDur, atTime := 0, created := 0, modified := 0 }

def DocChange.carried (c : DocChange) : DocChange where
  doc := { c.doc with claimant := "", atTime := 0, created := 0, modified := 0 }
  byDur := Duration.truncated c.byDur

def DocArrival.carried (a : DocArrival) : DocArrival :=
  { a with byDur := Duration.truncated a.byDur }

namespace Modification

def changeResets (m : Modification) : List String :=
  (m.changes.map (·.task.id)).filter m.resetsClaims

/-- A modification as it comes off the wire: durations in milliseconds, and without the times,
claimants and claim counts in the copies of tasks and docs. -/
def carried (m : Modification) : Modification :=
  { m with
    inserts := m.inserts.map TaskData.carried
    changes := m.changes.map (TaskChange.carried m.claimant)
    arrives := m.arrives.map TaskArrival.carried
    docInserts := m.docInserts.map DocData.carried
    docChanges := m.docChanges.map DocChange.carried
    docArrives := m.docArrives.map DocArrival.carried
    resetClaims := m.changeResets }

theorem carried_resetsClaims (m : Modification) {c : TaskChange} (hc : c ∈ m.changes) :
    m.carried.resetsClaims c.task.id = m.resetsClaims c.task.id := by
  have h : c.task.id ∈ m.changeResets ↔ m.resetsClaims c.task.id = true := by
    rw [changeResets, List.mem_filter]
    exact and_iff_right (List.mem_map_of_mem hc)
  rw [Bool.eq_iff_iff, ← h]
  exact List.contains_iff_mem

def values (m : Modification) : List RawMessage :=
  m.inserts.map (·.value) ++ m.changes.map (·.task.value) ++ m.docInserts.map (·.content) ++
    m.docChanges.map (·.doc.content)

end Modification

/-! ## Modifications built from parts -/

/-- A modification built from the operations of others, one after the other. -/
def Modification.join (claimant : String) (parts : List Modification) : Modification where
  claimant := claimant
  inserts := parts.flatMap (·.inserts)
  changes := parts.flatMap (·.changes)
  deletes := parts.flatMap (·.deletes)
  depends := parts.flatMap (·.depends)
  arrives := parts.flatMap (·.arrives)
  docInserts := parts.flatMap (·.docInserts)
  docChanges := parts.flatMap (·.docChanges)
  docDeletes := parts.flatMap (·.docDeletes)
  docDepends := parts.flatMap (·.docDepends)
  docArrives := parts.flatMap (·.docArrives)
  resetClaims := parts.flatMap (·.resetClaims)

theorem withModification_join (src : Modification) (claimant : String) (parts : List Modification) :
    withModification src (.join claimant parts) = .join claimant (parts ++ [src]) := by
  simp [withModification, Modification.join]

theorem foldl_withModification (claimant : String) (parts before : List Modification) :
    (parts.map withModification).foldl (fun m arg => arg m) (.join claimant before) =
      .join claimant (before ++ parts) := by
  induction parts generalizing before with
  | nil => simp
  | cons src parts ih =>
    rw [List.map_cons, List.foldl_cons, withModification_join, ih, List.append_assoc,
      List.singleton_append]

theorem newModification_join (claimant id : String) (parts : List Modification) :
    newModification claimant (modifyAs id :: parts.map withModification) = .join id parts := by
  rw [newModification, List.foldl_cons]
  exact foldl_withModification id parts []

theorem TaskID.delete_eq (d : TaskID) : d.delete = withModification { deletes := [d] } := by
  funext m
  simp [delete, withModification]

theorem TaskID.depend_eq (d : TaskID) : d.depend = withModification { depends := [d] } := by
  funext m
  simp [depend, withModification]

namespace Modification

/-- What each part of the request adds to the modification that is read. -/
def parts (m : Modification) : List Modification :=
  m.inserts.map (fun d => { inserts := [d.carried] }) ++
  m.arrives.map (fun a => { arrives := [a.carried] }) ++
  m.changes.map (fun c =>
    { changes := [c.carried m.claimant]
      resetClaims := if m.resetsClaims c.task.id then [c.task.id] else [] }) ++
  m.deletes.map (fun d => { deletes := [d] }) ++
  m.depends.map (fun d => { depends := [d] }) ++
  m.docInserts.map (fun d => { docInserts := [d.carried] }) ++
  m.docArrives.map (fun a => { docArrives := [a.carried] }) ++
  m.docChanges.map (fun c => { docChanges := [c.carried] }) ++
  m.docDeletes.map (fun d => { docDeletes := [d] }) ++
  m.docDepends.map (fun d => { docDepends := [d] })

theorem flatMap_changeResets (m : Modification) (l : List TaskChange) :
    (l.flatMap fun c => if m.resetsClaims c.task.id then [c.task.id] else []) =
      (l.map (·.task.id)).filter m.resetsClaims := by
  induction l with
  | nil => rfl
  | cons c l ih =>
    rw [List.flatMap_cons, List.map_cons, List.filter_cons, ih]
    split_ifs <;> rfl

theorem join_parts (m : Modification) : join m.claimant m.parts = m.carried := by
  have nothing {α β : Type} (l : List α) : (l.flatMap fun _ => ([] : List β)) = [] :=
    List.flatMap_eq_nil_iff.mpr fun _ _ => rfl
  simp [join, parts, carried, changeResets, List.flatMap_map, flatMap_changeResets, nothing,
    ← List.map_eq_flatMap]

end Modification

/-! ## Reading what was written -/

theorem tdiv_mul_bounds {x : ℤ} (h : -2 ^ 63 ≤ x) (h' : x < 2 ^ 63) :
    -2 ^ 63 ≤ x.tdiv 1000000 * 1000000 ∧ x.tdiv 1000000 * 1000000 < 2 ^ 63 := by
  have hs : Int.sign 1000000 = 1 := rfl
  rw [Int.tdiv_eq_ediv, hs]
  split_ifs
  · omega
  · omega

theorem Duration.milliseconds_toInt (d : Duration) :
    (Duration.milliseconds d * 1000000).toInt = Duration.truncated d := by
  have h : ((1000000 : Int64).toInt) = 1000000 := by decide
  rw [milliseconds, truncated, Int64.toInt_mul, Int64.toInt_div, h]
  obtain ⟨hl, hu⟩ := tdiv_mul_bounds (Int64.le_toInt (Int64.ofInt d)) (Int64.toInt_lt (Int64.ofInt d))
  have hdiv : ((Int64.ofInt d).toInt.tdiv 1000000).bmod (2 ^ 64) =
      (Int64.ofInt d).toInt.tdiv 1000000 := by
    apply Int.bmod_eq_of_le <;> omega
  rw [hdiv]
  apply Int.bmod_eq_of_le <;> omega

namespace Pbconv

theorem mapM_toProto {α β γ ε ε' : Type} {f : α → Except ε β} {g : β → Except ε' γ} {r : α → γ}
    {l : List α} (h : ∀ x ∈ l, ∃ y, f x = .ok y ∧ g y = .ok (r x)) :
    ∃ ys, l.mapM f = .ok ys ∧ ys.mapM g = .ok (l.map r) := by
  induction l with
  | nil => exact ⟨[], rfl, rfl⟩
  | cons x l ih =>
    obtain ⟨⟨y, hf, hg⟩, h⟩ := List.forall_mem_cons.mp h
    obtain ⟨ys, hfs, hgs⟩ := ih h
    refine ⟨y :: ys, ?_, ?_⟩
    · rw [List.mapM_cons, hf, hfs]
      rfl
    · rw [List.mapM_cons, hg, hgs]
      rfl

theorem mapM_map_toProto {α β γ ε : Type} {f : α → β} {g : β → Except ε γ} {r : α → γ} {l : List α}
    (h : ∀ x ∈ l, g (f x) = .ok (r x)) : (l.map f).mapM g = .ok (l.map r) := by
  induction l with
  | nil => rfl
  | cons x l ih =>
    obtain ⟨hx, h⟩ := List.forall_mem_cons.mp h
    rw [List.map_cons, List.mapM_cons, hx, ih h]
    rfl

theorem exists_mapError_ok {α ε ε' : Type} {x : Except ε α} {e : ε → ε'} {P : α → Prop}
    (h : ∃ y, x = .ok y ∧ P y) : ∃ y, x.mapError e = .ok y ∧ P y := by
  obtain ⟨y, rfl, hy⟩ := h
  exact ⟨y, rfl, hy⟩

theorem arrivalBy_byMs (byMs : Int64) (protocol : Int32) (now : Time) (what : Message) :
    arrivalBy 0 byMs protocol now what = .ok (byMs * 1000000).toInt := by
  have h0 : fromMSOrUnset 0 = 0 := by decide
  unfold arrivalBy
  by_cases h : byMs = 0
  · simp [h0, h]
  · simp [h0, h]

section Values
variable {V : Type} (marshalJSON : V → Except String RawMessage)
  (unmarshalJSON : RawMessage → Except String V)

/-- A value is carried if it is what its message is written as. -/
def Carries (raw : RawMessage) : Prop :=
  raw ≠ "" → ∃ v, unmarshalJSON raw = .ok v ∧ marshalJSON v = .ok raw

variable {marshalJSON unmarshalJSON}

theorem protoToJSON_jsonToProto {raw : RawMessage} (h : Carries marshalJSON unmarshalJSON raw) :
    ∃ v, jsonToProto unmarshalJSON raw = .ok v ∧
      ∀ what, protoToJSON marshalJSON what v = .ok raw := by
  by_cases hr : raw = ""
  · exact ⟨none, by simp [jsonToProto, hr], fun what => by simp [protoToJSON, hr]⟩
  · obtain ⟨v, hu, hm⟩ := h hr
    refine ⟨some v, ?_, ?_⟩
    · simp [jsonToProto, hr, hu, Except.mapError, Except.map]
    · intro what
      simp [protoToJSON, hm, Except.mapError]

variable (now : Time) (claimant : String)

theorem insertArg_toProto {d : TaskData} (h : Carries marshalJSON unmarshalJSON d.value) :
    ∃ pd, taskDataToProto unmarshalJSON d = .ok pd ∧
      insertArg marshalJSON 2 now pd = .ok (withModification { inserts := [d.carried] }) := by
  obtain ⟨v, hv, hj⟩ := protoToJSON_jsonToProto h
  refine ⟨_, by rw [taskDataToProto, hv]; rfl, ?_⟩
  rw [insertArg, hj, arrivalBy_byMs, Duration.milliseconds_toInt]
  apply congrArg Except.ok
  funext m
  simp [insertingInto, withModification, TaskData.carried, withArrivalTimeIn, withRawValue,
    withAttempt, withErr, withID]

variable (marshalJSON) in
theorem changeArg_arrivalToProto (a : TaskArrival) :
    changeArg marshalJSON 2 now claimant (taskArrivalToProto a) =
      .ok (withModification { arrives := [a.carried] }) := by
  simp only [changeArg, taskArrivalToProto, changeMode, taskLease, arrivalBy_byMs,
    Duration.milliseconds_toInt]
  apply congrArg Except.ok
  funext m
  simp [arriving, withModification, TaskArrival.carried, Task.idVersion]

theorem changeArg_changeToProto {c : TaskChange} (reset : Bool) (hq : c.task.queue ≠ "")
    (h : Carries marshalJSON unmarshalJSON c.task.value) :
    ∃ pc, taskChangeToProto unmarshalJSON c reset = .ok pc ∧
      changeArg marshalJSON 2 now claimant pc =
        .ok (withModification { changes := [c.carried claimant]
                                resetClaims := if reset then [c.task.id] else [] }) := by
  obtain ⟨v, hv, hj⟩ := protoToJSON_jsonToProto h
  refine ⟨_, by rw [taskChangeToProto, taskDataToProto, Task.data, hv]; rfl, ?_⟩
  have hmode : changeMode (if reset then .changeResetClaims else .changeDefault) 2
      ⟨"change of task %s", [.str c.task.id]⟩ = .ok () := by
    cases reset <;> rfl
  have hlease : (if reset then Pb.ChangeMode.changeResetClaims else .changeDefault) ≠
      .changeLease := by
    cases reset <;> decide
  simp only [changeArg, hmode, hlease, hj, arrivalBy_byMs, Duration.milliseconds_toInt, hq, if_false]
  apply congrArg Except.ok
  funext m
  by_cases hm : c.task.queue = c.task.fromQueue
  · cases reset <;>
      simp [Task.change, withModification, TaskChange.carried, hm, arrivalTimeBy, resettingClaims,
        Modification.resetClaimsOf]
  · cases reset <;>
      simp [Task.change, withModification, TaskChange.carried, hm, queueTo, arrivalTimeBy,
        resettingClaims, Modification.resetClaimsOf]

theorem docInsertArg_toProto {d : DocData} (h : Carries marshalJSON unmarshalJSON d.content) :
    ∃ pd, Eqgrpc.docInsertToProto unmarshalJSON d = .ok pd ∧
      docInsertArg marshalJSON 2 now pd = .ok (withModification { docInserts := [d.carried] }) := by
  obtain ⟨v, hv, hj⟩ := protoToJSON_jsonToProto h
  refine ⟨_, by rw [Eqgrpc.docInsertToProto, hv]; rfl, ?_⟩
  rw [docInsertArg, hj, arrivalBy_byMs, Duration.milliseconds_toInt]
  apply congrArg Except.ok
  funext m
  simp [puttingDocInto, withModification, DocData.carried, withIDKeys, withRawContent,
    withDocArrivalTimeBy]

variable (marshalJSON) in
theorem docChangeArg_arrivalToProto {a : DocArrival} (h : a.docID.isSetRef = true) :
    docChangeArg marshalJSON 2 now (docArrivalToProto a) =
      .ok (withModification { docArrives := [a.carried] }) := by
  simp only [docChangeArg, docArrivalToProto, docRefToProto, h, if_true, docSetIDToProto,
    changeMode, docLease, arrivalBy_byMs, Duration.milliseconds_toInt]
  apply congrArg Except.ok
  funext m
  obtain ⟨⟨ns, id, key, version⟩, by_⟩ := a
  simp [DocID.isSetRef] at h
  simp [arriving, withModification, DocArrival.carried, DocSet.ref, newDocSetRef, h]

theorem docChangeArg_changeToProto {c : DocChange}
    (h : Carries marshalJSON unmarshalJSON c.doc.content) :
    ∃ pc, Eqgrpc.docChangeToProto unmarshalJSON c = .ok pc ∧
      docChangeArg marshalJSON 2 now pc = .ok (withModification { docChanges := [c.carried] }) := by
  obtain ⟨v, hv, hj⟩ := protoToJSON_jsonToProto h
  refine ⟨_, by rw [Eqgrpc.docChangeToProto, hv]; rfl, ?_⟩
  simp only [docChangeArg, changeMode, docIDToProto, docByID, hj, arrivalBy_byMs,
    Duration.milliseconds_toInt]
  apply congrArg Except.ok
  funext m
  simp [Doc.change, withModification, DocChange.carried, withDocArrivalTimeBy]

theorem docDeleteArg_toProto {d : DocID} (h : d.key = "") :
    docDeleteArg (docIDToProto d.ns d.id d.version) =
      .ok (withModification { docDeletes := [d] }) := by
  apply congrArg Except.ok
  funext m
  obtain ⟨ns, id, key, version⟩ := d
  simp_all [DocID.delete, withModification, newDocID, docIDToProto]

theorem docDependArg_toProto {d : DocID} (h : d.id = "" ∨ d.key = "") :
    docDependArg 2 (docRefToProto d) = .ok (withModification { docDepends := [d] }) := by
  have hd : docDepend (docRefToProto d) 2 = .ok d := by
    obtain ⟨ns, doc, key, version⟩ := d
    by_cases hs : DocID.isSetRef ⟨ns, doc, key, version⟩
    · rw [docRefToProto, if_pos hs]
      simp only [DocID.isSetRef, Bool.and_eq_true, beq_iff_eq] at hs
      simp [docSetIDToProto, docDepend, newDocSetRef, hs.1]
    · rw [docRefToProto, if_neg hs]
      simp only [DocID.isSetRef, Bool.and_eq_true, beq_iff_eq, bne_iff_ne, not_and, not_not] at hs
      have hk : key = "" := h.elim hs id
      simp [docIDToProto, docDepend, newDocID, hk]
  rw [docDependArg, hd]
  apply congrArg Except.ok
  funext m
  simp [DocID.depend, withModification]

end Values
end Pbconv

namespace Eqgrpc
open Pbconv
variable {V : Type} {marshalJSON : V → Except String RawMessage}
  {unmarshalJSON : RawMessage → Except String V}

/-- What the service reads under protocol 2 is what the client wrote. -/
theorem modifyRequest_read (mod : Modification) (hmod : Validate.modification mod = none)
    (hvalues : ∀ raw ∈ mod.values, Carries marshalJSON unmarshalJSON raw) (now : Time)
    (service : String) :
    ∃ req args, modifyRequest unmarshalJSON mod = .ok req ∧
      modifyArgsFromProto marshalJSON 2 now req = .ok args ∧
      newModification service args = mod.carried ∧
      ∀ c ∈ mod.changes, mod.carried.resetsClaims c.task.id = mod.resetsClaims c.task.id := by
  have hv := Validate.modification_none mod hmod
  simp only [Modification.values, List.mem_append, or_imp, forall_and, List.forall_mem_map]
    at hvalues
  obtain ⟨⟨⟨hins, hch⟩, hdins⟩, hdch⟩ := hvalues
  obtain ⟨inserts, hinserts, hinserts'⟩ :=
    mapM_toProto fun d hd => exists_mapError_ok (insertArg_toProto now (hins d hd))
  obtain ⟨changes, hchanges, hchanges'⟩ :=
    mapM_toProto fun c hc => exists_mapError_ok (changeArg_changeToProto now mod.claimant
      (mod.resetsClaims c.task.id) (hv.changeQueue c hc) (hch c hc))
  obtain ⟨docInserts, hdocInserts, hdocInserts'⟩ :=
    mapM_toProto fun d hd => docInsertArg_toProto now (hdins d hd)
  obtain ⟨docChanges, hdocChanges, hdocChanges'⟩ :=
    mapM_toProto fun c hc => docChangeArg_changeToProto now (hdch c hc)
  have harrives := mapM_map_toProto (l := mod.arrives) fun a _ =>
    changeArg_arrivalToProto marshalJSON now mod.claimant a
  have hdocArrives := mapM_map_toProto fun a ha =>
    docChangeArg_arrivalToProto marshalJSON now (hv.docArriveSet a ha).1
  have hdocDeletes := mapM_map_toProto fun d hd => docDeleteArg_toProto (hv.docDeleteRef d hd)
  have hdocDepends := mapM_map_toProto fun d hd => docDependArg_toProto (hv.docDependRef d hd)
  refine ⟨_, modifyAs mod.claimant :: mod.parts.map withModification,
    by rw [modifyRequest, hinserts, hchanges, hdocInserts, hdocChanges]; rfl, ?_, ?_,
    fun c hc => mod.carried_resetsClaims hc⟩
  · simp only [modifyArgsFromProto, List.mapM_append, hinserts', harrives, hchanges', hdocInserts',
      hdocArrives, hdocChanges', hdocDeletes, hdocDepends]
    apply congrArg Except.ok
    simp only [Modification.parts, List.map_append, List.map_map, List.append_assoc,
      List.singleton_append, TaskID.delete_eq, TaskID.depend_eq]
    rfl
  · rw [newModification_join, Modification.join_parts]

/-- A task is moved on with its claims reset, another kept for a while, a doc set with it, and a
second set watched. -/
def movedOn : Modification where
  claimant := "worker"
  changes :=
    [{ task := { queue := "next", id := "a", version := 3, fromQueue := "work", value := "7"
                 claims := 2 }
       byDur := 1500001 }]
  arrives := [{ taskID := ⟨"b", 1, "work"⟩, byDur := 30 * second }]
  docArrives := [{ docID := newDocSetRef "ns" "k" 4, byDur := 30 * second }]
  docDepends := [newDocSetRef "ns" "l" 0]
  resetClaims := ["a"]

theorem modifyRequest_read_movedOn :
    ∃ req args, modifyRequest Except.ok movedOn = .ok req ∧
      modifyArgsFromProto Except.ok 2 0 req = .ok args ∧
      newModification "service" args = movedOn.carried ∧
      ∀ c ∈ movedOn.changes,
        movedOn.carried.resetsClaims c.task.id = movedOn.resetsClaims c.task.id :=
  modifyRequest_read movedOn (by decide) (fun raw _ _ => ⟨raw, rfl, rfl⟩) 0 "service"

end Eqgrpc
end EntroQ
