import EntroQ.Authz.Mesh
import EntroQ.Client.Validate
import EntroQ.Pbconv.ModifyArgs

/-! # Authorizing a modification

The service reads a request twice: once into the requirements it asks its authorizer about, once
into the modification it makes. The two readings agree: what is authorized is what the operations
of the modification need, no more and no less. -/

namespace EntroQ.Eqsvcgrpc
open Authz Pbconv

/-! ## What is asked -/

/-- The request built so far, and whether a name was empty. -/
structure AuthzWalk where
  authReq : Request := {}
  empty : Bool := false

namespace AuthzWalk
variable (s : AuthzWalk)

def q (name : String) (a : Action) : AuthzWalk :=
  if name = "" then { s with empty := true }
  else { s with authReq.queues := s.authReq.queues ++ [{ exact := name, actions := [a] }] }

def n (name : String) (a : Action) : AuthzWalk :=
  if name = "" then { s with empty := true }
  else { s with authReq.namespaces := s.authReq.namespaces ++ [{ exact := name, actions := [a] }] }

/-- A destination that is empty or the source is no move. -/
def change (source to_ : String) : AuthzWalk :=
  if to_ = "" ∨ to_ = source then s.q source .change
  else (s.q source .delete).q to_ .insert

end AuthzWalk

section Request
variable {V : Type} (req : Pb.ModifyRequest V)

def changeQueues (chg : Pb.TaskChange V) : String × String :=
  ((chg.oldID.map (·.queue)).getD "", (chg.newData.map (·.queue)).getD "")

def docChangeNamespace (dc : Pb.DocChange V) : String := (dc.oldID.map (·.ns)).getD ""

def modifyWalk : AuthzWalk :=
  let s : AuthzWalk := { authReq := { claimantID := req.claimantID } }
  let s := req.inserts.foldl (fun s ins => s.q ins.queue .insert) s
  let s := req.changes.foldl (fun s chg => s.change (changeQueues chg).1 (changeQueues chg).2) s
  let s := req.deletes.foldl (fun s del => s.q del.queue .delete) s
  let s := req.depends.foldl (fun s dep => s.q dep.queue .read) s
  let s := req.docInserts.foldl (fun s di => s.n di.ns .insert) s
  let s := req.docChanges.foldl (fun s dc => s.n (docChangeNamespace dc) .change) s
  let s := req.docDeletes.foldl (fun s dd => s.n dd.ns .delete) s
  req.docDepends.foldl (fun s ddep => s.n ddep.ns .read) s

def modifyAuthz : Except String Request :=
  let s := modifyWalk req
  if s.empty then
    .error "modification names an empty queue or namespace, which can never be authorized"
  else .ok s.authReq

end Request

/-! ## What a modification needs -/

inductive Operation
  | insert (ins : TaskData)
  | change (c : TaskChange)
  | delete (t : TaskID)
  | depend (t : TaskID)
  | arrive (a : TaskArrival)
  | docInsert (ins : DocData)
  | docChange (c : DocChange)
  | docDelete (d : DocID)
  | docDepend (d : DocID)
  | docArrive (a : DocArrival)
  deriving DecidableEq

def operations (m : Modification) : List Operation :=
  m.inserts.map .insert ++ m.changes.map .change ++ m.deletes.map .delete ++
    m.depends.map .depend ++ m.arrives.map .arrive ++ m.docInserts.map .docInsert ++
    m.docChanges.map .docChange ++ m.docDeletes.map .docDelete ++ m.docDepends.map .docDepend ++
    m.docArrives.map .docArrive

def onQueue (name : String) (action : Action) : Requirement :=
  { on_ := .queue, exact := name, action }

def onNamespace (name : String) (action : Action) : Requirement :=
  { on_ := .ns, exact := name, action }

def Operation.needs : Operation → List Requirement
  | .insert ins => [onQueue ins.queue .insert]
  | .change c =>
    if c.task.fromQueue = c.task.queue then [onQueue c.task.queue .change]
    else [onQueue c.task.fromQueue .delete, onQueue c.task.queue .insert]
  | .delete t => [onQueue t.queue .delete]
  | .depend t => [onQueue t.queue .read]
  | .arrive a => [onQueue a.taskID.queue .change]
  | .docInsert ins => [onNamespace ins.ns .insert]
  | .docChange c => [onNamespace c.doc.ns .change]
  | .docDelete d => [onNamespace d.ns .delete]
  | .docDepend d => [onNamespace d.ns .read]
  | .docArrive a => [onNamespace a.docID.ns .change]

/-! ## The walk of the request -/

/-- From one walk to the next these requirements were asked for. -/
structure Asks (s s' : AuthzWalk) (rs : List Requirement) : Prop where
  empty : s'.empty = true ↔ s.empty = true ∨ ∃ r ∈ rs, r.exact = ""
  requirements : ∀ r, r ∈ s'.authReq.requirements ↔
    r ∈ s.authReq.requirements ∨ r ∈ rs ∧ r.exact ≠ ""
  actions : (∀ w ∈ s.authReq.queues ++ s.authReq.namespaces, w.actions ≠ []) →
    ∀ w ∈ s'.authReq.queues ++ s'.authReq.namespaces, w.actions ≠ []

section Walk
variable {s s' s'' : AuthzWalk} {rs rs' : List Requirement}

theorem Asks.refl (s : AuthzWalk) : Asks s s [] := ⟨by simp, by simp, id⟩

theorem Asks.trans (h : Asks s s' rs) (h' : Asks s' s'' rs') : Asks s s'' (rs ++ rs') where
  empty := by
    rw [h'.empty, h.empty, or_assoc]
    simp only [List.mem_append, or_and_right, exists_or]
  requirements r := by
    rw [h'.requirements, h.requirements, or_assoc, List.mem_append, or_and_right]
  actions := h'.actions ∘ h.actions

theorem asks_unnamed {r : Requirement} (hr : r.exact = "") :
    Asks s { s with empty := true } [r] :=
  ⟨by simp [hr], by simp [hr], id⟩

theorem asks_named {r : Requirement} (hr : r.exact ≠ "") (hempty : s'.empty = s.empty)
    (hreq : ∀ r', r' ∈ s'.authReq.requirements ↔ r' ∈ s.authReq.requirements ∨ r' = r)
    (hactions : (∀ w ∈ s.authReq.queues ++ s.authReq.namespaces, w.actions ≠ []) →
      ∀ w ∈ s'.authReq.queues ++ s'.authReq.namespaces, w.actions ≠ []) : Asks s s' [r] where
  empty := by simp [hempty, hr]
  requirements r' := by
    have hname : r' = r → r'.exact ≠ "" := fun heq => heq ▸ hr
    rw [hreq, List.mem_singleton, and_iff_left_of_imp hname]
  actions := hactions

theorem asks_q (s : AuthzWalk) (name : String) (a : Action) :
    Asks s (s.q name a) [onQueue name a] := by
  unfold AuthzWalk.q
  split_ifs with h
  · exact asks_unnamed h
  · refine asks_named h rfl (fun r => ?_) ?_
    · simp only [Request.requirements, List.flatMap_append, List.mem_append,
        List.flatMap_singleton, Want.requirements, List.map_singleton, List.mem_singleton]
      exact or_right_comm
    · simp +contextual [or_imp, forall_and]

theorem asks_n (s : AuthzWalk) (name : String) (a : Action) :
    Asks s (s.n name a) [onNamespace name a] := by
  unfold AuthzWalk.n
  split_ifs with h
  · exact asks_unnamed h
  · refine asks_named h rfl (fun r => ?_) ?_
    · simp only [Request.requirements, List.flatMap_append, List.mem_append,
        List.flatMap_singleton, Want.requirements, List.map_singleton, List.mem_singleton]
      exact or_assoc.symm
    · simp +contextual [or_imp, forall_and]

def changeNeeds (source to_ : String) : List Requirement :=
  if to_ = "" ∨ to_ = source then [onQueue source .change]
  else [onQueue source .delete, onQueue to_ .insert]

theorem asks_change (s : AuthzWalk) (source to_ : String) :
    Asks s (s.change source to_) (changeNeeds source to_) := by
  unfold AuthzWalk.change changeNeeds
  split_ifs
  · exact asks_q s source .change
  · exact (asks_q s source .delete).trans (asks_q _ to_ .insert)

theorem asks_foldl {α : Type} {f : AuthzWalk → α → AuthzWalk} {need : α → List Requirement}
    (h : ∀ s x, Asks s (f s x) (need x)) (l : List α) (s : AuthzWalk) :
    Asks s (l.foldl f s) (l.flatMap need) := by
  induction l generalizing s with
  | nil => exact Asks.refl s
  | cons x l ih => exact (h s x).trans (ih (f s x))

end Walk

section Requirements
variable {V : Type} (req : Pb.ModifyRequest V)

/-- What the messages of a request name, and for which action. -/
def wireNeeds : List Requirement :=
  req.inserts.flatMap (fun ins => [onQueue ins.queue .insert]) ++
    req.changes.flatMap (fun chg => changeNeeds (changeQueues chg).1 (changeQueues chg).2) ++
    req.deletes.flatMap (fun del => [onQueue del.queue .delete]) ++
    req.depends.flatMap (fun dep => [onQueue dep.queue .read]) ++
    req.docInserts.flatMap (fun di => [onNamespace di.ns .insert]) ++
    req.docChanges.flatMap (fun dc => [onNamespace (docChangeNamespace dc) .change]) ++
    req.docDeletes.flatMap (fun dd => [onNamespace dd.ns .delete]) ++
    req.docDepends.flatMap (fun ddep => [onNamespace ddep.ns .read])

theorem asks_modifyWalk :
    Asks { authReq := { claimantID := req.claimantID } } (modifyWalk req) (wireNeeds req) := by
  have hinserts := asks_foldl (fun s (ins : Pb.TaskData V) => asks_q s ins.queue .insert) req.inserts
  have hchanges := asks_foldl (fun s (chg : Pb.TaskChange V) =>
    asks_change s (changeQueues chg).1 (changeQueues chg).2) req.changes
  have hdeletes := asks_foldl (fun s (del : Pb.TaskID) => asks_q s del.queue .delete) req.deletes
  have hdepends := asks_foldl (fun s (dep : Pb.TaskID) => asks_q s dep.queue .read) req.depends
  have hdocInserts := asks_foldl (fun s (di : Pb.DocData V) => asks_n s di.ns .insert)
    req.docInserts
  have hdocChanges := asks_foldl (fun s (dc : Pb.DocChange V) =>
    asks_n s (docChangeNamespace dc) .change) req.docChanges
  have hdocDeletes := asks_foldl (fun s (dd : Pb.DocID) => asks_n s dd.ns .delete) req.docDeletes
  have hdocDepends := asks_foldl (fun s (ddep : Pb.DocID) => asks_n s ddep.ns .read) req.docDepends
  exact (hinserts _).trans (hchanges _) |>.trans (hdeletes _) |>.trans (hdepends _)
    |>.trans (hdocInserts _) |>.trans (hdocChanges _) |>.trans (hdocDeletes _)
    |>.trans (hdocDepends _)

end Requirements

/-! ## The arguments of the modification -/

theorem mem_operations (m : Modification) (x : Operation) :
    x ∈ operations m ↔
      match x with
      | .insert ins => ins ∈ m.inserts
      | .change c => c ∈ m.changes
      | .delete t => t ∈ m.deletes
      | .depend t => t ∈ m.depends
      | .arrive a => a ∈ m.arrives
      | .docInsert ins => ins ∈ m.docInserts
      | .docChange c => c ∈ m.docChanges
      | .docDelete d => d ∈ m.docDeletes
      | .docDepend d => d ∈ m.docDepends
      | .docArrive a => a ∈ m.docArrives := by
  cases x <;> simp [operations]

/-- An argument adds this one operation to every modification. -/
def Performs (arg : ModifyArg) (op : Operation) : Prop :=
  ∀ m x, x ∈ operations (arg m) ↔ x ∈ operations m ∨ x = op

theorem performs_delete (t : TaskID) : Performs t.delete (.delete t) := by
  intro m x
  cases x <;> simp [mem_operations, TaskID.delete]

theorem performs_depend (t : TaskID) : Performs t.depend (.depend t) := by
  intro m x
  cases x <;> simp [mem_operations, TaskID.depend]

theorem performs_docDelete (d : DocID) : Performs d.delete (.docDelete d) := by
  intro m x
  cases x <;> simp [mem_operations, DocID.delete]

theorem performs_docDepend (d : DocID) : Performs d.depend (.docDepend d) := by
  intro m x
  cases x <;> simp [mem_operations, DocID.depend]

theorem performs_insertingInto (q : String) (args : List InsertArg) :
    Performs (insertingInto q args)
      (.insert (args.foldl (fun d arg => arg d) { queue := q, id := "" })) := by
  intro m x
  cases x <;> simp [mem_operations, insertingInto]

theorem performs_arriving_task (by_ : Duration) (t : Task) :
    Performs (arriving by_ [t] []) (.arrive { taskID := t.idVersion, byDur := by_ }) := by
  intro m x
  cases x <;> simp [mem_operations, arriving]

theorem performs_arriving_set (by_ : Duration) (g : DocSet) :
    Performs (arriving by_ [] [g]) (.docArrive { docID := g.ref, byDur := by_ }) := by
  intro m x
  cases x <;> simp [mem_operations, arriving]

theorem performs_change (t : Task) (newQueue : String) (by_ : Duration) (reset : Prop)
    [Decidable reset] :
    Performs (t.change ((if newQueue ≠ t.queue then [queueTo newQueue] else []) ++
        [arrivalTimeBy by_] ++ (if reset then [resettingClaims] else [])))
      (.change { task := { t with fromQueue := t.queue, queue := newQueue, atTime := 0 }
                 byDur := by_ }) := by
  intro m x
  by_cases h : newQueue = t.queue <;> by_cases hreset : reset <;> cases x <;>
    simp [mem_operations, Task.change, queueTo, arrivalTimeBy, resettingClaims,
      Modification.resetClaimsOf, h, hreset]

theorem performs_puttingDocInto (ns id key secondaryKey : String) (content : RawMessage)
    (by_ : Duration) :
    Performs (puttingDocInto ns [withIDKeys id key secondaryKey, withRawContent content,
        withDocArrivalTimeBy by_])
      (.docInsert { ns, id, byDur := by_, key, secondaryKey, content }) := by
  intro m x
  cases x <;>
    simp [mem_operations, puttingDocInto, withIDKeys, withRawContent, withDocArrivalTimeBy]

theorem performs_docChange (d : Doc) (by_ : Duration) :
    Performs (d.change [withDocArrivalTimeBy by_])
      (.docChange { doc := { d with atTime := 0 }, byDur := by_ }) := by
  intro m x
  cases x <;> simp [mem_operations, Doc.change, withDocArrivalTimeBy]

theorem needs_change {c : TaskChange} (source to_ : String) (hfrom : c.task.fromQueue = source)
    (hto : c.task.queue = if to_ = "" then source else to_) :
    (Operation.change c).needs = changeNeeds source to_ := by
  simp only [Operation.needs, changeNeeds, hfrom, hto]
  by_cases hempty : to_ = ""
  · simp [hempty]
  · by_cases hstay : to_ = source
    · simp [hstay]
    · simp [hempty, hstay, Ne.symm hstay]

/-- A message is read into an argument with one operation, which needs what the message asks
for. -/
def Reads {α : Type} (read : α → Except RequestError ModifyArg) (need : α → List Requirement) :
    Prop :=
  ∀ x arg, read x = .ok arg → ∃ op, Performs arg op ∧ op.needs = need x

section Reads
variable {V : Type} (marshalJSON : V → Except String RawMessage) (protocol : Int32) (now : Time)

theorem reads_insert :
    Reads (insertArg marshalJSON protocol now) fun ins => [onQueue ins.queue .insert] := by
  intro ins arg h
  simp only [insertArg, Except.bind_eq_ok_iff] at h
  obtain ⟨val, -, by_, -, h⟩ := h
  cases h
  exact ⟨_, performs_insertingInto _ _, rfl⟩

theorem reads_taskLease {old : Pb.TaskID} {lease : Pb.TaskData V} {arg : ModifyArg}
    (h : taskLease protocol now old lease = .ok arg) :
    ∃ op, Performs arg op ∧ op.needs = changeNeeds old.queue lease.queue := by
  unfold taskLease at h
  split_ifs at h with hqueue
  obtain ⟨by_, -, h⟩ := (Except.bind_eq_ok_iff _ _ _).mp h
  cases h
  refine ⟨_, performs_arriving_task _ _, ?_⟩
  -- a lease names no other queue, so it asks for a change in place
  have hstay : lease.queue = "" ∨ lease.queue = old.queue := by tauto
  rw [changeNeeds, if_pos hstay]
  rfl

theorem reads_change (claimantID : String) :
    Reads (changeArg marshalJSON protocol now claimantID) fun chg =>
      changeNeeds (changeQueues chg).1 (changeQueues chg).2 := by
  intro chg arg h
  unfold changeArg at h
  split at h
  next => cases h
  next => cases h
  next old nd hold hnd =>
    have hqueues : changeQueues chg = (old.queue, nd.queue) := by
      rw [changeQueues, hold, hnd]
      rfl
    simp only [hqueues]
    obtain ⟨-, -, h⟩ := (Except.bind_eq_ok_iff _ _ _).mp h
    by_cases hlease : chg.mode = .changeLease
    · rw [if_pos hlease] at h
      exact reads_taskLease protocol now h
    · rw [if_neg hlease] at h
      obtain ⟨val, -, h⟩ := (Except.bind_eq_ok_iff _ _ _).mp h
      obtain ⟨by_, -, h⟩ := (Except.bind_eq_ok_iff _ _ _).mp h
      cases h
      refine ⟨_, performs_change _ _ _ (chg.mode = .changeResetClaims), ?_⟩
      exact needs_change _ _ rfl rfl

theorem reads_docInsert :
    Reads (docInsertArg marshalJSON protocol now) fun di => [onNamespace di.ns .insert] := by
  intro di arg h
  simp only [docInsertArg, Except.bind_eq_ok_iff] at h
  obtain ⟨val, -, by_, -, h⟩ := h
  cases h
  exact ⟨_, performs_puttingDocInto _ _ _ _ _ _, rfl⟩

theorem reads_docLease {old : Pb.DocID} {lease : Pb.DocData V} {arg : ModifyArg}
    (h : docLease protocol now old lease = .ok arg) :
    ∃ op, Performs arg op ∧ op.needs = [onNamespace old.ns .change] := by
  unfold docLease at h
  split at h
  next => cases h
  next => cases h
  next key _ =>
    split_ifs at h
    obtain ⟨by_, -, h⟩ := (Except.bind_eq_ok_iff _ _ _).mp h
    cases h
    exact ⟨_, performs_arriving_set _ _, rfl⟩

theorem reads_docChange :
    Reads (docChangeArg marshalJSON protocol now) fun dc =>
      [onNamespace (docChangeNamespace dc) .change] := by
  intro dc arg h
  unfold docChangeArg at h
  split at h
  next => cases h
  next => cases h
  next old nd hold hnd =>
    have hns : docChangeNamespace dc = old.ns := by
      rw [docChangeNamespace, hold]
      rfl
    simp only [hns]
    obtain ⟨-, -, h⟩ := (Except.bind_eq_ok_iff _ _ _).mp h
    by_cases hlease : dc.mode = .changeLease
    · rw [if_pos hlease] at h
      exact reads_docLease protocol now h
    · rw [if_neg hlease] at h
      by_cases hreset : dc.mode = .changeResetClaims
      · rw [if_pos hreset] at h
        cases h
      · rw [if_neg hreset] at h
        obtain ⟨id, -, h⟩ := (Except.bind_eq_ok_iff _ _ _).mp h
        by_cases hmove : nd.ns ≠ "" ∧ nd.ns ≠ old.ns
        · rw [if_pos hmove] at h
          cases h
        · rw [if_neg hmove] at h
          obtain ⟨val, -, h⟩ := (Except.bind_eq_ok_iff _ _ _).mp h
          obtain ⟨by_, -, h⟩ := (Except.bind_eq_ok_iff _ _ _).mp h
          cases h
          exact ⟨_, performs_docChange _ _, rfl⟩

theorem reads_docDelete : Reads docDeleteArg fun dd => [onNamespace dd.ns .delete] := by
  intro dd arg h
  obtain ⟨id, -, h⟩ := (Except.bind_eq_ok_iff _ _ _).mp h
  cases h
  exact ⟨_, performs_docDelete _, rfl⟩

theorem docDepend_ns {d : Pb.DocID} {ref : DocID} (h : docDepend d protocol = .ok ref) :
    ref.ns = d.ns := by
  unfold docDepend at h
  split at h
  next =>
    cases h
    rfl
  next =>
    split_ifs at h
    cases h
    rfl
  next => cases h

theorem reads_docDepend :
    Reads (docDependArg protocol) fun ddep => [onNamespace ddep.ns .read] := by
  intro ddep arg h
  obtain ⟨ref, href, h⟩ := (Except.bind_eq_ok_iff _ _ _).mp h
  cases h
  refine ⟨_, performs_docDepend _, ?_⟩
  simp only [Operation.needs, docDepend_ns protocol href]

end Reads

def Does (args : List ModifyArg) (rs : List Requirement) : Prop :=
  ∃ ops, List.Forall₂ Performs args ops ∧ ops.flatMap Operation.needs = rs

section Does
variable {α : Type}

theorem Does.append {args args' : List ModifyArg} {rs rs' : List Requirement} (h : Does args rs)
    (h' : Does args' rs') : Does (args ++ args') (rs ++ rs') := by
  obtain ⟨ops, hops, rfl⟩ := h
  obtain ⟨ops', hops', rfl⟩ := h'
  exact ⟨ops ++ ops', List.rel_append hops hops', List.flatMap_append⟩

theorem Reads.mapM {read : α → Except RequestError ModifyArg} {need : α → List Requirement}
    (h : Reads read need) {l : List α} {args : List ModifyArg} (hl : l.mapM read = .ok args) :
    Does args (l.flatMap need) := by
  induction l generalizing args with
  | nil =>
    cases hl
    exact ⟨[], .nil, rfl⟩
  | cons x l ih =>
    rw [List.mapM_cons] at hl
    obtain ⟨arg, harg, hl⟩ := (Except.bind_eq_ok_iff _ _ _).mp hl
    obtain ⟨rest, hrest, hl⟩ := (Except.bind_eq_ok_iff _ _ _).mp hl
    cases hl
    obtain ⟨op, hop, hneed⟩ := h x arg harg
    obtain ⟨ops, hops, hneeds⟩ := ih hrest
    refine ⟨op :: ops, .cons hop hops, ?_⟩
    rw [List.flatMap_cons, List.flatMap_cons, hneed, hneeds]

theorem does_map {f : α → ModifyArg} {op : α → Operation} (h : ∀ x, Performs (f x) (op x))
    (l : List α) : Does (l.map f) (l.flatMap fun x => (op x).needs) := by
  refine ⟨l.map op, ?_, List.flatMap_map op Operation.needs l⟩
  rw [List.forall₂_map_left_iff, List.forall₂_map_right_iff]
  exact List.forall₂_same.mpr fun x _ => h x

theorem operations_foldl {args : List ModifyArg} {ops : List Operation}
    (h : List.Forall₂ Performs args ops) (m : Modification) (x : Operation) :
    x ∈ operations (args.foldl (fun m arg => arg m) m) ↔ x ∈ operations m ∨ x ∈ ops := by
  induction h generalizing m with
  | nil => simp
  | cons hop _ ih => rw [List.foldl_cons, ih, hop, List.mem_cons, or_assoc]

end Does

section Covers
variable {V : Type} (marshalJSON : V → Except String RawMessage) (protocol : Int32) (now : Time)
  (req : Pb.ModifyRequest V)

/-- The arguments read from a request perform the operations its messages name. -/
theorem modifyArgs_does {args : List ModifyArg}
    (h : modifyArgsFromProto marshalJSON protocol now req = .ok args) :
    ∃ rest, args = modifyAs req.claimantID :: rest ∧ Does rest (wireNeeds req) := by
  simp only [modifyArgsFromProto, Except.bind_eq_ok_iff] at h
  obtain ⟨inserts, hinserts, changes, hchanges, docInserts, hdocInserts, docChanges, hdocChanges,
    docDeletes, hdocDeletes, docDepends, hdocDepends, h⟩ := h
  cases h
  have hdeletes := does_map (fun del : Pb.TaskID =>
    performs_delete (TaskID.mk del.id del.version del.queue)) req.deletes
  have hdepends := does_map (fun dep : Pb.TaskID =>
    performs_depend (TaskID.mk dep.id dep.version dep.queue)) req.depends
  have hrest := ((reads_insert marshalJSON protocol now).mapM hinserts).append
    ((reads_change marshalJSON protocol now req.claimantID).mapM hchanges) |>.append hdeletes
    |>.append hdepends |>.append ((reads_docInsert marshalJSON protocol now).mapM hdocInserts)
    |>.append ((reads_docChange marshalJSON protocol now).mapM hdocChanges)
    |>.append (reads_docDelete.mapM hdocDeletes)
    |>.append ((reads_docDepend protocol).mapM hdocDepends)
  exact ⟨_, rfl, hrest⟩

theorem modification_needs {args : List ModifyArg}
    (h : modifyArgsFromProto marshalJSON protocol now req = .ok args) (client : String)
    (r : Requirement) :
    (∃ op ∈ operations (newModification client args), r ∈ op.needs) ↔ r ∈ wireNeeds req := by
  obtain ⟨rest, rfl, ops, hops, hneeds⟩ := modifyArgs_does marshalJSON protocol now req h
  have hmem (x : Operation) :
      x ∈ operations (newModification client (modifyAs req.claimantID :: rest)) ↔ x ∈ ops := by
    rw [newModification, List.foldl_cons, operations_foldl hops]
    simp [operations, modifyAs]
  simp only [hmem, ← hneeds, List.mem_flatMap]

/-- What the authorizer is asked is what the messages of the request name, and no name is empty. -/
theorem modifyAuthz_asks {auth : Request} (h : modifyAuthz req = .ok auth) :
    (∀ r, r ∈ auth.requirements ↔ r ∈ wireNeeds req) ∧ (∀ r ∈ wireNeeds req, r.exact ≠ "") ∧
      ∀ w ∈ auth.queues ++ auth.namespaces, w.actions ≠ [] := by
  have hwalk := asks_modifyWalk req
  simp only [modifyAuthz] at h
  split_ifs at h with hempty
  cases h
  have hnamed : ∀ r ∈ wireNeeds req, r.exact ≠ "" := by
    intro r hr hname
    exact hempty (hwalk.empty.mpr (.inr ⟨r, hr, hname⟩))
  refine ⟨fun r => ?_, hnamed, hwalk.actions (by simp)⟩
  rw [hwalk.requirements]
  simp only [Request.requirements, List.flatMap_nil, List.append_nil, List.not_mem_nil, false_or]
  exact and_iff_left_of_imp (hnamed r)

/-- Whatever the modification does was asked for, with its action and where it acts; nothing else
was; and no operation names an empty queue or namespace. -/
theorem modifyAuthz_covers (client : String) (auth : Request) (args : List ModifyArg)
    (hauth : modifyAuthz req = .ok auth)
    (hargs : modifyArgsFromProto marshalJSON protocol now req = .ok args) :
    (∀ op ∈ operations (newModification client args), ∀ r ∈ op.needs, r ∈ auth.requirements) ∧
      (∀ r ∈ auth.requirements,
        ∃ op ∈ operations (newModification client args), r ∈ op.needs) ∧
      (∀ w ∈ auth.queues ++ auth.namespaces, w.actions ≠ []) ∧
      ∀ op ∈ operations (newModification client args), ∀ r ∈ op.needs, r.exact ≠ "" := by
  obtain ⟨hasked, hnamed, hactions⟩ := modifyAuthz_asks req hauth
  have hneeds := modification_needs marshalJSON protocol now req hargs client
  refine ⟨?_, ?_, hactions, ?_⟩
  · intro op hop r hr
    exact (hasked r).mpr ((hneeds r).mp ⟨op, hop, hr⟩)
  · intro r hr
    exact (hneeds r).mpr ((hasked r).mp hr)
  · intro op hop r hr
    exact hnamed r ((hneeds r).mp ⟨op, hop, hr⟩)

end Covers

def everyKind : Pb.ModifyRequest String where
  claimantID := "alice"
  inserts := [{ queue := "/in", value := some "1", byMs := 5 }]
  changes :=
    [{ oldID := some { id := "t1", version := 1, queue := "/a" }
       newData := some { queue := "/b", value := some "2" } },
     { oldID := some { id := "t2", version := 3, queue := "/a" }, newData := some { queue := "/a" }
       mode := .changeResetClaims },
     { oldID := some { id := "t3", version := 2, queue := "/c" }, newData := some { byMs := 9 }
       mode := .changeLease }]
  deletes := [{ id := "t4", version := 1, queue := "/d" }]
  depends := [{ id := "t5", version := 1, queue := "/e" }]
  docInserts := [{ ns := "/n", id := "d1", key := "k", secondaryKey := "1" }]
  docChanges :=
    [{ oldID := some { ns := "/n", ref := some (.id "d2"), version := 1 }
       newData := some { ns := "/n", key := "k", secondaryKey := "2" } },
     { oldID := some { ns := "/o", ref := some (.key "k"), version := 4 }
       newData := some { byMs := 7 }, mode := .changeLease }]
  docDeletes := [{ ns := "/p", ref := some (.id "d3"), version := 1 }]
  docDepends := [{ ns := "/q", ref := some (.key "k"), version := 2 }]

/-- What is asked for it. -/
def everyKindAuthz : Request where
  claimantID := "alice"
  queues :=
    [{ exact := "/in", actions := [.insert] }, { exact := "/a", actions := [.delete] },
     { exact := "/b", actions := [.insert] }, { exact := "/a", actions := [.change] },
     { exact := "/c", actions := [.change] }, { exact := "/d", actions := [.delete] },
     { exact := "/e", actions := [.read] }]
  namespaces :=
    [{ exact := "/n", actions := [.insert] }, { exact := "/n", actions := [.change] },
     { exact := "/o", actions := [.change] }, { exact := "/p", actions := [.delete] },
     { exact := "/q", actions := [.read] }]

theorem modifyAuthz_covers_everyKind :
    modifyAuthz everyKind = .ok everyKindAuthz ∧
    ∃ args, modifyArgsFromProto (fun v : String => .ok v) 2 0 everyKind = .ok args ∧
      (operations (newModification "server" args)).length = 11 ∧
      ∀ r ∈ everyKindAuthz.requirements,
        ∃ op ∈ operations (newModification "server" args), r ∈ op.needs := by
  refine ⟨by decide, _, rfl, by decide, ?_⟩
  exact (modifyAuthz_covers (fun v : String => .ok v) 2 0 everyKind "server" everyKindAuthz _
    (by decide) rfl).2.1

/-! ## The service -/

section Service
variable {V A B R σ : Type}

/-- Why the service refuses a modification, or what its backend answers. -/
inductive ModifyFailure (A B : Type)
  | request (e : RequestError)
  | keys (e : InvalidArgument)
  | authz (msg : String)
  | denied (e : A)
  | backend (e : B)

/-- The checks before the backend is called; without an authorizer everything is allowed. -/
def checkAuthz (az : Option (Request → Except A Unit)) (req : Pb.ModifyRequest V) :
    Except (ModifyFailure A B) Unit :=
  match az with
  | none => .ok ()
  | some authorize =>
    match modifyAuthz req with
    | .error msg => .error (.authz msg)
    | .ok authReq => (authorize authReq).mapError .denied

def modify (marshalJSON : V → Except String RawMessage) (protocol : Int32) (now : Time)
    (az : Option (Request → Except A Unit)) (impl : List ModifyArg → σ → Except B R × σ)
    (req : Pb.ModifyRequest V) (s : σ) : Except (ModifyFailure A B) R × σ :=
  match modifyArgsFromProto marshalJSON protocol now req with
  | .error e => (.error (.request e), s)
  | .ok args =>
    match (newModification req.claimantID args).ensureModifyKeys with
    | some e => (.error (.keys e), s)
    | none =>
      match checkAuthz az req with
      | .error e => (.error e, s)
      | .ok () => ((impl args s).1.mapError .backend, (impl args s).2)

/-- The backend changes only by a modification that the authorizer allowed: it was asked for
everything the operations need, and agreed. -/
theorem modify_authorized (marshalJSON : V → Except String RawMessage) (protocol : Int32)
    (now : Time) (authorize : Request → Except A Unit)
    (impl : List ModifyArg → σ → Except B R × σ) (req : Pb.ModifyRequest V) (s : σ)
    (h : (modify marshalJSON protocol now (some authorize) impl req s).2 ≠ s) :
    ∃ auth args, authorize auth = .ok () ∧
      (modify marshalJSON protocol now (some authorize) impl req s).2 = (impl args s).2 ∧
      ∀ client, ∀ op ∈ operations (newModification client args),
        ∀ r ∈ op.needs, r ∈ auth.requirements := by
  unfold modify at h ⊢
  split at h
  · exact absurd rfl h
  next args hargs =>
  split at h
  · exact absurd rfl h
  split at h
  · exact absurd rfl h
  next hchecked =>
  simp only [checkAuthz] at hchecked
  split at hchecked
  · cases hchecked
  next auth hauth =>
  refine ⟨auth, args, (Except.mapError_eq_ok_iff _ _ _).mp hchecked, rfl, ?_⟩
  intro client op hop r hr
  rw [(modifyAuthz_asks req hauth).1]
  exact (modification_needs marshalJSON protocol now req hargs client r).mp ⟨op, hop, hr⟩

end Service

end EntroQ.Eqsvcgrpc
