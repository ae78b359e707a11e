import EntroQ.Docset.Asked

/-! # The sets a modification names

A backend locks the sets of `sets` before it evaluates a modification, those of `exclusive` for
itself. Evaluation reads the lock of no other set, and writes the locks of the exclusive ones. -/

namespace EntroQ.Docset

/-- The doc sets the operations name, each once: by key, or by the key of the stored member. -/
def sets (mod : Modification) (member : String → String → Option Doc) : List SetName :=
  let stored (ns id : String) : List SetName :=
    (member ns id).toList.map (fun d => ⟨d.ns, d.key⟩)
  let named :=
    mod.docInserts.map (fun d => ⟨d.ns, d.key⟩) ++
    mod.docChanges.flatMap (fun c => stored c.doc.ns c.doc.id) ++
    mod.docDeletes.flatMap (fun d => stored d.ns d.id) ++
    mod.docDepends.flatMap (fun d => if d.isSetRef then [⟨d.ns, d.key⟩] else stored d.ns d.id) ++
    mod.docArrives.map (fun a => ⟨a.docID.ns, a.docID.key⟩)
  named.reverse.dedup.reverse

/-- The sets the modification writes. The rest it only depends on. -/
def exclusive (mod : Modification) (member : String → String → Option Doc) : Finset SetName :=
  let stored (ns id : String) : List SetName :=
    (member ns id).toList.map (fun d => ⟨d.ns, d.key⟩)
  let written : List SetName :=
    mod.docInserts.map (fun d => ⟨d.ns, d.key⟩) ++
    mod.docChanges.flatMap (fun c => stored c.doc.ns c.doc.id) ++
    mod.docDeletes.flatMap (fun d => stored d.ns d.id) ++
    mod.docArrives.map (fun a => ⟨a.docID.ns, a.docID.key⟩)
  written.toFinset

section Named
variable (mod : Modification) (member : String → String → Option Doc)

def namedSet : DocOp → Option SetName
  | .insert ins => some ⟨ins.ns, ins.key⟩
  | .change c => setOf member c.doc.ns c.doc.id
  | .delete r => setOf member r.ns r.id
  | .depend r => if r.isSetRef then some ⟨r.ns, r.key⟩ else setOf member r.ns r.id
  | .arrive a => some ⟨a.docID.ns, a.docID.key⟩

theorem exists_stored_iff (ns id : String) (g : SetName) :
    (∃ d ∈ (member ns id).toList, (⟨d.ns, d.key⟩ : SetName) = g) ↔
      setOf member ns id = some g := by
  cases h : member ns id <;> simp [setOf, h]

theorem exists_mem_docOps (p : DocOp → Prop) :
    (∃ op ∈ mod.docOps, p op) ↔ (∃ ins ∈ mod.docInserts, p (.insert ins)) ∨
      (∃ c ∈ mod.docChanges, p (.change c)) ∨ (∃ r ∈ mod.docDeletes, p (.delete r)) ∨
      (∃ r ∈ mod.docDepends, p (.depend r)) ∨ ∃ a ∈ mod.docArrives, p (.arrive a) := by
  simp only [Modification.docOps, List.mem_append, List.mem_map, or_and_right, exists_or,
    exists_exists_and_eq_and, or_assoc]

theorem mem_sets (g : SetName) :
    g ∈ sets mod member ↔ ∃ op ∈ mod.docOps, namedSet member op = some g := by
  have hdepend (r : DocID) :
      g ∈ (if r.isSetRef then [⟨r.ns, r.key⟩] else
        (member r.ns r.id).toList.map fun d => (⟨d.ns, d.key⟩ : SetName)) ↔
      (if r.isSetRef then some ⟨r.ns, r.key⟩ else setOf member r.ns r.id) = some g := by
    split_ifs
    · rw [List.mem_singleton, Option.some.injEq, eq_comm]
    · rw [List.mem_map, exists_stored_iff]
  rw [exists_mem_docOps]
  simp only [sets, List.mem_reverse, List.mem_dedup, List.mem_append, List.mem_flatMap, hdepend,
    List.mem_map, exists_stored_iff, namedSet, Option.some.injEq, or_assoc]

/-- The exclusive sets are those some operation asks something of. -/
theorem mem_exclusive (g : SetName) :
    g ∈ exclusive mod member ↔ asked mod member g ≠ [] := by
  have hasked : asked mod member g ≠ [] ↔ ∃ op ∈ mod.docOps, asks member g op ≠ none := by
    rw [asked, ne_eq, List.filterMap_eq_nil_iff]
    push Not
    rfl
  rw [hasked, exists_mem_docOps]
  simp only [exclusive, List.mem_toFinset, List.mem_append, List.mem_flatMap, exists_stored_iff, asks,
    ne_eq, ite_eq_right_iff, reduceCtorEq, imp_false, not_not, not_true_eq_false, and_false,
    exists_false, false_or, or_assoc, List.mem_map]

theorem exclusive_subset_sets (g : SetName) (h : g ∈ exclusive mod member) :
    g ∈ sets mod member := by
  rw [mem_exclusive, asked, ne_eq, List.filterMap_eq_nil_iff] at h
  push Not at h
  obtain ⟨op, hop, hne⟩ := h
  rw [mem_sets]
  refine ⟨op, hop, ?_⟩
  cases op <;> simp only [asks, ne_eq, ite_eq_right_iff, reduceCtorEq, imp_false, not_not,
    not_true_eq_false] at hne <;> simp [namedSet, hne]

end Named

section Coverage
variable {mod : Modification} {now : Time} {member : String → String → Option Doc}
  {occupant : SetName → String → Option Doc} {lock lock' : SetName → Lock}

theorem stored_congr {ns id : String} {version : Int32}
    (h : ∀ g, setOf member ns id = some g → lock g = lock' g) :
    stored mod member lock ns id version = stored mod member lock' ns id version := by
  unfold stored
  cases hm : member ns id with
  | none => rfl
  | some d => rw [Option.bind_some, Option.bind_some, h _ (setOf_eq hm)]

/-- What becomes of an operation depends on the lock of the set it names. -/
theorem outcome_congr {op : DocOp} (h : ∀ g, namedSet member op = some g → lock g = lock' g) :
    outcome mod now member occupant lock op = outcome mod now member occupant lock' op := by
  cases op with
  | insert ins =>
    simp only [outcome, insertOutcome]
    rw [h _ rfl]
  | change c =>
    simp only [outcome, changeOutcome]
    rw [stored_congr h]
    cases hs : stored mod member lock' c.doc.ns c.doc.id c.doc.version with
    | none => rfl
    | some g =>
      obtain ⟨d, hd, rfl⟩ := stored_eq_some.mp hs
      dsimp only
      rw [h _ (setOf_eq hd.1)]
  | delete r =>
    simp only [outcome, deleteOutcome]
    rw [stored_congr h]
    cases hs : stored mod member lock' r.ns r.id r.version with
    | none => rfl
    | some g =>
      obtain ⟨d, hd, rfl⟩ := stored_eq_some.mp hs
      dsimp only
      rw [h _ (setOf_eq hd.1)]
  | depend r =>
    simp only [outcome, dependOutcome]
    by_cases href : r.isSetRef = true
    · rw [if_pos href, if_pos href, h _ (if_pos href)]
    · rw [if_neg href, if_neg href, stored_congr fun g hg => h g ((if_neg href).trans hg)]
  | arrive a =>
    simp only [outcome, arriveOutcome]
    rw [h _ rfl]

def Outcome.about : Outcome → Option SetName
  | .heldByOther g _ => some g
  | .write g _ _ => some g
  | _ => none

theorem outcome_about {op : DocOp} {g : SetName}
    (h : (outcome mod now member occupant lock op).about = some g) :
    namedSet member op = some g := by
  cases op with
  | insert ins =>
    unfold outcome insertOutcome at h
    dsimp only at h
    split at h
    · cases h
    · split at h
      · cases h
      · split at h <;> exact h
  | change c =>
    rcases @changeOutcome_cases mod now member lock c with ⟨d, hd, he⟩ | ⟨-, he⟩
    · rw [outcome, he] at h
      refine (setOf_eq hd.1).trans ?_
      split_ifs at h <;> exact h
    · rw [outcome, he] at h
      cases h
  | delete r =>
    rcases @deleteOutcome_cases mod now member lock r with ⟨d, hd, he⟩ | ⟨-, he⟩
    · rw [outcome, he] at h
      refine (setOf_eq hd.1).trans ?_
      split_ifs at h <;> exact h
    · rw [outcome, he] at h
      cases h
  | depend r =>
    rcases @dependOutcome_cases mod member lock r with ⟨-, he⟩ | ⟨-, he⟩ <;>
      · rw [outcome, he] at h
        cases h
  | arrive a =>
    rcases @arriveOutcome_cases mod now lock a with ⟨-, he⟩ | ⟨-, he⟩
    · rw [outcome, he] at h
      split_ifs at h <;> exact h
    · rw [outcome, he] at h
      cases h

theorem recordAll_congr {os : List Outcome}
    (h : ∀ o ∈ os, ∀ g, o.about = some g → lock g = lock' g) :
    recordAll now lock os = recordAll now lock' os := by
  induction os using List.reverseRecOn with
  | nil => rfl
  | append_singleton os o ih =>
    have hos := ih fun o' ho' => h o' (List.mem_append_left _ ho')
    rw [recordAll_append, recordAll_append, hos]
    cases o with
    | heldByOther g named =>
      have hg := h (.heldByOther g named) (by simp) g rfl
      simp only [record, hg]
    | _ => rfl

theorem about_of_mem_writes {os : List Outcome} {g : SetName}
    (h : g ∈ (recordAll now lock os).writes) : ∃ o ∈ os, o.about = some g := by
  obtain ⟨byDur, n, hm⟩ := (recordAll_writes now lock os g).1.mp h
  exact ⟨_, hm, rfl⟩

theorem plan_congr {e : Evaluation} (h : ∀ g ∈ e.writes, lock g = lock' g) :
    plan mod now lock e = plan mod now lock' e := by
  have hentry : ∀ s ∈ e.writes.entries,
      (Sigma.map id (nextLock mod now lock) s : Sigma fun _ : SetName => Lock) =
        Sigma.map id (nextLock mod now lock') s := by
    rintro ⟨g, w⟩ hgw
    have hg : lock g = lock' g := h g (List.mem_keys_of_mem hgw)
    simp only [Sigma.map, nextLock, hg]
  unfold plan
  simp only [List.map_congr_left hentry]

/-- Evaluation reads no lock but those of the sets the modification names. -/
theorem evaluate_reads_sets (h : ∀ g ∈ sets mod member, lock g = lock' g) :
    evaluate mod now member occupant lock = evaluate mod now member occupant lock' := by
  have hnamed : ∀ op ∈ mod.docOps, ∀ g, namedSet member op = some g → lock g = lock' g := by
    intro op hop g hg
    exact h g ((mem_sets mod member g).mpr ⟨op, hop, hg⟩)
  have hmap : mod.docOps.map (outcome mod now member occupant lock) =
      mod.docOps.map (outcome mod now member occupant lock') :=
    List.map_congr_left fun op hop => outcome_congr (hnamed op hop)
  have habout : ∀ o ∈ mod.docOps.map (outcome mod now member occupant lock'), ∀ g,
      o.about = some g → lock g = lock' g := by
    intro o ho g hg
    obtain ⟨op, hop, rfl⟩ := List.mem_map.mp ho
    exact hnamed op hop g (outcome_about hg)
  unfold evaluate
  rw [hmap, recordAll_congr habout]
  apply plan_congr
  intro g hg
  obtain ⟨o, ho, hog⟩ := about_of_mem_writes hg
  exact habout o ho g hog

theorem mem_locks_iff_exclusive (h : (evaluate mod now member occupant lock).err = none)
    (g : SetName) :
    g ∈ (evaluate mod now member occupant lock).locks ↔ g ∈ exclusive mod member := by
  rw [mem_locks_iff h, mem_exclusive]

end Coverage
end EntroQ.Docset
