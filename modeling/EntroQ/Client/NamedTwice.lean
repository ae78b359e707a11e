import EntroQ.Client.Validate

/-! # Naming something twice

Operations name tasks by ID, docs by namespace and ID, and whole doc sets by namespace and key.
Validation keeps docs and sets in one table under `docKey`, where every set of a namespace looks
like the doc without an ID, so what it refuses is not exactly what is named twice. -/

namespace EntroQ

inductive DocName
  | doc (ns id : String)
  | set (ns key : String)
  deriving DecidableEq

def DocID.named (r : DocID) : DocName := if r.isSetRef then .set r.ns r.key else .doc r.ns r.id

def DocName.tableKey : DocName → String
  | .doc ns id => docKey ns id
  | .set ns _ => docKey ns ""

/-- The error says that something is named twice. -/
def InvalidArgument.namesTwice (e : InvalidArgument) : Bool :=
  e.format == "task %q appears in more than one operation of the modification" ||
  e.format == "doc %q in namespace %q appears in more than one operation of the modification" ||
  e.format == "modify: doc set %q in %q arrives more than once" ||
  e.format == "two inserts name secondary key %q in set %q of namespace %q; " ++
    "a set holds one doc per secondary key"

namespace Modification
variable (m : Modification)

def taskNames : List String :=
  m.changes.map (·.task.id) ++ m.deletes.map (·.id) ++ m.arrives.map (·.taskID.id) ++
    m.depends.map (·.id) ++ (m.inserts.filter (·.id != "")).map (·.id)

/-- The docs and sets the operations other than arrivals name. -/
def docNames : List DocName :=
  m.docChanges.map (fun c => .doc c.doc.ns c.doc.id) ++ m.docDeletes.map DocID.named ++
    m.docDepends.map DocID.named ++
    (m.docInserts.filter (·.id != "")).map (fun d => .doc d.ns d.id)

def arriveNames : List DocName := m.docArrives.map (·.docID.named)

def places : List (String × String × String) :=
  m.docInserts.map fun d => (d.ns, d.key, d.secondaryKey)

def NamesTwice : Prop := ¬m.taskNames.Nodup ∨ ¬(m.docNames ++ m.arriveNames).Nodup

structure WritesNamed : Prop where
  inserts : ∀ t ∈ m.inserts, t.queue ≠ ""
  changes : ∀ c ∈ m.changes, c.task.queue ≠ ""
  arrives : ∀ a ∈ m.arrives, a.taskID.queue ≠ ""
  docInserts : ∀ d ∈ m.docInserts, d.ns ≠ ""
  docArrives : ∀ a ∈ m.docArrives, a.docID.isSetRef = true ∧ a.docID.ns ≠ ""

end Modification

/-! ## When the walks stop -/

section Walk
variable {α κ ε : Type*} [DecidableEq κ]

theorem walkUnique_eq_some (key : α → κ) (bad : α → Option ε) (again : α → ε) (seen : List κ)
    {l : List α} {e : ε} (h : walkUnique key bad again seen l = some e) :
    ∃ x ∈ l, bad x = some e ∨ e = again x := by
  induction l generalizing seen with
  | nil => cases h
  | cons x xs ih =>
    rw [walkUnique] at h
    cases hb : bad x with
    | some e' =>
      rw [hb] at h
      cases h
      exact ⟨x, List.mem_cons_self, .inl hb⟩
    | none =>
      rw [hb] at h
      dsimp only at h
      split_ifs at h
      · cases h
        exact ⟨x, List.mem_cons_self, .inr rfl⟩
      · obtain ⟨y, hy, he⟩ := ih _ h
        exact ⟨y, List.mem_cons_of_mem _ hy, he⟩

theorem addDeps_error (key : α → κ) (version : α → Int32) (again : α → ε)
    {deps : Foundation.FMap κ Int32} {l : List α} {e : ε}
    (h : addDeps key version again deps l = .error e) :
    (∃ x ∈ l, e = again x) ∧ ¬((l.map key).Nodup ∧ ∀ x ∈ l, key x ∉ deps) := by
  induction l generalizing deps with
  | nil => cases h
  | cons x xs ih =>
    rw [addDeps] at h
    split_ifs at h with hk
    · cases h
      exact ⟨⟨x, List.mem_cons_self, rfl⟩, fun hn => hn.2 x List.mem_cons_self hk⟩
    · obtain ⟨⟨y, hy, he⟩, hn⟩ := ih h
      refine ⟨⟨y, List.mem_cons_of_mem _ hy, he⟩, fun hall => hn ?_⟩
      rw [List.map_cons, List.nodup_cons] at hall
      refine ⟨hall.1.2, fun z hz hmem => ?_⟩
      rcases Finmap.mem_insert.mp hmem with hzx | hz'
      · exact hall.1.1 (List.mem_map.mpr ⟨z, hz, hzx⟩)
      · exact hall.2 z (List.mem_cons_of_mem _ hz) hz'

theorem addDeps_exists (key : α → κ) (version : α → Int32) (again : α → ε)
    {deps : Foundation.FMap κ Int32} {l : List α} (hnd : (l.map key).Nodup)
    (hnew : ∀ x ∈ l, key x ∉ deps) : ∃ d, addDeps key version again deps l = .ok d := by
  cases h : addDeps key version again deps l with
  | ok d => exact ⟨d, rfl⟩
  | error e => exact absurd ⟨hnd, hnew⟩ (addDeps_error _ _ _ h).2

/-- Recording two lists one after the other works exactly if no key comes twice in both. -/
theorem addDeps_exists_append (key : α → κ) (version : α → Int32) (again : α → ε)
    {l l' : List α} (hnd : ((l ++ l').map key).Nodup) :
    ∃ d d', addDeps key version again ∅ l = .ok d ∧ addDeps key version again d l' = .ok d' := by
  rw [List.map_append] at hnd
  obtain ⟨hl, hl', hdisj⟩ := List.nodup_append'.mp hnd
  obtain ⟨d, hd⟩ := addDeps_exists key version again hl fun _ _ => Finmap.notMem_empty
  have hnew : ∀ x ∈ l', key x ∉ d := by
    intro x hx hmem
    have hin := ((addDeps_ok _ _ _ _ _ _ hd).2.2 _).mp hmem
    exact hdisj (hin.resolve_left Finmap.notMem_empty) (List.mem_map.mpr ⟨x, hx, rfl⟩)
  obtain ⟨d', hd'⟩ := addDeps_exists key version again hl' hnew
  exact ⟨d, d', hd, hd'⟩

end Walk

theorem Except.bind_eq_error_iff {ε α β : Type} (x : Except ε α) (f : α → Except ε β) (e : ε) :
    (x >>= f) = .error e ↔ x = .error e ∨ ∃ a, x = .ok a ∧ f a = .error e := by
  cases x <;> simp [bind, Except.bind]

theorem Except.mapError_eq_error_iff {ε ε' α : Type} (f : ε → ε') (x : Except ε α) (e : ε') :
    x.mapError f = .error e ↔ ∃ e', x = .error e' ∧ f e' = e := by
  cases x <;> simp [Except.mapError]

theorem InvalidArgument.namesTwice_within (e : InvalidArgument) (context : String) :
    (e.within context).namesTwice = e.namesTwice := rfl

theorem addTaskDeps_error {deps : Foundation.FMap String Int32} {l : List (String × Int32)}
    {e : InvalidArgument} (h : addTaskDeps deps l = .error e) : e.namesTwice = true := by
  obtain ⟨⟨x, -, rfl⟩, -⟩ := addDeps_error _ _ _ h
  rfl

theorem addDocDeps_error {deps : Foundation.FMap String Int32}
    {l : List (String × String × Int32)} {e : InvalidArgument}
    (h : addDocDeps deps l = .error e) : e.namesTwice = true := by
  obtain ⟨⟨x, -, rfl⟩, -⟩ := addDeps_error _ _ _ h
  rfl

namespace Modification
variable (m : Modification)

theorem taskKeys_eq : (m.modTaskDeps ++ m.restTaskDeps).map Prod.fst = m.taskNames := by
  simp [modTaskDeps, restTaskDeps, taskNames, Function.comp_def]

theorem tableKey_named (r : DocID) : r.named.tableKey = docKey r.ns r.id := by
  unfold DocID.named
  split_ifs with h
  · have hid : r.id = "" := by
      rw [DocID.isSetRef, Bool.and_eq_true, beq_iff_eq] at h
      exact h.1
    simp only [DocName.tableKey, hid]
  · rfl

theorem docKeys_eq : (m.modDocDeps ++ m.restDocDeps).map (fun d => docKey d.1 d.2.1) =
    m.docNames.map DocName.tableKey := by
  have hdoc (ns id : String) : (DocName.doc ns id).tableKey = docKey ns id := rfl
  simp [modDocDeps, restDocDeps, docNames, Function.comp_def, tableKey_named, hdoc]

/-- The versions are recorded exactly if no task ID and no table key comes twice. -/
theorem allDependencies_ok_iff : (∃ r, m.allDependencies = .ok r) ↔
    m.taskNames.Nodup ∧ (m.docNames.map DocName.tableKey).Nodup := by
  rw [← taskKeys_eq, ← docKeys_eq]
  constructor
  · rintro ⟨r, hr⟩
    exact m.allDependencies_ok r hr
  · rintro ⟨htask, hdoc⟩
    obtain ⟨t, t', ht, ht'⟩ := addDeps_exists_append Prod.fst Prod.snd _ htask
    obtain ⟨d, d', hd, hd'⟩ := addDeps_exists_append
      (fun d : String × String × Int32 => docKey d.1 d.2.1) (fun d => d.2.2) _ hdoc
    refine ⟨(t', d'), ?_⟩
    simp only [allDependencies, modDependencies, addTaskDeps, addDocDeps]
    rw [ht, hd]
    simp only [Except.mapError, bind, Except.bind, pure, Except.pure]
    rw [ht']
    dsimp only
    rw [hd']

theorem allDependencies_error {e : InvalidArgument} (h : m.allDependencies = .error e) :
    e.namesTwice = true := by
  rw [allDependencies, Except.mapError_eq_error_iff] at h
  obtain ⟨e', h, rfl⟩ := h
  rw [InvalidArgument.namesTwice_within]
  rcases (Except.bind_eq_error_iff _ _ _).mp h with h | ⟨⟨t, d⟩, -, h⟩
  · rcases (Except.bind_eq_error_iff _ _ _).mp h with h | ⟨t, -, h⟩
    · obtain ⟨e'', he, rfl⟩ := (Except.mapError_eq_error_iff _ _ _).mp h
      exact (InvalidArgument.namesTwice_within _ _).trans (addTaskDeps_error he)
    · rcases (Except.bind_eq_error_iff _ _ _).mp h with h | ⟨d, -, h⟩
      · obtain ⟨e'', he, rfl⟩ := (Except.mapError_eq_error_iff _ _ _).mp h
        exact (InvalidArgument.namesTwice_within _ _).trans (addDocDeps_error he)
      · cases h
  · rcases (Except.bind_eq_error_iff _ _ _).mp h with h | ⟨t', -, h⟩
    · exact addTaskDeps_error h
    · rcases (Except.bind_eq_error_iff _ _ _).mp h with h | ⟨d', -, h⟩
      · exact addDocDeps_error h
      · cases h

end Modification

/-! ## What validation refuses for being named twice -/

def FailsTwice (o : Option InvalidArgument) : Prop := ∃ e, o = some e ∧ e.namesTwice = true

theorem failsTwice_orElse (a b : Option InvalidArgument) :
    FailsTwice (a <|> b) ↔ FailsTwice a ∨ a = none ∧ FailsTwice b := by
  cases a <;> simp [FailsTwice]

theorem not_failsTwice_findSome {α : Type} {l : List α} {f : α → Option InvalidArgument}
    (h : ∀ x, ¬FailsTwice (f x)) : ¬FailsTwice (l.findSome? f) := by
  rintro ⟨e, he, ht⟩
  obtain ⟨x, -, hx⟩ := List.exists_of_findSome?_eq_some he
  exact h x ⟨e, hx, ht⟩

theorem not_failsTwice_ite {c : Prop} [Decidable c] {o o' : Option InvalidArgument}
    (h : ¬FailsTwice o) (h' : ¬FailsTwice o') : ¬FailsTwice (if c then o else o') := by
  split_ifs <;> assumption

theorem not_failsTwice_none : ¬FailsTwice none := by
  simp [FailsTwice]

namespace Validate
variable (m : Modification)

theorem not_failsTwice_check (what s : String) (limit : ℕ) : ¬FailsTwice (check what s limit) := by
  apply not_failsTwice_ite _ not_failsTwice_none
  rintro ⟨e, he, ht⟩
  cases he
  cases ht

theorem not_failsTwice_both (what : String) (r : DocID) : ¬FailsTwice (both what r) := by
  apply not_failsTwice_ite _ not_failsTwice_none
  rintro ⟨e, he, ht⟩
  cases he
  cases ht

theorem not_failsTwice_docRefs : ¬FailsTwice (docRefs m) := by
  rw [docRefs, failsTwice_orElse, not_or, not_and]
  refine ⟨not_failsTwice_findSome fun d => ?_, fun _ =>
    not_failsTwice_findSome (not_failsTwice_both _)⟩
  rw [failsTwice_orElse, not_or, not_and]
  refine ⟨not_failsTwice_both _ d, fun _ => not_failsTwice_ite ?_ not_failsTwice_none⟩
  rintro ⟨e, he, ht⟩
  cases he
  cases ht

theorem not_failsTwice_doc (ns id key secondaryKey : String) :
    ¬FailsTwice (doc ns id key secondaryKey) := by
  simp only [doc, failsTwice_orElse, not_failsTwice_check, and_false, or_false, not_false_eq_true]

theorem not_failsTwice_lengths : ¬FailsTwice (lengths m) := by
  have hclaimant : ¬FailsTwice (if m.inserts.isEmpty && m.changes.isEmpty &&
      m.docInserts.isEmpty && m.docChanges.isEmpty && m.arrives.isEmpty &&
      m.docArrives.isEmpty then none else claimant m.claimant) :=
    not_failsTwice_ite not_failsTwice_none (not_failsTwice_check _ _ _)
  simp only [lengths, failsTwice_orElse, hclaimant, false_or, not_and, not_or]
  exact fun _ => ⟨not_failsTwice_findSome fun _ => not_failsTwice_check _ _ _,
    fun _ => ⟨not_failsTwice_findSome fun _ => not_failsTwice_check _ _ _,
    fun _ => ⟨not_failsTwice_findSome fun _ => not_failsTwice_doc _ _ _ _,
    fun _ => not_failsTwice_findSome fun _ => not_failsTwice_doc _ _ _ _⟩⟩⟩

theorem failsTwice_walkUnique {α κ : Type} [DecidableEq κ] {key : α → κ}
    {bad : α → Option InvalidArgument} {again : α → InvalidArgument} {l : List α}
    (hbad : ∀ x ∈ l, bad x = none) (hagain : ∀ x, (again x).namesTwice = true) :
    FailsTwice (walkUnique key bad again [] l) ↔ ¬(l.map key).Nodup := by
  have hnone := walkUnique_eq_none_iff key bad again [] l
  cases hw : walkUnique key bad again [] l with
  | none =>
    simp [FailsTwice, (hnone.mp hw).2.1]
  | some e =>
    rw [hw] at hnone
    obtain ⟨x, hx, he | rfl⟩ := walkUnique_eq_some _ _ _ _ hw
    · rw [hbad x hx] at he
      cases he
    · refine iff_of_true ⟨_, rfl, hagain x⟩ fun hnd => ?_
      exact absurd (hnone.mpr ⟨hbad, hnd, by simp⟩) (by simp)

theorem failsTwice_docPlaces : FailsTwice (docPlaces m) ↔ ¬m.places.Nodup :=
  failsTwice_walkUnique (fun _ _ => rfl) fun _ => rfl

theorem docPlaces_eq_none : docPlaces m = none ↔ m.places.Nodup := by
  rw [docPlaces, walkUnique_eq_none_iff]
  simp [Modification.places]

end Validate

namespace Modification
variable {m : Modification}

theorem arriveNames_nodup (h : m.WritesNamed) :
    m.arriveNames.Nodup ↔ (m.docArrives.map fun a => (a.docID.ns, a.docID.key)).Nodup := by
  have heq : m.arriveNames =
      (m.docArrives.map fun a => (a.docID.ns, a.docID.key)).map fun p => .set p.1 p.2 := by
    rw [arriveNames, List.map_map]
    apply List.map_congr_left
    intro a ha
    simp [DocID.named, (h.docArrives a ha).1]
  have hinj : Function.Injective fun p : String × String => DocName.set p.1 p.2 := by
    intro p q hpq
    injection hpq with h1 h2
    exact Prod.ext h1 h2
  rw [heq, List.nodup_map_iff hinj]

theorem findSome_named {α : Type} {l : List α} {name : α → String} {e : α → InvalidArgument}
    (h : ∀ x ∈ l, name x ≠ "") :
    (l.findSome? fun x => if name x = "" then some (e x) else none) = none := by
  rw [List.findSome?_eq_none_iff]
  exact fun x hx => if_neg (h x hx)

theorem ensureModifyKeys_spec (h : m.WritesNamed) (hne : m.isEmpty = false) :
    (FailsTwice m.ensureModifyKeys ↔ ¬m.arriveNames.Nodup) ∧
      (m.ensureModifyKeys = none ↔ m.arriveNames.Nodup) := by
  have hbad : ∀ a ∈ m.docArrives,
      (if !a.docID.isSetRef then
        some ({ format := "modify: doc arrival %v must name a doc set by key, not a doc"
                args := [.docID a.docID] } : InvalidArgument)
      else if a.docID.ns = "" then
        some { format := "modify: arrival of doc set %q must name a namespace"
               args := [.str a.docID.key] }
      else none) = none := by
    intro a ha
    obtain ⟨href, hns⟩ := h.docArrives a ha
    simp [href, hns]
  unfold ensureModifyKeys
  rw [hne, if_neg Bool.false_ne_true, findSome_named h.inserts, findSome_named h.changes,
    findSome_named h.arrives, findSome_named h.docInserts, arriveNames_nodup h]
  simp only [Option.orElse_eq_orElse, Option.orElse_none]
  refine ⟨Validate.failsTwice_walkUnique hbad fun _ => rfl, ?_⟩
  rw [walkUnique_eq_none_iff]
  simp only [List.not_mem_nil, not_false_eq_true, implies_true, and_true]
  exact and_iff_right hbad

theorem failsTwice_modification (h : m.WritesNamed) :
    FailsTwice (Validate.modification m) ↔
      ¬m.arriveNames.Nodup ∨ Validate.docRefs m = none ∧
        (¬m.places.Nodup ∨ ¬m.taskNames.Nodup ∨ ¬(m.docNames.map DocName.tableKey).Nodup) := by
  cases hne : m.isEmpty with
  | true =>
    simp only [isEmpty, Bool.and_eq_true, List.isEmpty_iff] at hne
    obtain ⟨⟨⟨⟨⟨⟨⟨⟨⟨h1, h2⟩, h3⟩, h4⟩, h5⟩, h6⟩, h7⟩, h8⟩, h9⟩, h10⟩ := hne
    have hempty : m.ensureModifyKeys = some { format := "modify: nothing to do" } :=
      if_pos (by simp [isEmpty, *])
    rw [Validate.modification, hempty]
    simp [FailsTwice, arriveNames, places, taskNames, docNames, InvalidArgument.namesTwice, *]
  | false =>
    obtain ⟨htwice, hnone⟩ := ensureModifyKeys_spec h hne
    simp only [Validate.modification, failsTwice_orElse, htwice, hnone,
      Validate.not_failsTwice_docRefs, Validate.failsTwice_docPlaces, Validate.docPlaces_eq_none,
      Validate.not_failsTwice_lengths, false_or, and_false, or_false]
    have hdeps := m.allDependencies_ok_iff
    cases hr : m.allDependencies with
    | ok r =>
      simp [FailsTwice, hr] at hdeps ⊢
      tauto
    | error e =>
      simp [FailsTwice, m.allDependencies_error hr, hr] at hdeps ⊢
      tauto

/-- When validation refuses exactly what is named twice. Where the doc references are well formed
and no set arrives twice, that is when a task, a doc or a set is named twice outside of arrivals,
or when a key of validation's own tables comes twice (two names filed under one key, or two
inserts at one place) just in case some set is both named and rearrived. -/
def AgreesOnTwice (m : Modification) : Prop :=
  ¬m.arriveNames.Nodup ∨
  if Validate.docRefs m = none then
    ¬m.taskNames.Nodup ∨ ¬m.docNames.Nodup ∨
      (¬(m.docNames.map DocName.tableKey).Nodup ∨ ¬m.places.Nodup ↔
        ∃ n ∈ m.arriveNames, n ∈ m.docNames)
  else m.taskNames.Nodup ∧ (m.docNames ++ m.arriveNames).Nodup

instance (m : Modification) : Decidable m.AgreesOnTwice := by
  unfold AgreesOnTwice
  infer_instance

end Modification

/-- Validation refuses a modification for naming something twice exactly if it does, just in case
the modification meets `AgreesOnTwice`. -/
theorem refusedTwice_iff_named (m : Modification) (h : m.WritesNamed) :
    (FailsTwice (Validate.modification m) ↔ m.NamesTwice) ↔ m.AgreesOnTwice := by
  have hkey : (m.docNames.map DocName.tableKey).Nodup → m.docNames.Nodup := List.Nodup.of_map _
  have hnames : (m.docNames ++ m.arriveNames).Nodup ↔
      m.docNames.Nodup ∧ m.arriveNames.Nodup ∧ ¬∃ n ∈ m.arriveNames, n ∈ m.docNames := by
    rw [List.nodup_append']
    refine and_congr_right fun _ => and_congr_right fun _ => ?_
    rw [not_exists]
    exact forall_congr' fun n => ⟨fun hd hn => hd hn.2 hn.1, fun hn hd ha => hn ⟨ha, hd⟩⟩
  rw [Modification.failsTwice_modification h, Modification.AgreesOnTwice, Modification.NamesTwice,
    hnames]
  generalize (∃ n ∈ m.arriveNames, n ∈ m.docNames) = both
  -- the rest is the propositional comparison, name by name
  by_cases ha : m.arriveNames.Nodup
  · by_cases ht : m.taskNames.Nodup
    · by_cases hd : m.docNames.Nodup
      · by_cases href : Validate.docRefs m = none
        · simp [ha, ht, hd, href, or_comm]
        · simp [ha, ht, hd, href]
      · have hk : ¬(m.docNames.map DocName.tableKey).Nodup := fun hk => hd (hkey hk)
        by_cases href : Validate.docRefs m = none <;> simp [ha, ht, hd, hk, href]
    · by_cases href : Validate.docRefs m = none <;> simp [ha, ht, href]
  · simp [ha]

def manyNames : Modification where
  claimant := "w"
  changes := [{ task := { queue := "q", id := "t", version := 3 } }]
  docChanges := [{ doc := { ns := "n", id := "d", version := 1 } }]
  docDepends := [newDocSetRef "n" "k" 1]
  docArrives := [{ docID := newDocSetRef "n" "l" 2 }]

theorem refusedTwice_iff_named_many :
    (FailsTwice (Validate.modification manyNames) ↔ manyNames.NamesTwice) :=
  (refusedTwice_iff_named manyNames
    ⟨by decide, by decide, by decide, by decide, by decide⟩).mpr (by decide)

/-- Depends on two different sets of one namespace are refused, for a doc nobody named. -/
theorem setDepends_refused :
    let m : Modification :=
      { claimant := "w"
        changes := [{ task := { queue := "q", id := "t" } }]
        docDepends := [newDocSetRef "n" "k" 1, newDocSetRef "n" "l" 1] }
    m.WritesNamed ∧ ¬m.NamesTwice ∧ Validate.docRefs m = none ∧
    Validate.modification m = some
      { format := "doc %q in namespace %q appears in more than one operation of the modification"
        args := [.str "", .str "n"]
        contexts := ["all dependencies"] } :=
  ⟨⟨by decide, by decide, by decide, by decide, by decide⟩,
    by unfold Modification.NamesTwice; decide, by decide, by decide⟩

end EntroQ
