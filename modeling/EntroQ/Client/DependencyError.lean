import EntroQ.Client.Types
import EntroQ.Foundation.FiniteMap

/-! # Dependency errors

What a modification's operations fail on, class by class. `Modification.dependencyError` checks
the operations against the records a backend found for them, and `merge` joins the failures of
several passes, naming each task or doc once in a class. -/

namespace EntroQ
open Foundation

structure DependencyError where
  inserts : List TaskID := []
  depends : List TaskID := []
  deletes : List TaskID := []
  changes : List TaskID := []
  claims : List TaskID := []
  arrives : List TaskID := []
  docInserts : List DocID := []
  docDepends : List DocID := []
  docDeletes : List DocID := []
  docChanges : List DocID := []
  docClaims : List DocID := []
  docArrives : List DocID := []
  message : Message := {}
  deriving DecidableEq

namespace DependencyError

def hasMissing (e : DependencyError) : Bool :=
  !e.depends.isEmpty || !e.deletes.isEmpty || !e.changes.isEmpty || !e.arrives.isEmpty

def hasMissingDocs (e : DependencyError) : Bool :=
  !e.docDepends.isEmpty || !e.docDeletes.isEmpty || !e.docChanges.isEmpty || !e.docArrives.isEmpty

def hasClaimedDocs (e : DependencyError) : Bool := !e.docClaims.isEmpty

def hasClaims (e : DependencyError) : Bool := !e.claims.isEmpty

def hasCollisions (e : DependencyError) : Bool := !e.inserts.isEmpty || !e.docInserts.isEmpty

def hasAny (e : DependencyError) : Bool :=
  e.hasMissing || e.hasCollisions || e.hasClaims || e.hasMissingDocs || e.hasClaimedDocs

def onlyClaims (e : DependencyError) : Bool :=
  !e.hasMissing && !e.hasCollisions && !e.hasMissingDocs

def reported (e : DependencyError) : Option DependencyError := if e.hasAny then some e else none

end DependencyError

inductive TaskClass
  | inserts | depends | deletes | changes | claims | arrives
  deriving DecidableEq

inductive DocClass
  | inserts | depends | deletes | changes | claims | arrives
  deriving DecidableEq

namespace DependencyError

def tasks (e : DependencyError) : TaskClass → List TaskID
  | .inserts => e.inserts
  | .depends => e.depends
  | .deletes => e.deletes
  | .changes => e.changes
  | .claims => e.claims
  | .arrives => e.arrives

def docs (e : DependencyError) : DocClass → List DocID
  | .inserts => e.docInserts
  | .depends => e.docDepends
  | .deletes => e.docDeletes
  | .changes => e.docChanges
  | .claims => e.docClaims
  | .arrives => e.docArrives

theorem hasAny_eq_false_iff (e : DependencyError) :
    e.hasAny = false ↔ (∀ c, e.tasks c = []) ∧ ∀ c, e.docs c = [] := by
  simp only [hasAny, hasMissing, hasCollisions, hasClaims, hasMissingDocs, hasClaimedDocs,
    Bool.or_eq_false_iff, Bool.not_eq_false', List.isEmpty_iff]
  constructor
  · rintro ⟨⟨⟨⟨⟨⟨⟨h1, h2⟩, h3⟩, h4⟩, h5, h6⟩, h7⟩, ⟨⟨h8, h9⟩, h10⟩, h11⟩, h12⟩
    exact ⟨fun c => by cases c <;> assumption, fun c => by cases c <;> assumption⟩
  · rintro ⟨ht, hd⟩
    exact ⟨⟨⟨⟨⟨⟨⟨ht .depends, ht .deletes⟩, ht .changes⟩, ht .arrives⟩, ht .inserts, hd .inserts⟩,
      ht .claims⟩, ⟨⟨hd .depends, hd .deletes⟩, hd .changes⟩, hd .arrives⟩, hd .claims⟩

theorem onlyClaims_iff (e : DependencyError) :
    e.onlyClaims = true ↔
      (∀ c, c ≠ .claims → e.tasks c = []) ∧ ∀ c, c ≠ .claims → e.docs c = [] := by
  simp only [onlyClaims, hasMissing, hasCollisions, hasMissingDocs, Bool.and_eq_true,
    Bool.not_eq_true', Bool.or_eq_false_iff, Bool.not_eq_false', List.isEmpty_iff]
  constructor
  · rintro ⟨⟨⟨⟨⟨h1, h2⟩, h3⟩, h4⟩, h5, h6⟩, ⟨⟨h7, h8⟩, h9⟩, h10⟩
    exact ⟨fun c hc => by cases c <;> first | assumption | exact absurd rfl hc,
      fun c hc => by cases c <;> first | assumption | exact absurd rfl hc⟩
  · rintro ⟨ht, hd⟩
    exact ⟨⟨⟨⟨⟨ht .depends nofun, ht .deletes nofun⟩, ht .changes nofun⟩, ht .arrives nofun⟩,
      ht .inserts nofun, hd .inserts nofun⟩,
      ⟨⟨hd .depends nofun, hd .deletes nofun⟩, hd .changes nofun⟩, hd .arrives nofun⟩

theorem reported_eq_none_iff (e : DependencyError) : e.reported = none ↔ e.hasAny = false := by
  unfold reported
  split_ifs with h <;> simp [h]

theorem eq_of_reported {e e' : DependencyError} (h : e.reported = some e') :
    e' = e ∧ e.hasAny = true := by
  unfold reported at h
  split_ifs at h with ha
  exact ⟨(Option.some.inj h).symm, ha⟩

/-- What is not reported is empty. -/
theorem reported_tasks (e : DependencyError) (c : TaskClass) :
    (e.reported.getD {}).tasks c = e.tasks c := by
  unfold reported
  split_ifs with h
  · rfl
  · rw [(e.hasAny_eq_false_iff.mp (by simpa using h)).1 c]
    cases c <;> rfl

theorem reported_docs (e : DependencyError) (c : DocClass) :
    (e.reported.getD {}).docs c = e.docs c := by
  unfold reported
  split_ifs with h
  · rfl
  · rw [(e.hasAny_eq_false_iff.mp (by simpa using h)).2 c]
    cases c <;> rfl

end DependencyError

/-- Keep the first item of each name, in order. -/
def dedupFrom {α κ : Type*} [DecidableEq κ] (name : α → κ) (seen : List κ) : List α → List α
  | [] => []
  | x :: xs =>
    if name x ∈ seen then dedupFrom name seen xs
    else x :: dedupFrom name (name x :: seen) xs

def dedupTaskIDs (ids : List TaskID) : List TaskID := dedupFrom TaskID.id [] ids

def DocID.name (r : DocID) : String × String × String := (r.ns, r.id, r.key)

theorem DocID.name_inj {r r' : DocID} (h : r.name = r'.name) :
    r.ns = r'.ns ∧ r.id = r'.id ∧ r.key = r'.key := by
  simpa [name] using h

def dedupDocIDs (ids : List DocID) : List DocID := dedupFrom DocID.name [] ids

def DependencyError.merged (a b : DependencyError) : DependencyError where
  inserts := dedupTaskIDs (a.inserts ++ b.inserts)
  depends := dedupTaskIDs (a.depends ++ b.depends)
  deletes := dedupTaskIDs (a.deletes ++ b.deletes)
  changes := dedupTaskIDs (a.changes ++ b.changes)
  claims := dedupTaskIDs (a.claims ++ b.claims)
  arrives := dedupTaskIDs (a.arrives ++ b.arrives)
  docInserts := dedupDocIDs (a.docInserts ++ b.docInserts)
  docDepends := dedupDocIDs (a.docDepends ++ b.docDepends)
  docDeletes := dedupDocIDs (a.docDeletes ++ b.docDeletes)
  docChanges := dedupDocIDs (a.docChanges ++ b.docChanges)
  docClaims := dedupDocIDs (a.docClaims ++ b.docClaims)
  docArrives := dedupDocIDs (a.docArrives ++ b.docArrives)
  message := if a.message.format = "" then b.message else a.message

def DependencyError.merge (m other : Option DependencyError) : Option DependencyError :=
  ((m.getD {}).merged (other.getD {})).reported

def DependencyError.nameArrivals (e : DependencyError) (mod : Modification) : DependencyError :=
  if mod.arrives.isEmpty then e
  else
    let arriving (c : TaskID) : Bool := mod.arrives.any (fun a => a.taskID.id == c.id)
    { e with arrives := e.arrives ++ e.changes.filter arriving
             changes := e.changes.filter (fun c => !arriving c) }

/-- `mod` with its task arrivals turned into changes of the stored tasks. -/
def arrivalChanges (mod : Modification) (found : FMap String Task) : Modification :=
  { mod with
    changes := mod.changes ++ mod.arrives.map (fun a => a.change (found.lookup a.taskID.id))
    arrives := [] }

theorem TaskArrival.change_origin (a : TaskArrival) {stored : Option Task}
    (h : ∀ t, stored = some t → t.id = a.taskID.id) : (a.change stored).origin = a.taskID := by
  unfold TaskChange.origin TaskArrival.change
  cases stored with
  | none => rfl
  | some t => simp [h t rfl]

theorem arrivalChanges_origins (mod : Modification) {found : FMap String Task}
    (h : ∀ id t, found.lookup id = some t → t.id = id) :
    (arrivalChanges mod found).changes.map TaskChange.origin =
      mod.changes.map TaskChange.origin ++ mod.arrives.map TaskArrival.taskID := by
  unfold arrivalChanges
  rw [List.map_append, List.map_map]
  congr 1
  apply List.map_congr_left
  intro a _
  exact a.change_origin (h a.taskID.id)

def docKey (ns id : String) : String := ns ++ "\x00" ++ id

namespace Modification

/-- The task is held by someone other than this modification's claimant. -/
def otherwiseClaimed (m : Modification) (t : Task) (now : Time) : Bool :=
  decide (now < t.atTime) && t.claimant != "" && t.claimant != m.claimant

section Checks
variable (m : Modification) (found : FMap String Task) (foundDocs : FMap String Doc) (now : Time)

def badInserts : List TaskID :=
  m.inserts.filterMap (fun t => (found.lookup t.id).map Task.idVersion)

def atVersion (id : String) (version : Int32) : Option Task :=
  (found.lookup id).filter (fun t => t.version == version)

def missingChanges : List TaskID :=
  (m.changes.filter (fun c => (atVersion found c.task.id c.task.version).isNone)).map
    (fun c => { id := c.task.id, version := c.task.version })

def claimedChanges : List TaskID :=
  (m.changes.filter (fun c =>
    (atVersion found c.task.id c.task.version).any (fun t => m.otherwiseClaimed t now))).map
    (fun c => { id := c.task.id, version := c.task.version })

def missingDeletes : List TaskID :=
  m.deletes.filter (fun d => (atVersion found d.id d.version).isNone)

def claimedDeletes : List TaskID :=
  m.deletes.filter (fun d =>
    (atVersion found d.id d.version).any (fun t => m.otherwiseClaimed t now))

def missingDepends : List TaskID :=
  m.depends.filter (fun d => (atVersion found d.id d.version).isNone)

def badDocInserts : List DocID :=
  (m.docInserts.filter (fun d =>
    d.id != "" && (foundDocs.lookup (docKey d.ns d.id)).isSome)).map
    (fun d => { ns := d.ns, id := d.id })

def docAtVersion (ns id : String) (version : Int32) : Option Doc :=
  (foundDocs.lookup (docKey ns id)).filter (fun d => d.version == version)

def docOtherwiseClaimed (d : Doc) : Bool :=
  d.claimant != "" && d.claimant != m.claimant && decide (now < d.atTime)

def missingDocChanges : List DocID :=
  (m.docChanges.filter (fun c =>
    (docAtVersion foundDocs c.doc.ns c.doc.id c.doc.version).isNone)).map
    (fun c => newDocID c.doc.ns c.doc.id c.doc.version)

def claimedDocChanges : List DocID :=
  (m.docChanges.filter (fun c =>
    (docAtVersion foundDocs c.doc.ns c.doc.id c.doc.version).any
      (m.docOtherwiseClaimed now))).map
    (fun c => newDocID c.doc.ns c.doc.id c.doc.version)

def missingDocDeletes : List DocID :=
  m.docDeletes.filter (fun d => (docAtVersion foundDocs d.ns d.id d.version).isNone)

def claimedDocDeletes : List DocID :=
  m.docDeletes.filter (fun d =>
    (docAtVersion foundDocs d.ns d.id d.version).any (m.docOtherwiseClaimed now))

def missingDocDepends : List DocID :=
  m.docDepends.filter (fun d => (docAtVersion foundDocs d.ns d.id d.version).isNone)

/-- Problems with the records found for the modification's operations. -/
def failures : DependencyError where
  inserts := m.badInserts found
  changes := m.missingChanges found
  deletes := m.missingDeletes found
  depends := m.missingDepends found
  claims := m.claimedDeletes found now ++ m.claimedChanges found now
  docInserts := m.badDocInserts foundDocs
  docChanges := m.missingDocChanges foundDocs
  docDeletes := m.missingDocDeletes foundDocs
  docDepends := m.missingDocDepends foundDocs
  docClaims := m.claimedDocDeletes foundDocs now ++ m.claimedDocChanges foundDocs now

def dependencyError : Option DependencyError := (m.failures found foundDocs now).reported

end Checks
end Modification

/-- Naming the arrivals moves them from one class to another. -/
theorem DependencyError.mem_nameArrivals (e : DependencyError) (mod : Modification) (r : TaskID) :
    (r ∈ (e.nameArrivals mod).changes ↔
      r ∈ e.changes ∧ ∀ a ∈ mod.arrives, a.taskID.id ≠ r.id) ∧
    (r ∈ (e.nameArrivals mod).arrives ↔
      r ∈ e.arrives ∨ r ∈ e.changes ∧ ∃ a ∈ mod.arrives, a.taskID.id = r.id) := by
  unfold nameArrivals
  split_ifs with h
  · rw [List.isEmpty_iff] at h
    simp [h]
  · simp [List.mem_filter]

theorem DependencyError.nameArrivals_hasCollisions (e : DependencyError) (mod : Modification) :
    (e.nameArrivals mod).hasCollisions = e.hasCollisions := by
  unfold nameArrivals
  split_ifs <;> rfl

section Dedup
variable {α κ : Type*} [DecidableEq κ] (name : α → κ)

theorem mem_of_mem_dedupFrom (seen : List κ) (l : List α) (x : α)
    (h : x ∈ dedupFrom name seen l) : x ∈ l ∧ name x ∉ seen := by
  induction l generalizing seen with
  | nil => simp [dedupFrom] at h
  | cons y ys ih =>
    rw [dedupFrom] at h
    split_ifs at h with hy
    · exact ⟨List.mem_cons_of_mem _ (ih seen h).1, (ih seen h).2⟩
    · rcases List.mem_cons.mp h with rfl | h
      · exact ⟨List.mem_cons_self, hy⟩
      · obtain ⟨hm, hn⟩ := ih _ h
        exact ⟨List.mem_cons_of_mem _ hm, fun hs => hn (List.mem_cons_of_mem _ hs)⟩

theorem exists_mem_dedupFrom (seen : List κ) (l : List α) (x : α) (hx : x ∈ l)
    (hs : name x ∉ seen) : ∃ y ∈ dedupFrom name seen l, name y = name x := by
  induction l generalizing seen with
  | nil => simp at hx
  | cons y ys ih =>
    rw [dedupFrom]
    rcases List.mem_cons.mp hx with rfl | hx
    · rw [if_neg hs]
      exact ⟨x, List.mem_cons_self, rfl⟩
    · split_ifs with hy
      · exact ih seen hx hs
      · by_cases hxy : name x = name y
        · exact ⟨y, List.mem_cons_self, hxy.symm⟩
        · obtain ⟨z, hz, he⟩ := ih (name y :: seen) hx (by simp [hxy, hs])
          exact ⟨z, List.mem_cons_of_mem _ hz, he⟩

end Dedup

namespace DependencyError

theorem merged_tasks (a b : DependencyError) (c : TaskClass) :
    (a.merged b).tasks c = dedupTaskIDs (a.tasks c ++ b.tasks c) := by
  cases c <;> rfl

theorem merged_docs (a b : DependencyError) (c : DocClass) :
    (a.merged b).docs c = dedupDocIDs (a.docs c ++ b.docs c) := by
  cases c <;> rfl

/-- The error has what the parts have, each task or doc named at least once in its class. -/
structure Collects (e : DependencyError) (parts : List DependencyError) : Prop where
  tasks : ∀ c, ∀ r ∈ e.tasks c, ∃ x ∈ parts, r ∈ x.tasks c
  docs : ∀ c, ∀ r ∈ e.docs c, ∃ x ∈ parts, r ∈ x.docs c
  tasks_named : ∀ c, ∀ x ∈ parts, ∀ r ∈ x.tasks c, ∃ r' ∈ e.tasks c, r'.id = r.id
  docs_named : ∀ c, ∀ x ∈ parts, ∀ r ∈ x.docs c, ∃ r' ∈ e.docs c, r'.name = r.name

theorem Collects.self (e : DependencyError) : e.Collects [e] where
  tasks c r hr := ⟨e, by simp, hr⟩
  docs c r hr := ⟨e, by simp, hr⟩
  tasks_named c x hx r hr := ⟨r, List.mem_singleton.mp hx ▸ hr, rfl⟩
  docs_named c x hx r hr := ⟨r, List.mem_singleton.mp hx ▸ hr, rfl⟩

theorem Collects.congr {e e' : DependencyError} {parts : List DependencyError}
    (h : e.Collects parts) (ht : ∀ c, e'.tasks c = e.tasks c) (hd : ∀ c, e'.docs c = e.docs c) :
    e'.Collects parts where
  tasks c r hr := h.tasks c r (ht c ▸ hr)
  docs c r hr := h.docs c r (hd c ▸ hr)
  tasks_named c x hx r hr := by rw [ht]; exact h.tasks_named c x hx r hr
  docs_named c x hx r hr := by rw [hd]; exact h.docs_named c x hx r hr

theorem Collects.reported {e : DependencyError} {parts : List DependencyError}
    (h : e.Collects parts) : (e.reported.getD {}).Collects parts :=
  h.congr e.reported_tasks e.reported_docs

theorem Collects.merged {a b : DependencyError} {ps qs : List DependencyError}
    (ha : a.Collects ps) (hb : b.Collects qs) : (a.merged b).Collects (ps ++ qs) := by
  constructor
  · intro c r hr
    rw [merged_tasks] at hr
    rcases List.mem_append.mp (mem_of_mem_dedupFrom _ _ _ _ hr).1 with hr | hr
    · obtain ⟨x, hx, hrx⟩ := ha.tasks c r hr
      exact ⟨x, List.mem_append_left _ hx, hrx⟩
    · obtain ⟨x, hx, hrx⟩ := hb.tasks c r hr
      exact ⟨x, List.mem_append_right _ hx, hrx⟩
  · intro c r hr
    rw [merged_docs] at hr
    rcases List.mem_append.mp (mem_of_mem_dedupFrom _ _ _ _ hr).1 with hr | hr
    · obtain ⟨x, hx, hrx⟩ := ha.docs c r hr
      exact ⟨x, List.mem_append_left _ hx, hrx⟩
    · obtain ⟨x, hx, hrx⟩ := hb.docs c r hr
      exact ⟨x, List.mem_append_right _ hx, hrx⟩
  · intro c x hx r hr
    have hin : ∃ r' ∈ a.tasks c ++ b.tasks c, r'.id = r.id := by
      rcases List.mem_append.mp hx with hx | hx
      · obtain ⟨r', hr', he⟩ := ha.tasks_named c x hx r hr
        exact ⟨r', List.mem_append_left _ hr', he⟩
      · obtain ⟨r', hr', he⟩ := hb.tasks_named c x hx r hr
        exact ⟨r', List.mem_append_right _ hr', he⟩
    obtain ⟨r', hr', he⟩ := hin
    obtain ⟨r'', hr'', he'⟩ := exists_mem_dedupFrom TaskID.id [] _ r' hr' (by simp)
    rw [merged_tasks]
    exact ⟨r'', hr'', he'.trans he⟩
  · intro c x hx r hr
    have hin : ∃ r' ∈ a.docs c ++ b.docs c, r'.name = r.name := by
      rcases List.mem_append.mp hx with hx | hx
      · obtain ⟨r', hr', he⟩ := ha.docs_named c x hx r hr
        exact ⟨r', List.mem_append_left _ hr', he⟩
      · obtain ⟨r', hr', he⟩ := hb.docs_named c x hx r hr
        exact ⟨r', List.mem_append_right _ hr', he⟩
    obtain ⟨r', hr', he⟩ := hin
    obtain ⟨r'', hr'', he'⟩ := exists_mem_dedupFrom DocID.name [] _ r' hr' (by simp)
    rw [merged_docs]
    exact ⟨r'', hr'', he'.trans he⟩

/-- A failure is reported as such if no two of the parts' failures have one name. -/
theorem Collects.mem_tasks {e : DependencyError} {parts : List DependencyError}
    (h : e.Collects parts) {c : TaskClass} {P : TaskID → Prop}
    (hparts : ∀ r, (∃ x ∈ parts, r ∈ x.tasks c) ↔ P r)
    (hone : ∀ r r', P r → P r' → r.id = r'.id → r = r') (r : TaskID) : r ∈ e.tasks c ↔ P r := by
  rw [← hparts]
  constructor
  · exact h.tasks c r
  · rintro ⟨x, hx, hr⟩
    obtain ⟨r', hr', he⟩ := h.tasks_named c x hx r hr
    rwa [← hone r' r ((hparts r').mp (h.tasks c r' hr')) ((hparts r).mp ⟨x, hx, hr⟩) he]

theorem Collects.mem_docs {e : DependencyError} {parts : List DependencyError}
    (h : e.Collects parts) {c : DocClass} {P : DocID → Prop}
    (hparts : ∀ r, (∃ x ∈ parts, r ∈ x.docs c) ↔ P r)
    (hone : ∀ r r', P r → P r' → r.name = r'.name → r = r') (r : DocID) : r ∈ e.docs c ↔ P r := by
  rw [← hparts]
  constructor
  · exact h.docs c r
  · rintro ⟨x, hx, hr⟩
    obtain ⟨r', hr', he⟩ := h.docs_named c x hx r hr
    rwa [← hone r' r ((hparts r').mp (h.docs c r' hr')) ((hparts r).mp ⟨x, hx, hr⟩) he]

theorem Collects.named_tasks {e : DependencyError} {parts : List DependencyError}
    (h : e.Collects parts) {c : TaskClass} {ops : List TaskID} (hn : (ops.map TaskID.id).Nodup)
    {bad : TaskID → Prop}
    (hsound : ∀ r, (∃ x ∈ parts, r ∈ x.tasks c) →
      ∃ o ∈ ops, o.id = r.id ∧ o.version = r.version ∧ bad o)
    (hall : ∀ o ∈ ops, bad o → ∃ x ∈ parts, ∃ r ∈ x.tasks c, r.id = o.id)
    (id : String) (version : Int32) :
    (∃ r ∈ e.tasks c, r.id = id ∧ r.version = version) ↔
      ∃ o ∈ ops, o.id = id ∧ o.version = version ∧ bad o := by
  constructor
  · rintro ⟨r, hr, rfl, rfl⟩
    exact hsound r (h.tasks c r hr)
  · rintro ⟨o, ho, rfl, rfl, hb⟩
    obtain ⟨x, hx, r, hr, hid⟩ := hall o ho hb
    obtain ⟨r', hr', hid'⟩ := h.tasks_named c x hx r hr
    obtain ⟨o', ho', h1, h2, -⟩ := hsound r' (h.tasks c r' hr')
    have := List.inj_on_of_nodup_map hn ho' ho (h1.trans (hid'.trans hid))
    exact ⟨r', hr', hid'.trans hid, by rw [← h2, this]⟩

theorem Collects.names_docs {e : DependencyError} {parts : List DependencyError}
    (h : e.Collects parts) (c : DocClass) (name : String × String × String) :
    (∃ r ∈ e.docs c, r.name = name) ↔ ∃ x ∈ parts, ∃ r ∈ x.docs c, r.name = name := by
  constructor
  · rintro ⟨r, hr, rfl⟩
    obtain ⟨x, hx, hrx⟩ := h.docs c r hr
    exact ⟨x, hx, r, hrx, rfl⟩
  · rintro ⟨x, hx, r, hr, rfl⟩
    exact h.docs_named c x hx r hr

theorem Collects.tasks_eq_nil {e : DependencyError} {parts : List DependencyError}
    (h : e.Collects parts) (c : TaskClass) : e.tasks c = [] ↔ ∀ x ∈ parts, x.tasks c = [] := by
  simp only [List.eq_nil_iff_forall_not_mem]
  constructor
  · intro he x hx r hr
    obtain ⟨r', hr', -⟩ := h.tasks_named c x hx r hr
    exact he r' hr'
  · intro hp r hr
    obtain ⟨x, hx, hrx⟩ := h.tasks c r hr
    exact hp x hx r hrx

theorem Collects.docs_eq_nil {e : DependencyError} {parts : List DependencyError}
    (h : e.Collects parts) (c : DocClass) : e.docs c = [] ↔ ∀ x ∈ parts, x.docs c = [] := by
  simp only [List.eq_nil_iff_forall_not_mem]
  constructor
  · intro he x hx r hr
    obtain ⟨r', hr', -⟩ := h.docs_named c x hx r hr
    exact he r' hr'
  · intro hp r hr
    obtain ⟨x, hx, hrx⟩ := h.docs c r hr
    exact hp x hx r hrx

theorem Collects.hasAny_eq_false {e : DependencyError} {parts : List DependencyError}
    (h : e.Collects parts) : e.hasAny = false ↔ ∀ x ∈ parts, x.hasAny = false := by
  simp only [hasAny_eq_false_iff, h.tasks_eq_nil, h.docs_eq_nil]
  exact ⟨fun ⟨h1, h2⟩ x hx => ⟨fun c => h1 c x hx, fun c => h2 c x hx⟩,
    fun hp => ⟨fun c x hx => (hp x hx).1 c, fun c x hx => (hp x hx).2 c⟩⟩

theorem Collects.onlyClaims {e : DependencyError} {parts : List DependencyError}
    (h : e.Collects parts) : e.onlyClaims = true ↔ ∀ x ∈ parts, x.onlyClaims = true := by
  simp only [onlyClaims_iff, h.tasks_eq_nil, h.docs_eq_nil]
  exact ⟨fun ⟨h1, h2⟩ x hx => ⟨fun c hc => h1 c hc x hx, fun c hc => h2 c hc x hx⟩,
    fun hp => ⟨fun c hc x hx => (hp x hx).1 c hc, fun c hc x hx => (hp x hx).2 c hc⟩⟩

theorem onlyClaims_of_hasAny {e : DependencyError} (h : e.hasAny = false) :
    e.onlyClaims = true := by
  rw [hasAny_eq_false_iff] at h
  exact (onlyClaims_iff e).mpr ⟨fun c _ => h.1 c, fun c _ => h.2 c⟩

end DependencyError
end EntroQ
