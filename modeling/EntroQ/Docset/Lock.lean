import EntroQ.Client.Validate

/-! # Doc set locks and claims

A doc set is the docs of one primary key in a namespace. Its lock carries the only version,
claimant and arrival its members have. A claim takes every set it names or none of them. -/

namespace EntroQ.Docset

structure SetName where
  ns : String
  key : String
  deriving DecidableEq

structure Lock where
  stored : Bool := false
  version : Int32 := 0
  claimant : String := ""
  atTime : Time := 0
  numDocs : ℤ := 0
  deriving DecidableEq

/-- The lock of a set nothing has stored. -/
def absent : Lock := {}

namespace Lock

def held (l : Lock) (now : Time) : Bool := l.claimant != "" && decide (now < l.atTime)

def heldByOther (l : Lock) (claimant : String) (now : Time) : Bool :=
  l.held now && l.claimant != claimant

end Lock

/-- The member as readers see it, with its set's version and claim. -/
def overlay (d : Doc) (l : Lock) : Doc :=
  { d with version := l.version, claimant := l.claimant, atTime := l.atTime }

/-- The lock claimed until `until_`, or `none` if someone else holds it. -/
def claim (l : Lock) (claimant : String) (now until_ : Time) : Option Lock :=
  if l.heldByOther claimant now then none
  else some { stored := true, version := l.version + 1, claimant, atTime := until_,
              numDocs := l.numDocs }

/-- The version a write to a set produces. -/
def written (l : Lock) : Int32 := if l.stored then l.version + 1 else 0

def setsOf (cq : DocClaim) : List SetName := cq.sets.map (fun s => ⟨s.ns, s.key⟩)

def taskDepError (id : TaskID) (what format : String) (args : List MessageArg) :
    DependencyError :=
  { depends := [id]
    message := { format := format ++ ": doc claim depends on a %s", args := args ++ [.str what] } }

def missingTaskError (id : TaskID) (format : String) (args : List MessageArg) : DependencyError :=
  taskDepError id "missing task" format args

def lapsedTaskError (id : TaskID) (format : String) (args : List MessageArg) : DependencyError :=
  taskDepError id "task whose lease lapsed" format args

def ref (g : SetName) (l : Lock) : DocID := newDocSetRef g.ns g.key l.version

def heldError (g : SetName) (l : Lock) (members : List Doc) : DependencyError :=
  { message :=
      { format := "doc set %q in namespace %q is claimed by %s until %v"
        args := [.str g.key, .str g.ns, .str l.claimant, .time l.atTime] }
    docClaims := ref g l :: members.map (fun d => newDocID d.ns d.id l.version) }

def current (g : SetName) (l : Lock) : DocSet :=
  { ns := g.ns, key := g.key, version := l.version, claimant := l.claimant, atTime := l.atTime,
    numDocs := l.numDocs }

def claimed (g : SetName) (l : Lock) (members : List Doc) : DocSet :=
  { current g l with docs := members.map (fun d => overlay d l) }

inductive ClaimFailure
  | dependency (e : DependencyError)
  | invalid (e : InvalidArgument)
  deriving DecidableEq

section Claim
variable (cq : DocClaim) (now until_ : Time) (lock : SetName → Lock)
  (members : SetName → List Doc)

/-- The sets someone else holds, in one error, on top of those found before. -/
def heldAmong (found : Option DependencyError) (sets : List SetName) : Option DependencyError :=
  sets.foldl
    (fun found g =>
      match claim (lock g) cq.claimant now until_, found with
      | some _, found => found
      | none, none => some (heldError g (lock g) (members g))
      | none, some e => DependencyError.merge (some e) (some (heldError g (lock g) (members g))))
    found

def claimAll : Except ClaimFailure (List Lock) :=
  if until_ ≤ now then
    match cq.taskToMatch with
    | some t => .error (.dependency (lapsedTaskError t
        "doc claim matching task %s, whose lease ran out at %v (now %v)"
        [.str t.id, .time until_, .time now]))
    | none => .error (.invalid
        { format := "doc claim until %v, which is not after now (%v)"
          args := [.time until_, .time now] })
  else
    match heldAmong cq now until_ lock members none (setsOf cq) with
    | some e => .error (.dependency e)
    | none => .ok ((setsOf cq).filterMap (fun g => claim (lock g) cq.claimant now until_))

/-- What a claim returns: each set at its new lock, with its members unless left out. -/
def claimedSets (locks : List Lock) : List DocSet :=
  (cq.sets.zip locks).map fun (s, l) =>
    if s.omitMembers then current ⟨s.ns, s.key⟩ l
    else claimed ⟨s.ns, s.key⟩ l (members ⟨s.ns, s.key⟩)

end Claim

theorem claim_eq_none_iff (l : Lock) (c : String) (now until_ : Time) :
    claim l c now until_ = none ↔ l.heldByOther c now = true := by
  unfold claim
  split_ifs with h <;> simp [h]

theorem claim_eq_some (l l' : Lock) (c : String) (now until_ : Time)
    (h : claim l c now until_ = some l') :
    l.heldByOther c now = false ∧
      l' = { stored := true, version := l.version + 1, claimant := c, atTime := until_,
             numDocs := l.numDocs } := by
  unfold claim at h
  split_ifs at h with hh
  exact ⟨by simpa using hh, by simpa using h.symm⟩

theorem merge_some_docClaims (a b : DependencyError) (hb : b.docClaims ≠ []) :
    ∃ e, DependencyError.merge (some a) (some b) = some e ∧
      e.docClaims = dedupDocIDs (a.docClaims ++ b.docClaims) := by
  refine ⟨a.merged b, if_pos ?_, rfl⟩
  have hany : b.hasAny = true := by simp [DependencyError.hasAny, DependencyError.hasClaimedDocs, hb]
  rw [Option.getD_some, Option.getD_some, ← Bool.not_eq_false,
    ((DependencyError.Collects.self a).merged (DependencyError.Collects.self b)).hasAny_eq_false]
  simp [hany]

section ClaimSpec
variable (cq : DocClaim) (now until_ : Time) (lock : SetName → Lock)
  (members : SetName → List Doc)

theorem heldAmong_some (e : DependencyError) (sets : List SetName) :
    ∃ e', heldAmong cq now until_ lock members (some e) sets = some e' ∧
      (∀ r ∈ e.docClaims, ∃ r' ∈ e'.docClaims, r'.name = r.name) ∧
      ∀ g ∈ sets, (lock g).heldByOther cq.claimant now = true →
        ∃ r ∈ e'.docClaims, r.name = (ref g (lock g)).name := by
  induction sets generalizing e with
  | nil => exact ⟨e, rfl, fun r hr => ⟨r, hr, rfl⟩, by simp⟩
  | cons g gs ih =>
    cases hc : claim (lock g) cq.claimant now until_ with
    | some l =>
      obtain ⟨e', he', hkeep, hall⟩ := ih e
      have hfree := (claim_eq_some _ _ _ _ _ hc).1
      refine ⟨e', by simpa [heldAmong, hc] using he', hkeep, ?_⟩
      intro g' hg' hheld
      rcases List.mem_cons.mp hg' with rfl | hg'
      · simp [hfree] at hheld
      · exact hall g' hg' hheld
    | none =>
      obtain ⟨m, hm, hmc⟩ :=
        merge_some_docClaims e (heldError g (lock g) (members g)) (by simp [heldError])
      obtain ⟨e', he', hkeep, hall⟩ := ih m
      have hin : ∀ r ∈ e.docClaims ++ (heldError g (lock g) (members g)).docClaims,
          ∃ r' ∈ e'.docClaims, r'.name = r.name := by
        intro r hr
        obtain ⟨r1, hr1, hn1⟩ := exists_mem_dedupFrom DocID.name [] _ r hr (by simp)
        obtain ⟨r2, hr2, hn2⟩ := hkeep r1 (by rw [hmc]; exact hr1)
        exact ⟨r2, hr2, hn2.trans hn1⟩
      refine ⟨e', by simpa [heldAmong, hc, hm] using he',
        fun r hr => hin r (List.mem_append_left _ hr), ?_⟩
      intro g' hg' hheld
      rcases List.mem_cons.mp hg' with rfl | hg'
      · exact hin _ (List.mem_append_right _ (by simp [heldError]))
      · exact hall g' hg' hheld

theorem heldAmong_none_iff (sets : List SetName) :
    heldAmong cq now until_ lock members none sets = none ↔
      ∀ g ∈ sets, (lock g).heldByOther cq.claimant now = false := by
  induction sets with
  | nil => simp [heldAmong]
  | cons g gs ih =>
    cases hc : claim (lock g) cq.claimant now until_ with
    | some l =>
      have hfree := (claim_eq_some _ _ _ _ _ hc).1
      rw [List.forall_mem_cons, ← ih]
      simp [heldAmong, hc, hfree]
    | none =>
      have hheld := (claim_eq_none_iff _ _ _ _).mp hc
      obtain ⟨e', he', -⟩ :=
        heldAmong_some cq now until_ lock members (heldError g (lock g) (members g)) gs
      have : heldAmong cq now until_ lock members none (g :: gs) = some e' := by
        simpa [heldAmong, hc] using he'
      simp [this, hheld]

/-- A claim that gets past its lease names every set someone else holds. -/
theorem heldAmong_names (sets : List SetName) (e : DependencyError)
    (h : heldAmong cq now until_ lock members none sets = some e) :
    ∀ g ∈ sets, (lock g).heldByOther cq.claimant now = true →
      ∃ r ∈ e.docClaims, r.name = (ref g (lock g)).name := by
  induction sets with
  | nil => simp
  | cons g gs ih =>
    cases hc : claim (lock g) cq.claimant now until_ with
    | some l =>
      have hfree := (claim_eq_some _ _ _ _ _ hc).1
      have h' : heldAmong cq now until_ lock members none gs = some e := by
        simpa [heldAmong, hc] using h
      rw [List.forall_mem_cons]
      exact ⟨by simp [hfree], ih h'⟩
    | none =>
      obtain ⟨e', he', hkeep, hall⟩ :=
        heldAmong_some cq now until_ lock members (heldError g (lock g) (members g)) gs
      have hee : e' = e := by
        have : heldAmong cq now until_ lock members none (g :: gs) = some e' := by
          simpa [heldAmong, hc] using he'
        rw [this] at h
        exact Option.some.inj h
      subst hee
      rw [List.forall_mem_cons]
      exact ⟨fun _ => hkeep _ (by simp [heldError]), hall⟩

theorem claimAll_ok (locks : List Lock)
    (h : claimAll cq now until_ lock members = .ok locks) :
    now < until_ ∧ (∀ g ∈ setsOf cq, (lock g).heldByOther cq.claimant now = false) ∧
      locks = (setsOf cq).map (fun g =>
        { stored := true, version := (lock g).version + 1, claimant := cq.claimant,
          atTime := until_, numDocs := (lock g).numDocs }) := by
  unfold claimAll at h
  split_ifs at h with hu
  · cases ht : cq.taskToMatch <;> simp [ht] at h
  · cases hh : heldAmong cq now until_ lock members none (setsOf cq) with
    | some e => simp [hh] at h
    | none =>
      have hfree := (heldAmong_none_iff cq now until_ lock members _).mp hh
      refine ⟨not_le.mp hu, hfree, ?_⟩
      rw [hh] at h
      cases h
      rw [← List.filterMap_eq_map]
      apply List.filterMap_congr
      intro g hg
      simp [claim, hfree g hg]

/-- A claim fails for its lease, or for the sets someone else holds. -/
theorem claimAll_error {f : ClaimFailure} (h : claimAll cq now until_ lock members = .error f) :
    until_ ≤ now ∨ now < until_ ∧ ∃ e, f = .dependency e ∧
      heldAmong cq now until_ lock members none (setsOf cq) = some e := by
  unfold claimAll at h
  split_ifs at h with hu
  · exact .inl hu
  · cases hh : heldAmong cq now until_ lock members none (setsOf cq) with
    | some e =>
      rw [hh] at h
      cases h
      exact .inr ⟨not_le.mp hu, e, rfl, rfl⟩
    | none =>
      rw [hh] at h
      cases h

end ClaimSpec
end EntroQ.Docset
