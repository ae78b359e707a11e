import EntroQ.Authz.Mesh

/-! # The Kubernetes Rego policy

The same decision in Rego, over the same document as data. A field that is not there is undefined,
and what reads it does not hold. The grants of the two agree exactly as far as a missing label is
not taken for an empty one. -/

namespace EntroQ.Authz.Rego
open Mesh

/-! ## The rules -/

/-- A queue or namespace as an object, without the fields it leaves out. -/
structure Spec where
  exact : Option String := none
  prefix_ : Option String := none
  actions : List String := ["ALL"]
  deriving DecidableEq

def present (s : String) : Option String := if s = "" then none else some s

def Action.name : Action → String
  | .claim => "CLAIM"
  | .delete => "DELETE"
  | .change => "CHANGE"
  | .insert => "INSERT"
  | .read => "READ"
  | .all => "*"

/-- A wanted resource as the policy's input has it. -/
def ofWant (w : Want) : Spec where
  exact := present w.exact
  prefix_ := present w.prefix_
  actions := w.actions.map Action.name

def substring (s : String) (offset length : ℕ) : String :=
  String.ofList ((s.toList.drop offset).take length)

section Permissions
variable (mesh : Document) (name : Option String)

def ownPrefix : Option String := do
  let parts := split (← name) ':'
  match parts with
  | [a, b, c, d] =>
    if a = "system" ∧ b = "serviceaccount" then some ("/".intercalate ["", c, d, ""]) else none
  | _ => none

def identity : Option Identity := name.bind mesh.identities.lookup

/-- A label that is not there has no value. -/
def matcherHolds (labels matcher : Labels) : Bool :=
  matcher.entries.all fun ⟨key, val⟩ => labels.lookup key == some val

def callerSatisfies (labels : Labels) (matchers : List Labels) : Bool :=
  matchers.any (matcherHolds labels)

def queueSpec (policy : Policy) : Option Spec :=
  if policy.matchType = "Exact" then some { exact := some policy.pattern }
  else if policy.matchType = "Prefix" then some { prefix_ := some policy.pattern }
  else none

def namespaceSpec (policy : Policy) : Option Spec := queueSpec policy

def responseSpec (policy : Policy) : Option Spec :=
  if policy.matchType = "Exact" ∧ hasSuffix policy.pattern "/inbox" then
    let base := substring policy.pattern 0 (policy.pattern.toList.length - "inbox".toList.length)
    some { prefix_ := some (base ++ "response/") }
  else none

def satisfied (policies : List Policy) : List Policy :=
  if mesh.initialized then
    match identity mesh name with
    | some id => policies.filter fun policy => callerSatisfies id.labels policy.allowedCallers
    | none => []
  else []

def allowedQueues : List Spec :=
  (ownPrefix name).toList.map (fun own => { prefix_ := some own }) ++
    (satisfied mesh name mesh.queues).filterMap queueSpec ++
    (satisfied mesh name mesh.queues).filterMap responseSpec

def allowedNamespaces : List Spec :=
  (satisfied mesh name mesh.namespaces).filterMap namespaceSpec

end Permissions

/-- Both are there, and the first starts with the second. -/
def startswith (s p : Option String) : Bool :=
  match s, p with
  | some s, some p => hasPrefix s p
  | _, _ => false

def nameMatch (want can : Spec) : Bool :=
  (want.exact.isSome && want.exact == can.exact) || startswith want.exact can.prefix_ ||
    startswith want.prefix_ can.prefix_

def isNamed (spec : Spec) : Bool :=
  spec.exact.any (· != "") || spec.prefix_.any (· != "")

def hasWildcard (actions : List String) : Bool := ["*", "ALL", "ANY"].any (actions.contains ·)

def actionsLeft (want can : List String) : List String :=
  (want.filter fun y => !can.contains y).filter fun _ => !hasWildcard can

def disallowed (want can : List Spec) : List Spec :=
  want.filterMap fun wantQ =>
    let canActions := (can.filter fun aq => nameMatch wantQ aq).flatMap (·.actions)
    let left := actionsLeft wantQ.actions canActions
    if left.length > 0 then some { wantQ with actions := left } else none

/-- What is wanted without a grant, and what names nothing. -/
def failed (want can : List Spec) : List Spec :=
  disallowed want can ++ want.filter fun q => !isNamed q

def claimantMismatch (claimantID name : Option String) : Bool :=
  claimantID.any fun c => c != "" && name.any fun n => !hasPrefix c (n ++ "#")

def errors (name : Option String) (failures : ℕ) (mismatch : Bool) : List String :=
  (if failures > 0 then name.toList.map ("User: " ++ ·) else []) ++
    if mismatch then ["claimant_id does not match authenticated user"] else []

def userName (principal : Option VerifiedPrincipal) : Option String := principal.map (·.subject)

def allow (mesh : Document) (req : Request) : Bool :=
  let name := userName req.principal
  let failedQueues := failed (req.queues.map ofWant) (allowedQueues mesh name)
  let failedNamespaces := failed (req.namespaces.map ofWant) (allowedNamespaces mesh name)
  let errs := errors name (failedQueues.length + failedNamespaces.length)
    (claimantMismatch (present req.claimantID) name)
  decide ((allowedQueues mesh name).length + (allowedNamespaces mesh name).length > 0) &&
    failedQueues.isEmpty && failedNamespaces.isEmpty && errs.isEmpty

/-! ## Grants as specs -/

def ofGrant (g : ResourceGrant) : Spec where
  exact := present g.exact
  prefix_ := present g.prefix_

theorem nameMatch_ofGrant (w : Want) (g : ResourceGrant) :
    nameMatch (ofWant w) (ofGrant g) = g.matches w.exact w.prefix_ := by
  simp only [nameMatch, ofWant, ofGrant, ResourceGrant.matches, present]
  by_cases hw : w.exact = "" <;> by_cases hp : w.prefix_ = "" <;>
    by_cases hg : g.exact = "" <;> by_cases hgp : g.prefix_ = "" <;>
    simp [startswith, bne, hw, hp, hg, hgp, beq_false_of_ne]

theorem matchesAny_iff (w : Want) (grants : List ResourceGrant) :
    matchesAny w.exact w.prefix_ grants = true ↔
      ∃ can ∈ grants.map ofGrant, nameMatch (ofWant w) can = true := by
  simp [matchesAny, nameMatch_ofGrant]

theorem ownPrefix_eq (subject : String) : ownPrefix (some subject) = ownQueuePrefix subject := by
  have hjoin (c d : String) : "/".intercalate ["", c, d, ""] = "/" ++ c ++ "/" ++ d ++ "/" := by
    change "" ++ "/" ++ c ++ "/" ++ d ++ "/" ++ "" = _
    simp
  rw [ownPrefix, ownQueuePrefix, Option.bind_eq_bind, Option.bind_some]
  generalize split subject ':' = parts
  rcases parts with _ | ⟨a, _ | ⟨b, _ | ⟨c, _ | ⟨d, _ | ⟨e, rest⟩⟩⟩⟩⟩ <;> simp [hjoin]

/-! ## Valid documents -/

/-- What the checks on a document leave of it. -/
structure Valid (mesh : Document) : Prop where
  initialized : mesh.initialized = true
  policies : ∀ policy ∈ mesh.queues ++ mesh.namespaces,
    policy.pattern ≠ "" ∧ (policy.matchType = "Exact" ∨ policy.matchType = "Prefix")
  subject : mesh.identities.lookup "" = none

theorem validatePolicy_ok {rules : LabelRules} {policy : Policy}
    (h : validatePolicy rules policy = none) :
    policy.pattern ≠ "" ∧ (policy.matchType = "Exact" ∨ policy.matchType = "Prefix") := by
  unfold validatePolicy at h
  split_ifs at h with hpattern htype
  exact ⟨hpattern, by tauto⟩

theorem validate_valid {rules : LabelRules} {mesh : Document} (h : mesh.validate rules = none) :
    Valid mesh := by
  unfold Document.validate at h
  split_ifs at h with hinit
  simp only [Option.orElse_eq_orElse, Option.orElse_eq_or, Option.or_eq_none_iff,
    List.findSome?_eq_none_iff, Prod.forall, Option.map_eq_none_iff] at h
  obtain ⟨hqueues, hnamespaces, hidentities⟩ := h
  refine ⟨by simpa using hinit, ?_, ?_⟩
  · intro policy hpolicy
    rcases List.mem_append.mp hpolicy with hp | hp
    · obtain ⟨i, hi⟩ := List.mem_iff_getElem?.mp hp
      exact validatePolicy_ok (hqueues policy i (List.mk_mem_zipIdx_iff_getElem?.mpr hi))
    · obtain ⟨i, hi⟩ := List.mem_iff_getElem?.mp hp
      exact validatePolicy_ok (hnamespaces policy i (List.mk_mem_zipIdx_iff_getElem?.mpr hi))
  · rw [Option.eq_none_iff_forall_not_mem]
    intro id hid
    simpa using hidentities ⟨"", id⟩ (AList.mem_lookup_iff.mp hid)

/-! ## Compiled grants -/

theorem lookup_foldl_insert {α β : Type} (f : α → β) (l : List (Sigma fun _ : String => α))
    (hl : l.NodupKeys) (a : AList fun _ : String => β) (k : String) :
    (l.foldl (fun a e => a.insert e.1 (f e.2)) a).lookup k =
      ((l.dlookup k).map f).or (a.lookup k) := by
  induction l generalizing a with
  | nil => simp
  | cons e l ih =>
    obtain ⟨hnot, hrest⟩ := List.nodupKeys_cons.mp hl
    rw [List.foldl_cons, ih hrest]
    by_cases hk : k = e.1
    · subst hk
      rw [List.dlookup_eq_none.mpr hnot, List.dlookup_cons_eq, AList.lookup_insert]
      rfl
    · rw [List.dlookup_cons_ne _ _ hk, AList.lookup_insert_ne hk]

theorem lookup_compile (mesh : Document) (subject : String) :
    (compile mesh).grants.lookup subject =
      (mesh.identities.lookup subject).map (identityGrants mesh) := by
  have h := lookup_foldl_insert (identityGrants mesh) mesh.identities.entries
    mesh.identities.nodupKeys ∅ subject
  rw [AList.lookup_empty, Option.or_none] at h
  exact h

section Spec
variable {policy : Policy} (labels : Labels)

theorem ofGrant_newGrant
    (hpolicy : policy.pattern ≠ "" ∧ (policy.matchType = "Exact" ∨ policy.matchType = "Prefix")) :
    some (ofGrant (newGrant policy.pattern policy.matchType)) = queueSpec policy := by
  obtain ⟨hpattern, htype⟩ := hpolicy
  rcases htype with htype | htype <;> simp [newGrant, queueSpec, ofGrant, present, htype, hpattern]

theorem trimSuffix_inbox {pattern : String} (h : hasSuffix pattern "/inbox" = true) :
    trimSuffix pattern "inbox" =
      substring pattern 0 (pattern.toList.length - "inbox".toList.length) := by
  have hsuffix : hasSuffix pattern "inbox" = true := by
    simp only [hasSuffix, List.isSuffixOf_iff_suffix] at h ⊢
    exact List.IsSuffix.trans (List.suffix_cons '/' _) h
  rw [trimSuffix, if_pos hsuffix, substring, List.drop_zero]

theorem ofGrant_response (base : String) :
    ofGrant { prefix_ := base ++ "response/" } = { prefix_ := some (base ++ "response/") } := by
  have hne : base ++ "response/" ≠ "" := by simp
  simp [ofGrant, present, hne]

theorem queueGrants_spec
    (hpolicy : policy.pattern ≠ "" ∧ (policy.matchType = "Exact" ∨ policy.matchType = "Prefix")) :
    (queueGrants labels policy).map ofGrant =
      if Mesh.callerSatisfies labels policy.allowedCallers then
        (queueSpec policy).toList ++ (responseSpec policy).toList
      else [] := by
  rw [← ofGrant_newGrant hpolicy]
  unfold queueGrants
  split_ifs with hcaller hinbox
  · simp [responseSpec, hinbox, trimSuffix_inbox hinbox.2, ofGrant_response]
  · simp [responseSpec, hinbox]
  · rfl

theorem namespaceGrants_spec
    (hpolicy : policy.pattern ≠ "" ∧ (policy.matchType = "Exact" ∨ policy.matchType = "Prefix")) :
    (namespaceGrants labels policy).map ofGrant =
      if Mesh.callerSatisfies labels policy.allowedCallers then (namespaceSpec policy).toList
      else [] := by
  rw [namespaceSpec, ← ofGrant_newGrant hpolicy]
  unfold namespaceGrants
  split_ifs <;> rfl

end Spec

/-! ## Callers -/

def Carries (labels required : Labels) : Prop :=
  ∀ e ∈ required.entries, labels.lookup e.1 = some e.2

theorem matcherHolds_iff {labels required : Labels} :
    matcherHolds labels required = true ↔ Carries labels required := by
  simp [matcherHolds, Carries]

theorem satisfies_iff {labels required : Labels} :
    satisfies labels required = true ↔
      ∀ e ∈ required.entries,
        labels.lookup e.1 = some e.2 ∨ labels.lookup e.1 = none ∧ e.2 = "" := by
  simp only [satisfies, List.all_eq_true, beq_iff_eq]
  refine forall₂_congr fun e _ => ?_
  cases labels.lookup e.1 with
  | none =>
    simp only [Option.getD_none, reduceCtorEq, true_and, false_or]
    exact eq_comm
  | some v => simp

section Agreement
variable (mesh : Document) (principal : Option VerifiedPrincipal)

/-- Whoever satisfies an entry of the document's policies carries every label it names. -/
def CallersCarry : Prop :=
  ∀ id, mesh.identities.lookup (subjectOf principal) = some id →
    ∀ policy ∈ mesh.queues ++ mesh.namespaces, ∀ required ∈ policy.allowedCallers,
      Mesh.callerSatisfies id.labels [required] = true → Carries id.labels required

/-- No entry asks for the empty value of a label that the caller lacks, or else the caller does not
meet the rest of that entry. -/
def LabelsThere : Prop :=
  ∀ id, mesh.identities.lookup (subjectOf principal) = some id →
    ∀ policy ∈ mesh.queues ++ mesh.namespaces, ∀ required ∈ policy.allowedCallers,
      (∀ e ∈ required.entries, id.labels.lookup e.1 = some e.2 ∨
        id.labels.lookup e.1 = none ∧ e.2 = "") →
      ∀ e ∈ required.entries, e.2 = "" → (id.labels.lookup e.1).isSome = true

def GrantsAgree : Prop :=
  ∀ want : Want,
    (matchesAny want.exact want.prefix_
        (grantsFor (some (compile mesh)) (subjectOf principal)).queues = true ↔
      ∃ can ∈ allowedQueues mesh (userName principal), nameMatch (ofWant want) can = true) ∧
    (matchesAny want.exact want.prefix_
        (grantsFor (some (compile mesh)) (subjectOf principal)).namespaces = true ↔
      ∃ can ∈ allowedNamespaces mesh (userName principal), nameMatch (ofWant want) can = true)

variable {mesh principal}

theorem callersCarry_iff : CallersCarry mesh principal ↔ LabelsThere mesh principal := by
  refine forall₂_congr fun id _ => forall₂_congr fun policy _ => forall₂_congr fun required _ => ?_
  simp only [Mesh.callerSatisfies, List.any_cons, List.any_nil, Bool.or_false, satisfies_iff]
  constructor
  · intro h hmeets e he _
    rw [h hmeets e he]
    rfl
  · intro h hmeets e he
    rcases hmeets e he with hsome | ⟨hnone, hempty⟩
    · exact hsome
    · simpa [hnone] using h hmeets e he hempty

theorem CallersCarry.callerSatisfies_eq (h : CallersCarry mesh principal) {id : Identity}
    (hid : mesh.identities.lookup (subjectOf principal) = some id) {policy : Policy}
    (hpolicy : policy ∈ mesh.queues ++ mesh.namespaces) :
    Mesh.callerSatisfies id.labels policy.allowedCallers =
      callerSatisfies id.labels policy.allowedCallers := by
  rw [Bool.eq_iff_iff, Mesh.callerSatisfies, callerSatisfies, List.any_eq_true, List.any_eq_true]
  refine exists_congr fun required => and_congr_right fun hrequired => ?_
  rw [matcherHolds_iff]
  constructor
  · intro hsat
    exact h id hid policy hpolicy required hrequired (by simpa [Mesh.callerSatisfies] using hsat)
  · intro hcarries
    exact satisfies_iff.mpr fun e he => .inl (hcarries e he)

theorem identity_eq (hvalid : Valid mesh) :
    identity mesh (userName principal) = mesh.identities.lookup (subjectOf principal) := by
  cases principal with
  | none => exact hvalid.subject.symm
  | some p => rfl

theorem ownPrefix_userName : ownPrefix (userName principal) = ownQueuePrefix (subjectOf principal) := by
  cases principal with
  | none => decide
  | some p => exact ownPrefix_eq p.subject

theorem ofGrant_own {subject own : String} (h : ownQueuePrefix subject = some own) :
    ofGrant { prefix_ := own } = { prefix_ := some own } := by
  have hne : own ≠ "" := by
    unfold ownQueuePrefix at h
    split at h
    · split_ifs at h
      cases h
      simp
    · cases h
  simp [ofGrant, present, hne]

theorem grantsFor_compile (subject : String) :
    grantsFor (some (compile mesh)) subject =
      { queues := ((mesh.identities.lookup subject).map fun id =>
            mesh.queues.flatMap (queueGrants id.labels)).getD [] ++
          (ownQueuePrefix subject).toList.map fun own => { prefix_ := own }
        namespaces := ((mesh.identities.lookup subject).map fun id =>
          mesh.namespaces.flatMap (namespaceGrants id.labels)).getD [] } := by
  simp only [grantsFor, Option.bind_some, lookup_compile]
  cases mesh.identities.lookup subject <;> cases ownQueuePrefix subject <;> simp [identityGrants]

theorem satisfied_eq (hvalid : Valid mesh) (policies : List Policy) :
    satisfied mesh (userName principal) policies =
      ((mesh.identities.lookup (subjectOf principal)).map fun id =>
        policies.filter fun policy => callerSatisfies id.labels policy.allowedCallers).getD [] := by
  rw [satisfied, if_pos hvalid.initialized, identity_eq hvalid]
  cases mesh.identities.lookup (subjectOf principal) <;> rfl

theorem mem_policyGrants (hcarry : CallersCarry mesh principal) {id : Identity}
    (hid : mesh.identities.lookup (subjectOf principal) = some id) {policies : List Policy}
    {grants : Policy → List ResourceGrant} {specs : Policy → List Spec}
    (hof : ∀ policy ∈ policies, policy ∈ mesh.queues ++ mesh.namespaces)
    (hspecs : ∀ policy ∈ policies, (grants policy).map ofGrant =
      if Mesh.callerSatisfies id.labels policy.allowedCallers then specs policy else [])
    (c : Spec) :
    c ∈ (policies.flatMap grants).map ofGrant ↔
      ∃ policy ∈ policies, callerSatisfies id.labels policy.allowedCallers = true ∧
        c ∈ specs policy := by
  rw [List.map_flatMap, List.mem_flatMap]
  refine exists_congr fun policy => and_congr_right fun hpolicy => ?_
  rw [hspecs policy hpolicy, hcarry.callerSatisfies_eq hid (hof policy hpolicy)]
  split_ifs with hcaller
  · simp [hcaller]
  · simp [hcaller]

theorem mem_queueGrants (hvalid : Valid mesh) (hcarry : CallersCarry mesh principal) {id : Identity}
    (hid : mesh.identities.lookup (subjectOf principal) = some id) (c : Spec) :
    c ∈ (mesh.queues.flatMap (queueGrants id.labels)).map ofGrant ↔
      ∃ policy ∈ mesh.queues, callerSatisfies id.labels policy.allowedCallers = true ∧
        (queueSpec policy = some c ∨ responseSpec policy = some c) := by
  have hof (policy : Policy) (h : policy ∈ mesh.queues) : policy ∈ mesh.queues ++ mesh.namespaces :=
    List.mem_append_left _ h
  rw [mem_policyGrants hcarry hid hof fun policy h =>
    queueGrants_spec _ (hvalid.policies policy (hof policy h))]
  simp only [List.mem_append, Option.mem_toList]

theorem mem_namespaceGrants (hvalid : Valid mesh) (hcarry : CallersCarry mesh principal)
    {id : Identity} (hid : mesh.identities.lookup (subjectOf principal) = some id) (c : Spec) :
    c ∈ (mesh.namespaces.flatMap (namespaceGrants id.labels)).map ofGrant ↔
      ∃ policy ∈ mesh.namespaces, callerSatisfies id.labels policy.allowedCallers = true ∧
        namespaceSpec policy = some c := by
  have hof (policy : Policy) (h : policy ∈ mesh.namespaces) :
      policy ∈ mesh.queues ++ mesh.namespaces :=
    List.mem_append_right _ h
  rw [mem_policyGrants hcarry hid hof fun policy h =>
    namespaceGrants_spec _ (hvalid.policies policy (hof policy h))]
  simp only [Option.mem_toList]

/-- As far as callers carry their labels, the rules allow exactly what was compiled. -/
theorem mem_allowedQueues (hvalid : Valid mesh) (hcarry : CallersCarry mesh principal) (c : Spec) :
    c ∈ allowedQueues mesh (userName principal) ↔
      c ∈ (grantsFor (some (compile mesh)) (subjectOf principal)).queues.map ofGrant := by
  rw [allowedQueues, satisfied_eq hvalid, grantsFor_compile, ownPrefix_userName, List.map_append,
    List.mem_append, List.mem_append, List.mem_append, or_assoc, or_comm]
  refine or_congr ?_ ?_
  · cases hid : mesh.identities.lookup (subjectOf principal) with
    | none => simp
    | some id =>
      simp only [Option.map_some, Option.getD_some]
      rw [mem_queueGrants hvalid hcarry hid]
      simp only [List.mem_filterMap, List.mem_filter, and_assoc, ← exists_or, ← and_or_left]
  · cases hown : ownQueuePrefix (subjectOf principal) with
    | none => simp
    | some own => simp [ofGrant_own hown]

theorem mem_allowedNamespaces (hvalid : Valid mesh) (hcarry : CallersCarry mesh principal)
    (c : Spec) :
    c ∈ allowedNamespaces mesh (userName principal) ↔
      c ∈ (grantsFor (some (compile mesh)) (subjectOf principal)).namespaces.map ofGrant := by
  rw [allowedNamespaces, satisfied_eq hvalid, grantsFor_compile]
  cases hid : mesh.identities.lookup (subjectOf principal) with
  | none => simp
  | some id =>
    simp only [Option.map_some, Option.getD_some]
    rw [mem_namespaceGrants hvalid hcarry hid]
    simp only [List.mem_filterMap, List.mem_filter, and_assoc]

theorem CallersCarry.grantsAgree (hvalid : Valid mesh) (hcarry : CallersCarry mesh principal) :
    GrantsAgree mesh principal := by
  intro want
  simp only [matchesAny_iff, mem_allowedQueues hvalid hcarry, mem_allowedNamespaces hvalid hcarry,
    and_self]

end Agreement

/-- For a valid document the grants match what the rules match, and callers satisfy an entry only
with every label it names, exactly if no caller lacks a label whose empty value is asked for. -/
theorem grants_agree_iff (rules : LabelRules) (mesh : Document)
    (principal : Option VerifiedPrincipal) (hvalid : mesh.validate rules = none) :
    GrantsAgree mesh principal ∧ CallersCarry mesh principal ↔ LabelsThere mesh principal := by
  rw [← callersCarry_iff]
  constructor
  · exact And.right
  · intro hcarry
    exact ⟨hcarry.grantsAgree (validate_valid hvalid), hcarry⟩

/-! ## The decision -/

section Decision
variable {mesh : Document} {grants : List ResourceGrant} {allowed : List Spec}

theorem actionsLeft_eq_nil_iff (hall : ∀ can ∈ allowed, can.actions = ["ALL"]) (want : Spec) :
    actionsLeft want.actions
        ((allowed.filter fun aq => nameMatch want aq).flatMap (·.actions)) = [] ↔
      want.actions = [] ∨ ∃ can ∈ allowed, nameMatch want can = true := by
  by_cases hmatch : ∃ can ∈ allowed, nameMatch want can = true
  · obtain ⟨can, hcan, hname⟩ := id hmatch
    have hwild : hasWildcard ((allowed.filter fun aq => nameMatch want aq).flatMap (·.actions)) =
        true := by
      rw [hasWildcard, List.any_eq_true]
      exact ⟨"ALL", by simp, by simpa using ⟨can, ⟨hcan, hname⟩, by simp [hall can hcan]⟩⟩
    simp [actionsLeft, hwild, hmatch]
  · have hnone : allowed.filter (fun aq => nameMatch want aq) = [] := by
      rw [List.filter_eq_nil_iff]
      intro can hcan hname
      exact hmatch ⟨can, hcan, hname⟩
    simp [hnone, actionsLeft, hasWildcard, hmatch]

theorem isNamed_ofWant (w : Want) :
    isNamed (ofWant w) = true ↔ ¬(w.exact = "" ∧ w.prefix_ = "") := by
  by_cases hexact : w.exact = "" <;> by_cases hcut : w.prefix_ = "" <;>
    simp [isNamed, ofWant, present, hexact, hcut]

/-- Nothing wanted fails in the rules exactly if nothing is disallowed by the grants. -/
theorem failed_eq_nil_iff (hsame : ∀ c, c ∈ allowed ↔ c ∈ grants.map ofGrant) (wants : List Want) :
    failed (wants.map ofWant) allowed = [] ↔ Mesh.disallowed wants grants = [] := by
  have hall : ∀ can ∈ allowed, can.actions = ["ALL"] := by
    intro can hcan
    obtain ⟨g, -, rfl⟩ := List.mem_map.mp ((hsame can).mp hcan)
    rfl
  have hmatch (w : Want) : matchesAny w.exact w.prefix_ grants = true ↔
      ∃ can ∈ allowed, nameMatch (ofWant w) can = true := by
    simp only [matchesAny_iff, hsame]
  simp only [failed, Rego.disallowed, List.append_eq_nil_iff, List.filterMap_eq_nil_iff,
    List.filter_eq_nil_iff, List.forall_mem_map, Mesh.disallowed]
  rw [← forall₂_and]
  refine forall₂_congr fun w _ => ?_
  have hactions : (ofWant w).actions = [] ↔ w.actions = [] := by simp [ofWant]
  have hnamed := isNamed_ofWant w
  have hleft := actionsLeft_eq_nil_iff hall (ofWant w)
  rw [← hmatch, hactions, ← List.length_eq_zero_iff] at hleft
  simp only [ite_eq_right_iff, reduceCtorEq, imp_false, Bool.not_eq_true', Bool.not_eq_false,
    hnamed, gt_iff_lt, not_lt, Nat.le_zero, hleft, not_or, not_and_or, not_not, Ne]
  exact and_comm

/-- Nobody without a subject is granted anything. -/
theorem subject_of_grants (hvalid : Valid mesh) {subject : String}
    (h : (grantsFor (some (compile mesh)) subject).queues.length +
      (grantsFor (some (compile mesh)) subject).namespaces.length ≠ 0) : subject ≠ "" := by
  rintro rfl
  apply h
  have hown : ownQueuePrefix "" = none := by decide
  rw [grantsFor_compile, hvalid.subject, hown]
  rfl

theorem length_eq_zero_iff (hsame : ∀ c, c ∈ allowed ↔ c ∈ grants.map ofGrant) :
    allowed.length = 0 ↔ grants.length = 0 := by
  simp [List.length_eq_zero_iff, List.eq_nil_iff_forall_not_mem, hsame]

/-- For a caller with a subject, both find fault with the same claimants. -/
theorem errors_eq_nil_iff {principal : Option VerifiedPrincipal} {claimantID : String}
    (hsubject : subjectOf principal ≠ "") :
    decisionErrors claimantID (subjectOf principal) false = [] ↔
      errors (userName principal) 0
        (claimantMismatch (present claimantID) (userName principal)) = [] := by
  cases principal with
  | none => exact absurd rfl hsubject
  | some p =>
    change p.subject ≠ "" at hsubject
    by_cases hclaimant : claimantID = "" <;>
      simp [decisionErrors, errors, claimantMismatch, present, subjectOf, userName, hclaimant,
        hsubject]

/-- The authorizer allows a request exactly if the rules do. -/
theorem authorize_ok_iff (hvalid : Valid mesh) (req : Request)
    (hcarry : CallersCarry mesh req.principal) :
    authorize (some (compile mesh)) req = .ok () ↔ allow mesh req = true := by
  have hqueues := mem_allowedQueues hvalid hcarry
  have hnamespaces := mem_allowedNamespaces hvalid hcarry
  have hlen := length_eq_zero_iff hqueues
  have hlenNs := length_eq_zero_iff hnamespaces
  rw [authorize_eq_ok_iff rfl, ← failed_eq_nil_iff hqueues, ← failed_eq_nil_iff hnamespaces]
  simp only [allow, Bool.and_eq_true, decide_eq_true_eq, List.isEmpty_iff, and_assoc]
  constructor <;> rintro ⟨hgrants, hq, hn, herr⟩ <;> refine ⟨by omega, hq, hn, ?_⟩
  · rw [hq, hn]
    exact (errors_eq_nil_iff (subject_of_grants hvalid hgrants)).mp herr
  · rw [hq, hn] at herr
    exact (errors_eq_nil_iff (subject_of_grants hvalid (by omega))).mpr herr

end Decision

/-! ## Kubernetes labels -/

/-- Letters, digits and some punctuation, with a letter or digit at either end. -/
def labelText (inner : Char → Bool) (end_ : Char → Bool) (s : String) : Bool :=
  s.toList.all inner && (s.toList.head?.any end_) && (s.toList.getLast?.any end_)

def labelName (s : String) : Bool :=
  decide (s.utf8ByteSize ≤ 63) &&
    labelText (fun c => c.isAlphanum || c == '-' || c == '_' || c == '.') Char.isAlphanum s

def subdomain (s : String) : Bool :=
  decide (s.utf8ByteSize ≤ 253) && (split s '.').all
    (labelText (fun c => c.isLower || c.isDigit || c == '-') fun c => c.isLower || c.isDigit)

def kubernetesLabels : LabelRules where
  isQualifiedName key :=
    match split key '/' with
    | [name] => labelName name
    | [domain, name] => subdomain domain && labelName name
    | _ => false
  isValidLabelValue value := value == "" || labelName value

def gateway : VerifiedPrincipal := { subject := "system:serviceaccount:payments:gateway" }

def leafMesh (required : Labels) : Document where
  initialized := true
  queues := [{ pattern := "/payments/leaf/inbox", matchType := "Exact", allowedCallers := [required] }]
  identities := AList.singleton gateway.subject { labels := AList.singleton "app" "gateway" }

theorem grants_agree_leafMesh :
    (leafMesh (AList.singleton "app" "gateway")).validate kubernetesLabels = none ∧
      GrantsAgree (leafMesh (AList.singleton "app" "gateway")) (some gateway) ∧
      CallersCarry (leafMesh (AList.singleton "app" "gateway")) (some gateway) := by
  have hvalid : (leafMesh (AList.singleton "app" "gateway")).validate kubernetesLabels = none := by
    decide
  refine ⟨hvalid, (grants_agree_iff kubernetesLabels _ _ hvalid).mpr ?_⟩
  intro id hid policy hpolicy required hrequired _ e he hempty
  simp only [leafMesh, List.append_nil, List.mem_singleton] at hpolicy
  subst hpolicy
  simp only [List.mem_singleton] at hrequired
  subst hrequired
  simp [AList.singleton] at he
  subst he
  exact absurd hempty (by decide)

/-- A role that must be empty lets the gateway into the inbox without any role; the rules do not. -/
theorem missing_label_granted :
    (leafMesh (AList.singleton "role" "")).validate kubernetesLabels = none ∧
      matchesAny "/payments/leaf/inbox" ""
        (grantsFor (some (compile (leafMesh (AList.singleton "role" "")))) gateway.subject).queues =
        true ∧
      ¬ ∃ can ∈ allowedQueues (leafMesh (AList.singleton "role" "")) (some gateway.subject),
        nameMatch (ofWant { exact := "/payments/leaf/inbox" }) can = true := by
  decide

theorem authorize_ok_iff_gateway :
    authorize (some (compile (leafMesh (AList.singleton "app" "gateway"))))
      { principal := some gateway
        queues := [{ exact := "/payments/leaf/inbox", actions := [.claim] }] } = .ok () := by
  have hvalid : (leafMesh (AList.singleton "app" "gateway")).validate kubernetesLabels = none := by
    decide
  refine (authorize_ok_iff (validate_valid hvalid) _ ?_).mpr (by decide)
  intro id hid policy hpolicy required hrequired _
  cases hid
  cases List.mem_singleton.mp hpolicy
  cases List.mem_singleton.mp hrequired
  exact matcherHolds_iff.mp rfl

end EntroQ.Authz.Rego
