import EntroQ.Authz.Request

/-! # The mesh authorizer

The operator's policy document, how it is checked and compiled into grants for each subject, and
the decision on a request. -/

namespace EntroQ.Authz.Mesh

def hasPrefix (s p : String) : Bool := p.toList.isPrefixOf s.toList

def hasSuffix (s p : String) : Bool := p.toList.isSuffixOf s.toList

def trimSuffix (s p : String) : String :=
  if hasSuffix s p then String.ofList (s.toList.take (s.toList.length - p.toList.length)) else s

def split (s : String) (sep : Char) : List String := (s.toList.splitOn sep).map String.ofList

/-! ## The document -/

/-- The entries stand in the order they are visited in. -/
abbrev Labels := AList fun _ : String => String

/-- A pattern of queues or namespaces and who may use them. -/
structure Policy where
  pattern : String
  matchType : String
  allowedCallers : List Labels

abbrev QueuePolicy := Policy
abbrev NamespacePolicy := Policy

structure Identity where
  labels : Labels

structure Document where
  initialized : Bool := false
  queues : List QueuePolicy := []
  namespaces : List NamespacePolicy := []
  identities : AList fun _ : String => Identity := ∅

/-- What Kubernetes accepts as the key and as the value of a label. -/
structure LabelRules where
  isQualifiedName : String → Bool
  isValidLabelValue : String → Bool

def within (format : String) (args : List MessageArg) (m : Message) : Message where
  format := format ++ m.format
  args := args ++ m.args

section Validate
variable (rules : LabelRules)

def validateLabels (labels : Labels) : Option Message :=
  labels.entries.findSome? fun ⟨key, value⟩ =>
    if !rules.isQualifiedName key then some ⟨"invalid label key %q", [.str key]⟩
    else if !rules.isValidLabelValue value then some ⟨"invalid value for label %q", [.str key]⟩
    else none

def validatePolicy (p : Policy) : Option Message :=
  if p.pattern = "" then some ⟨"pattern is empty", []⟩
  else if p.matchType ≠ "Exact" ∧ p.matchType ≠ "Prefix" then
    some ⟨"unknown match type %q", [.str p.matchType]⟩
  else if p.allowedCallers.isEmpty then some ⟨"allowed callers is empty", []⟩
  else
    p.allowedCallers.zipIdx.findSome? fun (matcher, i) =>
      if matcher.entries.isEmpty then some ⟨"allowed caller %d has no labels", [.num i]⟩
      else (validateLabels rules matcher).map (within "allowed caller %d: " [.num i])

def Document.validate (d : Document) : Option Message :=
  if !d.initialized then some ⟨"mesh document is not initialized", []⟩
  else
    (d.queues.zipIdx.findSome? fun (policy, i) =>
      (validatePolicy rules policy).map (within "queue policy %d: " [.num i])) <|>
    (d.namespaces.zipIdx.findSome? fun (policy, i) =>
      (validatePolicy rules policy).map (within "namespace policy %d: " [.num i])) <|>
    d.identities.entries.findSome? fun ⟨subject, identity⟩ =>
      if subject = "" then some ⟨"identity subject is empty", []⟩
      else if identity.labels.entries.isEmpty then
        some ⟨"identity %q has no labels", [.str subject]⟩
      else (validateLabels rules identity.labels).map (within "identity %q: " [.str subject])

end Validate

/-! ## Grants -/

structure ResourceGrant where
  exact : String := ""
  prefix_ : String := ""
  deriving DecidableEq

structure SubjectGrants where
  queues : List ResourceGrant := []
  namespaces : List ResourceGrant := []
  deriving DecidableEq

structure CompiledPolicy where
  grants : AList fun _ : String => SubjectGrants := ∅

def newGrant (pattern matchType : String) : ResourceGrant :=
  if matchType = "Exact" then { exact := pattern } else { prefix_ := pattern }

/-- A label that is not there reads as empty. -/
def satisfies (labels required : Labels) : Bool :=
  required.entries.all fun ⟨key, value⟩ => (labels.lookup key).getD "" == value

def callerSatisfies (labels : Labels) (alternatives : List Labels) : Bool :=
  alternatives.any (satisfies labels)

/-- Who may use an inbox may also use the responses beside it. -/
def queueGrants (labels : Labels) (queue : QueuePolicy) : List ResourceGrant :=
  if callerSatisfies labels queue.allowedCallers then
    newGrant queue.pattern queue.matchType ::
      if queue.matchType = "Exact" ∧ hasSuffix queue.pattern "/inbox" then
        [{ prefix_ := trimSuffix queue.pattern "inbox" ++ "response/" }]
      else []
  else []

def namespaceGrants (labels : Labels) (namespace_ : NamespacePolicy) : List ResourceGrant :=
  if callerSatisfies labels namespace_.allowedCallers then
    [newGrant namespace_.pattern namespace_.matchType]
  else []

def identityGrants (d : Document) (identity : Identity) : SubjectGrants where
  queues := d.queues.flatMap (queueGrants identity.labels)
  namespaces := d.namespaces.flatMap (namespaceGrants identity.labels)

def compile (d : Document) : CompiledPolicy where
  grants := d.identities.entries.foldl
    (fun grants ⟨subject, identity⟩ => grants.insert subject (identityGrants d identity)) ∅

def ownQueuePrefix (subject : String) : Option String :=
  match split subject ':' with
  | [a, b, ns, name] =>
    if a = "system" ∧ b = "serviceaccount" then some ("/" ++ ns ++ "/" ++ name ++ "/") else none
  | _ => none

def grantsFor (policy : Option CompiledPolicy) (subject : String) : SubjectGrants :=
  let grants := (policy.bind fun p => p.grants.lookup subject).getD {}
  match ownQueuePrefix subject with
  | some own => { grants with queues := grants.queues ++ [{ prefix_ := own }] }
  | none => grants

/-! ## The decision -/

def ResourceGrant.matches (g : ResourceGrant) (exact pre : String) : Bool :=
  (exact != "" && g.exact != "" && exact == g.exact) ||
    (exact != "" && g.prefix_ != "" && hasPrefix exact g.prefix_) ||
    (pre != "" && g.prefix_ != "" && hasPrefix pre g.prefix_)

def matchesAny (exact pre : String) (grants : List ResourceGrant) : Bool :=
  grants.any (·.matches exact pre)

def uniqueActions (actions : List Action) : List Action :=
  actions.foldl (fun result action => if action ∈ result then result else result ++ [action]) []

def disallowed (wants : List Want) (grants : List ResourceGrant) : List Want :=
  wants.filterMap fun want =>
    if want.exact = "" ∧ want.prefix_ = "" ∨
        want.actions ≠ [] ∧ matchesAny want.exact want.prefix_ grants = false then
      some { want with actions := uniqueActions want.actions }
    else none

def disallowedQueues (wants : List Queue) (grants : List ResourceGrant) : List Queue :=
  disallowed wants grants

def disallowedNamespaces (wants : List Namespace) (grants : List ResourceGrant) : List Namespace :=
  disallowed wants grants

def decisionErrors (claimantID subject : String) (resourceFailure : Bool) : List String :=
  (if resourceFailure ∧ subject ≠ "" then ["User: " ++ subject] else []) ++
    (if claimantID ≠ "" ∧ subject ≠ "" ∧ hasPrefix claimantID (subject ++ "#") = false then
      ["claimant_id does not match authenticated user"]
    else [])

structure AuthzError where
  failed : List Queue
  failedNamespaces : List Namespace
  errors : List String
  deriving DecidableEq

def subjectOf (principal : Option VerifiedPrincipal) : String :=
  (principal.map (·.subject)).getD ""

def authorize (policy : Option CompiledPolicy) (req : Request) : Except AuthzError Unit :=
  let subject := subjectOf req.principal
  let grants := grantsFor policy subject
  let failedQueues := disallowedQueues req.queues grants.queues
  let failedNamespaces := disallowedNamespaces req.namespaces grants.namespaces
  let errors := decisionErrors req.claimantID subject
    (failedQueues.length + failedNamespaces.length ≠ 0)
  if grants.queues.length + grants.namespaces.length ≠ 0 ∧ failedQueues = [] ∧
      failedNamespaces = [] ∧ errors = [] then
    .ok ()
  else .error { failed := failedQueues, failedNamespaces, errors }

/-! ## What a decision means -/

theorem matches_of_disallowed_eq_nil {wants : List Want} {grants : List ResourceGrant}
    (h : disallowed wants grants = []) {w : Want} (hw : w ∈ wants) (hactions : w.actions ≠ []) :
    matchesAny w.exact w.prefix_ grants = true := by
  have hnot := List.filterMap_eq_nil_iff.mp h w hw
  simp only [ite_eq_right_iff, reduceCtorEq, imp_false, not_or, not_and, Bool.not_eq_false] at hnot
  exact hnot.2 hactions

theorem authorize_eq_ok_iff {policy : Option CompiledPolicy} {req : Request} {grants : SubjectGrants}
    (h : grantsFor policy (subjectOf req.principal) = grants) :
    authorize policy req = .ok () ↔
      grants.queues.length + grants.namespaces.length ≠ 0 ∧
        disallowed req.queues grants.queues = [] ∧ disallowed req.namespaces grants.namespaces = [] ∧
        decisionErrors req.claimantID (subjectOf req.principal) false = [] := by
  subst h
  simp only [authorize, ite_eq_left_iff, reduceCtorEq, imp_false, not_not]
  refine and_congr_right fun _ => and_congr_right fun hq => and_congr_right fun hn => ?_
  rw [hq, hn]
  rfl

theorem authorize_granted {policy : Option CompiledPolicy} {req : Request}
    (h : authorize policy req = .ok ()) {r : Requirement} (hr : r ∈ req.requirements) :
    matchesAny r.exact r.prefix_
      (match r.on_ with
        | .queue => (grantsFor policy (subjectOf req.principal)).queues
        | .ns => (grantsFor policy (subjectOf req.principal)).namespaces) = true := by
  obtain ⟨-, hqueues, hnamespaces, -⟩ := (authorize_eq_ok_iff rfl).mp h
  rw [Request.requirements, List.mem_append, List.mem_flatMap, List.mem_flatMap] at hr
  rcases hr with ⟨w, hw, hr⟩ | ⟨w, hw, hr⟩
  · obtain ⟨a, ha, rfl⟩ := List.mem_map.mp hr
    exact matches_of_disallowed_eq_nil hqueues hw (List.ne_nil_of_mem ha)
  · obtain ⟨a, ha, rfl⟩ := List.mem_map.mp hr
    exact matches_of_disallowed_eq_nil hnamespaces hw (List.ne_nil_of_mem ha)

end EntroQ.Authz.Mesh
