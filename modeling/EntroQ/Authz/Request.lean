import EntroQ.Client.Types

/-! # Authorization requests

What the service asks its authorizer: the queues and namespaces an operation names, each with the
actions wanted there. -/

namespace EntroQ.Authz

inductive Action
  | claim | delete | change | insert | read | all
  deriving DecidableEq

/-- A queue or a namespace, by its exact name or by a prefix, and the actions wanted there. -/
structure Want where
  exact : String := ""
  prefix_ : String := ""
  actions : List Action := []
  deriving DecidableEq

abbrev Queue := Want
abbrev Namespace := Want

/-- The subject of an authenticated caller. -/
structure VerifiedPrincipal where
  subject : String
  deriving DecidableEq

structure Request where
  principal : Option VerifiedPrincipal := none
  claimantID : String := ""
  queues : List Queue := []
  namespaces : List Namespace := []
  deriving DecidableEq

/-! ## Single requirements -/

inductive Resource
  | queue | ns
  deriving DecidableEq

structure Requirement where
  on_ : Resource
  exact : String := ""
  prefix_ : String := ""
  action : Action
  deriving DecidableEq

def Want.requirements (on_ : Resource) (w : Want) : List Requirement :=
  w.actions.map fun action => { on_, exact := w.exact, prefix_ := w.prefix_, action }

def Request.requirements (r : Request) : List Requirement :=
  r.queues.flatMap (Want.requirements .queue) ++ r.namespaces.flatMap (Want.requirements .ns)

end EntroQ.Authz
