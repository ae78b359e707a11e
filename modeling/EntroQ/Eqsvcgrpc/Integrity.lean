import EntroQ.Eqmem.TaskHistory
import EntroQ.Eqsvcgrpc.ModifyAuthz
import EntroQ.Foundation.Trace

/-! # Queues that nobody is granted

A service with the mesh authorizer in front of a store in memory. Whatever it is asked, a task stays
as it is while no caller has a grant that covers its queue. -/

namespace EntroQ.Eqsvcgrpc
open Foundation Authz Pbconv Eqmem

/-- A request with its caller, and what it is served with. -/
structure ModifyCall (V : Type) where
  req : Pb.ModifyRequest V
  protocol : Int32 := 2
  principal : VerifiedPrincipal
  policy : Option Mesh.CompiledPolicy
  now : Time := 0
  genID : ℕ → String

def ModifyCall.covers {V : Type} (c : ModifyCall V) (queue : String) : Bool :=
  Mesh.matchesAny queue "" (Mesh.grantsFor c.policy c.principal.subject).queues

section Service
variable {V : Type} (marshalJSON : V → Except String RawMessage) (clientID : String) {s : EQMem}
  {t : Task}

def served (s : EQMem) (c : ModifyCall V) : EQMem :=
  (modify marshalJSON c.protocol c.now
    (some fun r => Mesh.authorize c.policy { r with principal := some c.principal })
    (fun args s =>
      (Eqmem.modify s ((newModification clientID args).genIDs c.genID) c.now).swap) c.req s).2

/-- A modification leaves a task whose queue none of its operations names. -/
theorem modify_keeps (h : Invariant s) (ht : s.task t.id = some t) (m : Modification)
    (gen : ℕ → String) (now : Time)
    (hno : ∀ op ∈ operations m, ∀ r ∈ op.needs, ∀ a, r ≠ onQueue t.queue a) :
    (Eqmem.modify s (m.genIDs gen) now).1.task t.id = some t := by
  rcases modify_taskEvent h (m.genIDs gen) now t.id with ⟨same, -, -⟩ | ⟨_, before, -, -⟩ |
    ⟨_, _, _, _, _, ⟨⟩, -⟩ | ⟨_, _, r, _, ⟨⟩, names, -, before, queue, -⟩
  · exact same.trans ht
  · cases ht.symm.trans before
  · cases ht.symm.trans before
    simp only [operations, List.forall_mem_append, List.forall_mem_map, Operation.needs,
      List.forall_mem_singleton] at hno
    obtain ⟨⟨⟨⟨⟨⟨⟨⟨⟨-, hchg⟩, hdel⟩, -⟩, harr⟩, -⟩, -⟩, -⟩, -⟩, -⟩ := hno
    simp only [Modification.written, List.mem_append, List.mem_map] at names
    rcases names with (hr | ⟨c, hc, rfl⟩) | ⟨a, ha, rfl⟩
    · exact absurd (by rw [queue]) (hdel r hr .delete)
    · have hq : t.queue = c.task.fromQueue := queue
      have hneeds := hchg c hc
      grind
    · exact absurd (by rw [queue]) (harr a ha .change)

theorem served_keeps (h : Invariant s) (ht : s.task t.id = some t) (c : ModifyCall V)
    (hno : c.covers t.queue = false) :
    Invariant (served marshalJSON clientID s c) ∧
      (served marshalJSON clientID s c).task t.id = some t := by
  by_cases hsame : served marshalJSON clientID s c = s
  · rw [hsame]
    exact ⟨h, ht⟩
  obtain ⟨auth, args, hauth, hstate, hcovers⟩ := modify_authorized _ _ _ _ _ _ _ hsame
  rw [served, hstate]
  refine ⟨Call.run_invariant h (.modify _ _), modify_keeps h ht _ _ _ fun op hop r hr a he => ?_⟩
  have hgrant := Mesh.authorize_granted hauth (hcovers clientID op hop r hr)
  rw [he] at hgrant
  exact absurd (hno.symm.trans hgrant) Bool.false_ne_true

/-- Over every run of requests, under policies that may change, a task stays as it is if no caller
has a grant that covers its queue. -/
theorem ungranted_untouched (h : Invariant s) (ht : s.task t.id = some t)
    (calls : List (ModifyCall V)) (hno : ∀ c ∈ calls, c.covers t.queue = false) :
    (after (served marshalJSON clientID) s calls).task t.id = some t := by
  induction calls generalizing s with
  | nil => exact ht
  | cons c calls ih =>
    obtain ⟨hc, hcalls⟩ := List.forall_mem_cons.mp hno
    obtain ⟨h', ht'⟩ := served_keeps marshalJSON clientID h ht c hc
    exact ih h' ht' hcalls

end Service

def twoTasks : EQMem :=
  run {} [.modify { inserts := [{ queue := "/a", id := "1" }, { queue := "/b", id := "2" }] } 0]

/-- A caller with a grant for one queue deletes a task of each. -/
def deletesBoth : List (ModifyCall String) :=
  [{ id := "1", queue := "/a" }, { id := "2", queue := "/b" }].map fun r =>
    { req := { deletes := [r] }, principal := ⟨"alice"⟩
      policy := some ⟨AList.singleton "alice" { queues := [{ exact := "/a" }] }⟩
      genID := fun _ => "" }

theorem ungranted_untouched_second :
    (after (served .ok "server") twoTasks deletesBoth).task "1" = none ∧
      (after (served .ok "server") twoTasks deletesBoth).task "2" =
        some { queue := "/b", id := "2" } :=
  ⟨by decide, ungranted_untouched .ok "server" (run_invariant invariant_empty _)
    (t := { queue := "/b", id := "2" }) (by decide) deletesBoth (by decide)⟩

end EntroQ.Eqsvcgrpc
