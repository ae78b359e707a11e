import EntroQ.Eqmem.Run

/-! # The doc collector

A pass of the doc collector uses the backend's own calls: it lists the namespaces that are due,
claims their sets one after another and deletes the docs of each set it gets. What it does to the
store is therefore a run of calls, all made as one claimant. -/

namespace EntroQ.Eqmem
open Foundation Docset

def gcClaimant : String := "entroq-gc-collector"

/-- What a pass reads besides the store: the clock, the namespaces in the order they are visited,
the activation that each namespace's name asks for (nothing if it asks for none or is malformed),
and the clock at the claim and at the delete of each set. -/
structure DocPass where
  now : Time
  names : List String
  activation : String → Option Time
  claimedAt : SetName → Time
  deletedAt : SetName → Time
  batch : ℕ

def keysFrom (last : String) : List Doc → List String
  | [] => []
  | d :: docs => if d.key = last then keysFrom last docs else d.key :: keysFrom d.key docs

/-- The sets of the namespaces that are due, or why their listing failed. -/
def dueSets (s : EQMem) (pass : DocPass) : List String → Except Fault (List SetName)
  | [] => .ok []
  | name :: names =>
    match pass.activation name with
    | none => dueSets s pass names
    | some activateAt =>
      if pass.now < activateAt then dueSets s pass names
      else
        match docs s { ns := name, omitValues := true }, dueSets s pass names with
        | .error f, _ => .error f
        | .ok _, .error f => .error f
        | .ok found, .ok due => .ok ((keysFrom "" found).map (SetName.mk name) ++ due)

def collectClaim (g : SetName) : DocClaim :=
  { sets := [{ ns := g.ns, key := g.key }], claimant := gcClaimant
    duration := defaultClaimDuration, leases := 1 }

def collectDeletes (group : DocSet) : Modification :=
  { claimant := gcClaimant, docDeletes := group.docs.map (fun d => newDocID d.ns d.id d.version) }

def collectSet (s : EQMem) (pass : DocPass) (g : SetName) : EQMem × Except Fault Bool :=
  match claimDocs s (collectClaim g) (pass.claimedAt g) with
  | (s', .error (.dependency _)) => (s', .ok false)
  | (s', .error f) => (s', .error f)
  | (s', .ok c) =>
    match c.sets with
    | [] => (s', .error (.panic "index out of range"))
    | group :: _ =>
      if group.docs.isEmpty then (s', .ok false)
      else
        match modify s' (collectDeletes group) (pass.deletedAt g) with
        | (s'', .ok _) => (s'', .ok true)
        | (s'', .error (.dependency _)) => (s'', .ok false)
        | (s'', .error f) => (s'', .error f)

def collectSets (pass : DocPass) (s : EQMem) (collected : ℕ) :
    List SetName → EQMem × Except Fault ℕ
  | [] => (s, .ok collected)
  | g :: gs =>
    if pass.batch ≤ collected then (s, .ok collected)
    else
      match collectSet s pass g with
      | (s', .error f) => (s', .error f)
      | (s', .ok true) => collectSets pass s' (collected + 1) gs
      | (s', .ok false) => collectSets pass s' collected gs

/-- `CollectDocsOnce`: the store after the pass, and how many sets it collected. -/
def collectDocsOnce (s : EQMem) (pass : DocPass) : EQMem × Except Fault ℕ :=
  match dueSets s pass pass.names with
  | .error f => (s, .error f)
  | .ok due => collectSets pass s 0 due

/-- Who makes a call that can write docs or locks. -/
def Call.actor : Call → Option String
  | .modify mod _ => some mod.claimant
  | .claimDocs cq _ => some cq.claimant
  | _ => none

/-- The clock readings of the pass at its calls on a set. -/
def DocPass.Reads (pass : DocPass) (now : Time) : Prop :=
  ∃ g, now = pass.claimedAt g ∨ now = pass.deletedAt g

def Collecting (pass : DocPass) (calls : List Call) : Prop :=
  ∀ c ∈ calls, c.actor = some gcClaimant ∧ ∀ now ∈ c.clock, pass.Reads now

theorem collectSet_run (s : EQMem) (pass : DocPass) (g : SetName) :
    ∃ calls, (collectSet s pass g).1 = run s calls ∧ Collecting pass calls := by
  have hclaim : (Call.claimDocs (collectClaim g) (pass.claimedAt g)).actor = some gcClaimant ∧
      ∀ now ∈ (Call.claimDocs (collectClaim g) (pass.claimedAt g)).clock, pass.Reads now :=
    ⟨rfl, fun now hn => ⟨g, .inl (List.mem_singleton.mp hn)⟩⟩
  have hrun : run s [.claimDocs (collectClaim g) (pass.claimedAt g)] =
      (claimDocs s (collectClaim g) (pass.claimedAt g)).1 := rfl
  have hone : Collecting pass [.claimDocs (collectClaim g) (pass.claimedAt g)] :=
    fun c hc => by rw [List.mem_singleton.mp hc]; exact hclaim
  unfold collectSet
  split
  · next s' e he => exact ⟨_, by rw [hrun, he], hone⟩
  · next s' f _ he => exact ⟨_, by rw [hrun, he], hone⟩
  · next s' c he =>
    split
    · exact ⟨_, by rw [hrun, he], hone⟩
    · next group rest hsets =>
      split_ifs with hempty
      · exact ⟨_, by rw [hrun, he], hone⟩
      · have hrun₂ : run s [.claimDocs (collectClaim g) (pass.claimedAt g),
            .modify (collectDeletes group) (pass.deletedAt g)] =
            (modify s' (collectDeletes group) (pass.deletedAt g)).1 := by
          change (modify (claimDocs s (collectClaim g) (pass.claimedAt g)).1 _ _).1 = _
          rw [he]
        have htwo : Collecting pass [.claimDocs (collectClaim g) (pass.claimedAt g),
            .modify (collectDeletes group) (pass.deletedAt g)] := by
          intro c hc
          rcases List.mem_pair.mp hc with rfl | rfl
          · exact hclaim
          · exact ⟨rfl, fun now hn => ⟨g, .inr (List.mem_singleton.mp hn)⟩⟩
        split
        · next s'' r hm => exact ⟨_, by rw [hrun₂, hm], htwo⟩
        · next s'' e hm => exact ⟨_, by rw [hrun₂, hm], htwo⟩
        · next s'' f _ hm => exact ⟨_, by rw [hrun₂, hm], htwo⟩

theorem collectSets_run (pass : DocPass) (s : EQMem) (collected : ℕ) (due : List SetName) :
    ∃ calls, (collectSets pass s collected due).1 = run s calls ∧ Collecting pass calls := by
  induction due generalizing s collected with
  | nil => exact ⟨[], rfl, by simp [Collecting]⟩
  | cons g gs ih =>
    unfold collectSets
    split_ifs with hfull
    · exact ⟨[], rfl, by simp [Collecting]⟩
    · obtain ⟨calls, hcalls, hc⟩ := collectSet_run s pass g
      -- the calls on this set, and then those on the rest
      have happend : ∀ n, ∃ calls', (collectSets pass (collectSet s pass g).1 n gs).1 =
          run s calls' ∧ Collecting pass calls' := by
        intro n
        obtain ⟨rest, hrest, hr⟩ := ih (collectSet s pass g).1 n
        refine ⟨calls ++ rest, by rw [hrest, run_append, hcalls], fun c hm => ?_⟩
        exact (List.mem_append.mp hm).elim (hc c) (hr c)
      split
      · next s' f he => exact ⟨calls, by rw [← hcalls, he], hc⟩
      · next s' he =>
        rw [he] at happend
        exact happend _
      · next s' he =>
        rw [he] at happend
        exact happend _

theorem collectDocsOnce_run (s : EQMem) (pass : DocPass) :
    ∃ calls, (collectDocsOnce s pass).1 = run s calls ∧ Collecting pass calls := by
  unfold collectDocsOnce
  split
  · exact ⟨[], rfl, by simp [Collecting]⟩
  · exact collectSets_run pass s 0 _

end EntroQ.Eqmem
