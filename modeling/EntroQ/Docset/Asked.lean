import EntroQ.Docset.Evaluate

/-! # What the operations ask of a set

Which set an operation writes, for how long it asks to hold it and how many docs it adds can be
read off the modification and the stored members, without the walk. A plan without an error is
that reading: each written set moves once, by everything its operations ask of it together. -/

namespace EntroQ.Docset

section Asked
variable (mod : Modification) (member : String → String → Option Doc)

/-- The set of the stored member, whatever version is named. -/
def setOf (ns id : String) : Option SetName := (member ns id).map fun d => ⟨d.ns, d.key⟩

/-- How long the operation asks to hold the set, if it writes it. A delete holds nothing. -/
def asks (g : SetName) : DocOp → Option Duration
  | .insert ins => if (⟨ins.ns, ins.key⟩ : SetName) = g then some ins.byDur else none
  | .change c => if setOf member c.doc.ns c.doc.id = some g then some c.byDur else none
  | .delete r => if setOf member r.ns r.id = some g then some 0 else none
  | .depend _ => none
  | .arrive a => if (⟨a.docID.ns, a.docID.key⟩ : SetName) = g then some a.byDur else none

def adds (g : SetName) : DocOp → ℤ
  | .insert ins => if (⟨ins.ns, ins.key⟩ : SetName) = g then 1 else 0
  | .delete r => if setOf member r.ns r.id = some g then -1 else 0
  | _ => 0

def asked (g : SetName) : List Duration := mod.docOps.filterMap (asks member g)

/-- The largest of the durations, none of them counting below zero. -/
def longest (ds : List Duration) : Duration := ds.foldl max 0

def inserted (g : SetName) : ℕ :=
  mod.docInserts.countP fun ins => decide ((⟨ins.ns, ins.key⟩ : SetName) = g)

def deleted (g : SetName) : ℕ :=
  mod.docDeletes.countP fun r => decide (setOf member r.ns r.id = some g)

end Asked

theorem longest_append_singleton (ds : List Duration) (d : Duration) :
    longest (ds ++ [d]) = max (longest ds) d := by
  simp [longest]

theorem longest_nonneg (ds : List Duration) : 0 ≤ longest ds := by
  induction ds using List.reverseRecOn with
  | nil => exact le_rfl
  | append_singleton ds d ih =>
    rw [longest_append_singleton]
    exact le_max_of_le_left ih

theorem longest_isGreatest (ds : List Duration) :
    (∀ d ∈ ds, d ≤ longest ds) ∧ (0 < longest ds → longest ds ∈ ds) := by
  induction ds using List.reverseRecOn with
  | nil => simp [longest]
  | append_singleton ds d ih =>
    obtain ⟨hle, hmem⟩ := ih
    rw [longest_append_singleton]
    constructor
    · intro e he
      rcases List.mem_append.mp he with he | he
      · exact (hle e he).trans (le_max_left _ _)
      · rw [List.mem_singleton.mp he]
        exact le_max_right _ _
    · intro hpos
      rcases le_total (longest ds) d with hd | hd
      · simp [max_eq_right hd]
      · rw [max_eq_left hd] at hpos ⊢
        exact List.mem_append_left _ (hmem hpos)

/-- Comparing instants is comparing durations, as long as no instant is before zero. -/
theorem latest_max (now m d : ℤ) (hnow : 0 ≤ now) (hm : 0 ≤ m) :
    (if 0 < d ∧ (if 0 < m then now + m else 0) < now + d then now + d
      else if 0 < m then now + m else 0) = if 0 < max m d then now + max m d else 0 := by
  rcases le_total m d with h | h
  · rw [max_eq_right h]
    split_ifs <;> omega
  · rw [max_eq_left h]
    split_ifs <;> omega

def Outcome.asks (g : SetName) : Outcome → Option Duration
  | .write g' byDur _ => if g' = g then some byDur else none
  | _ => none

section Walk
variable (now : Time) (lock : SetName → Lock)

/-- The arrival the walk keeps for a set is the longest hold asked for, from now. -/
theorem recordAll_longest (hnow : 0 ≤ now) (os : List Outcome) (g : SetName) :
    (((recordAll now lock os).writes.lookup g).getD {}).latest =
      if 0 < longest (os.filterMap (Outcome.asks g)) then
        now + longest (os.filterMap (Outcome.asks g)) else 0 := by
  induction os using List.reverseRecOn with
  | nil => simp [recordAll, longest]
  | append_singleton os o ih =>
    rw [recordAll_append, List.filterMap_append]
    cases o with
    | write g' byDur n =>
      by_cases hg : g' = g
      · subst hg
        have hone : List.filterMap (Outcome.asks g') [.write g' byDur n] = [byDur] := by
          simp [Outcome.asks]
        have hnn := longest_nonneg (os.filterMap (Outcome.asks g'))
        rw [hone, longest_append_singleton]
        simp only [record, AList.lookup_insert, Option.getD_some, ih]
        exact latest_max now _ byDur hnow hnn
      · have hnone : List.filterMap (Outcome.asks g) [.write g' byDur n] = [] := by
          simp [Outcome.asks, hg]
        rw [hnone, List.append_nil]
        simp only [record, AList.lookup_insert_ne (fun h => hg h.symm), ih]
    | _ =>
      rw [List.filterMap_cons_none rfl, List.filterMap_nil, List.append_nil]
      exact ih

end Walk

section Passing
variable {mod : Modification} {now : Time} {member : String → String → Option Doc}
  {occupant : SetName → String → Option Doc} {lock : SetName → Lock}

theorem setOf_eq {ns id : String} {d : Doc} (h : member ns id = some d) :
    setOf member ns id = some ⟨d.ns, d.key⟩ := by
  simp [setOf, h]

theorem outcome_asks {op : DocOp} (h : (outcome mod now member occupant lock op).passes = true)
    (g : SetName) : (outcome mod now member occupant lock op).asks g = asks member g op ∧
      (outcome mod now member occupant lock op).addedTo g = adds member g op := by
  cases op with
  | insert ins =>
    obtain ⟨-, -, -, he⟩ := insertOutcome_passes h
    simp only [outcome, he]
    exact ⟨rfl, rfl⟩
  | change c =>
    obtain ⟨d, hd, -, he⟩ := changeOutcome_passes h
    simp only [outcome, he, asks, adds, setOf_eq hd.1, Option.some.injEq]
    exact ⟨rfl, by simp [Outcome.addedTo]⟩
  | delete r =>
    obtain ⟨d, hd, -, he⟩ := deleteOutcome_passes h
    simp only [outcome, he, asks, adds, setOf_eq hd.1, Option.some.injEq]
    exact ⟨rfl, rfl⟩
  | depend r =>
    refine ⟨?_, dependOutcome_addedTo r g⟩
    rcases @dependOutcome_cases mod member lock r with ⟨-, he⟩ | ⟨-, he⟩ <;>
      simp [outcome, he, Outcome.asks, asks]
  | arrive a =>
    obtain ⟨-, -, he⟩ := arriveOutcome_passes h
    simp only [outcome, he]
    exact ⟨rfl, by simp [Outcome.addedTo, adds]⟩

theorem outcomes_asked
    (h : ∀ op ∈ mod.docOps, (outcome mod now member occupant lock op).passes = true)
    (g : SetName) :
    (mod.docOps.map (outcome mod now member occupant lock)).filterMap (Outcome.asks g) =
      asked mod member g := by
  rw [List.filterMap_map, asked]
  apply List.filterMap_congr
  intro op hop
  exact (outcome_asks (h op hop) g).1

theorem sum_ite_eq_countP {α : Type*} (p : α → Prop) [DecidablePred p] (n : ℤ) (as : List α) :
    (as.map fun a => if p a then n else 0).sum = n * as.countP (fun a => decide (p a)) := by
  induction as with
  | nil => simp
  | cons a as ih =>
    by_cases ha : p a
    · simp [ha, ih]
      ring
    · simp [ha, ih]

theorem outcomes_added
    (h : ∀ op ∈ mod.docOps, (outcome mod now member occupant lock op).passes = true)
    (g : SetName) :
    ((mod.docOps.map (outcome mod now member occupant lock)).map (Outcome.addedTo g)).sum =
      inserted mod g - deleted mod member g := by
  have hmap : (mod.docOps.map (outcome mod now member occupant lock)).map (Outcome.addedTo g) =
      mod.docOps.map (adds member g) := by
    rw [List.map_map]
    apply List.map_congr_left
    intro op hop
    exact (outcome_asks (h op hop) g).2
  have hzero : ∀ {α : Type} (as : List α) (f : α → DocOp), (∀ a, adds member g (f a) = 0) →
      (as.map (adds member g ∘ f)).sum = 0 := by
    intro α as f hf
    apply List.sum_eq_zero
    intro x hx
    obtain ⟨a, -, rfl⟩ := List.mem_map.mp hx
    exact hf a
  have hins : (mod.docInserts.map (adds member g ∘ .insert)).sum = inserted mod g := by
    exact (sum_ite_eq_countP _ 1 mod.docInserts).trans (one_mul _)
  have hdel : (mod.docDeletes.map (adds member g ∘ .delete)).sum = -(deleted mod member g : ℤ) := by
    exact (sum_ite_eq_countP _ (-1) mod.docDeletes).trans (neg_one_mul _)
  rw [hmap]
  simp only [Modification.docOps, List.map_append, List.map_map, List.sum_append, hins, hdel,
    hzero _ DocOp.change fun _ => rfl, hzero _ DocOp.depend fun _ => rfl,
    hzero _ DocOp.arrive fun _ => rfl]
  ring

end Passing

/-! ## What a plan without an error says -/

section Plan
variable {mod : Modification} {now : Time} {member : String → String → Option Doc}
  {occupant : SetName → String → Option Doc} {lock : SetName → Lock}

def NamedAtVersion (mod : Modification) (lock : SetName → Lock) (g : SetName) : Prop :=
  (∃ a ∈ mod.docArrives, (⟨a.docID.ns, a.docID.key⟩ : SetName) = g ∧
      a.docID.version = (lock g).version) ∨
    ∃ r ∈ mod.docDepends, r.isSetRef = true ∧ (⟨r.ns, r.key⟩ : SetName) = g ∧
      r.version = (lock g).version

def NamesMember (mod : Modification) (member : String → String → Option Doc)
    (lock : SetName → Lock) (ns id : String) (version : Int32) : Prop :=
  ∃ d, member ns id = some d ∧
    (version = (lock ⟨d.ns, d.key⟩).version ∨
      version = 0 ∧ NamedAtVersion mod lock ⟨d.ns, d.key⟩)

theorem namedAtVersion_of_provided (h : (evaluate mod now member occupant lock).err = none)
    {g : SetName} (hg : provided mod g = true) : NamedAtVersion mod lock g := by
  rw [evaluate_err_none_iff] at h
  rw [provided, Bool.or_eq_true, List.any_eq_true, List.any_eq_true] at hg
  rcases hg with ⟨a, ha, hg⟩ | ⟨r, hr, hg⟩
  · rw [beq_iff_eq] at hg
    subst hg
    have hpass := h (.arrive a) (by simp [Modification.docOps, ha])
    exact .inl ⟨a, ha, rfl, (arriveOutcome_passes hpass).1.2.symm⟩
  · rw [Bool.and_eq_true, beq_iff_eq] at hg
    obtain ⟨href, rfl⟩ := hg
    have hpass := h (.depend r) (by simp [Modification.docOps, hr])
    rcases @dependOutcome_cases mod member lock r with ⟨hd, -⟩ | ⟨-, he⟩
    · rw [DependHolds, if_pos href] at hd
      exact .inr ⟨r, hr, href, rfl, hd.2.symm⟩
    · rw [outcome, he] at hpass
      cases hpass

theorem namesMember_of_atVersion (h : (evaluate mod now member occupant lock).err = none)
    {ns id : String} {version : Int32} {d : Doc}
    (hd : AtVersion mod member lock ns id version d) : NamesMember mod member lock ns id version := by
  obtain ⟨hm, ⟨h0, hp⟩ | hv⟩ := hd
  · exact ⟨d, hm, .inr ⟨h0, namedAtVersion_of_provided h hp⟩⟩
  · exact ⟨d, hm, .inl hv.symm⟩

/-- The sets written are those some operation asks something of. -/
theorem mem_locks_iff (h : (evaluate mod now member occupant lock).err = none) (g : SetName) :
    g ∈ (evaluate mod now member occupant lock).locks ↔ asked mod member g ≠ [] := by
  rw [← AList.lookup_isSome, evaluate_locks_lookup _ _ _ _ _ h, Option.isSome_map,
    AList.lookup_isSome, (recordAll_writes now lock _ g).1,
    ← outcomes_asked ((evaluate_err_none_iff _ _ _ _ _).mp h) g, ne_eq,
    List.filterMap_eq_nil_iff]
  push Not
  constructor
  · rintro ⟨byDur, n, hm⟩
    exact ⟨_, hm, by simp [Outcome.asks]⟩
  · rintro ⟨o, ho, hne⟩
    cases o with
    | write g' byDur n =>
      by_cases hg : g' = g
      · exact ⟨byDur, n, hg ▸ ho⟩
      · simp [Outcome.asks, hg] at hne
    | _ => exact absurd rfl hne

theorem evaluate_lock_eq (h : (evaluate mod now member occupant lock).err = none)
    (hnow : 0 ≤ now) {g : SetName} {l : Lock}
    (hl : (evaluate mod now member occupant lock).locks.lookup g = some l) :
    l = { stored := true
          version := written (lock g)
          claimant := if 0 < longest (asked mod member g) then mod.claimant else ""
          atTime := now + longest (asked mod member g)
          numDocs := (lock g).numDocs + inserted mod g - deleted mod member g } := by
  have hpass := (evaluate_err_none_iff _ _ _ _ _).mp h
  rw [evaluate_locks_lookup _ _ _ _ _ h, Option.map_eq_some_iff] at hl
  obtain ⟨w, hw, rfl⟩ := hl
  have hlatest := recordAll_longest now lock hnow
    (mod.docOps.map (outcome mod now member occupant lock)) g
  have hadded := (recordAll_writes now lock
    (mod.docOps.map (outcome mod now member occupant lock)) g).2
  rw [hw, Option.getD_some, outcomes_asked hpass] at hlatest
  rw [hw, Option.getD_some, outcomes_added hpass] at hadded
  have hnn := longest_nonneg (asked mod member g)
  rw [nextLock, hlatest, hadded, ← add_sub_assoc]
  by_cases hpos : 0 < longest (asked mod member g)
  · have hne : now + longest (asked mod member g) ≠ 0 := (add_pos_of_nonneg_of_pos hnow hpos).ne'
    simp only [if_pos hpos, if_neg hne]
  · have hz : longest (asked mod member g) = 0 := le_antisymm (not_lt.mp hpos) hnn
    simp only [hz, lt_irrefl, if_false, if_true, add_zero]

/-- The set an operation writes is free, or held by whoever modifies it. -/
theorem evaluate_lock_free (h : (evaluate mod now member occupant lock).err = none)
    {g : SetName} (hg : g ∈ (evaluate mod now member occupant lock).locks) :
    (lock g).heldByOther mod.claimant now = false := by
  obtain ⟨l, hl⟩ := Option.isSome_iff_exists.mp (AList.lookup_isSome.mpr hg)
  obtain ⟨-, -, -, -, op, hop, byDur, n, he⟩ := evaluate_locks _ _ _ _ _ h g l hl
  have hpass := (evaluate_err_none_iff _ _ _ _ _).mp h op hop
  have hwritten {g' : SetName} {byDur' : Duration} {n' : ℤ}
      (hw : outcome mod now member occupant lock op = .write g' byDur' n')
      (hfree : (lock g').heldByOther mod.claimant now = false) :
      (lock g).heldByOther mod.claimant now = false := by
    rw [hw] at he
    cases he
    exact hfree
  cases op with
  | insert ins =>
    obtain ⟨-, -, hfree, hw⟩ := insertOutcome_passes hpass
    exact hwritten hw hfree
  | change c =>
    obtain ⟨d, -, hfree, hw⟩ := changeOutcome_passes hpass
    exact hwritten hw hfree
  | delete r =>
    obtain ⟨d, -, hfree, hw⟩ := deleteOutcome_passes hpass
    exact hwritten hw hfree
  | depend r =>
    rcases @dependOutcome_cases mod member lock r with ⟨-, hw⟩ | ⟨-, hw⟩ <;>
      · rw [outcome, hw] at he
        cases he
  | arrive a =>
    obtain ⟨-, hfree, hw⟩ := arriveOutcome_passes hpass
    exact hwritten hw hfree

/-- A plan without an error: every member named is there at a version that was checked, and every
set written was free to write, moves by one version however many operations touch it, is held for
the longest time any of them asks for or released, and counts its docs. -/
theorem evaluate_decides (mod : Modification) (now : Time)
    (member : String → String → Option Doc) (occupant : SetName → String → Option Doc)
    (lock : SetName → Lock) (hnow : 0 ≤ now)
    (h : (evaluate mod now member occupant lock).err = none) :
    (∀ c ∈ mod.docChanges, NamesMember mod member lock c.doc.ns c.doc.id c.doc.version) ∧
    (∀ r ∈ mod.docDeletes, NamesMember mod member lock r.ns r.id r.version) ∧
    (∀ r ∈ mod.docDepends, r.isSetRef = false → NamesMember mod member lock r.ns r.id r.version) ∧
    ∀ g, (g ∈ (evaluate mod now member occupant lock).locks ↔ asked mod member g ≠ []) ∧
      ∀ l, (evaluate mod now member occupant lock).locks.lookup g = some l →
        (lock g).heldByOther mod.claimant now = false ∧
        l = { stored := true
              version := if (lock g).stored then (lock g).version + 1 else 0
              claimant := if 0 < longest (asked mod member g) then mod.claimant else ""
              atTime := now + longest (asked mod member g)
              numDocs := (lock g).numDocs + inserted mod g - deleted mod member g } := by
  have hpass := (evaluate_err_none_iff _ _ _ _ _).mp h
  refine ⟨fun c hc => ?_, fun r hr => ?_, fun r hr hset => ?_, fun g => ⟨mem_locks_iff h g, ?_⟩⟩
  · obtain ⟨d, hd, -⟩ := changeOutcome_passes
      (hpass (.change c) (by simp [Modification.docOps, hc]))
    exact namesMember_of_atVersion h hd
  · obtain ⟨d, hd, -⟩ := deleteOutcome_passes
      (hpass (.delete r) (by simp [Modification.docOps, hr]))
    exact namesMember_of_atVersion h hd
  · have hp := hpass (.depend r) (by simp [Modification.docOps, hr])
    rcases @dependOutcome_cases mod member lock r with ⟨hd, -⟩ | ⟨-, he⟩
    · rw [DependHolds, hset] at hd
      obtain ⟨d, hd⟩ := hd
      exact namesMember_of_atVersion h hd
    · rw [outcome, he] at hp
      cases hp
  · intro l hl
    exact ⟨evaluate_lock_free h (AList.lookup_isSome.mp (by rw [hl]; rfl)),
      evaluate_lock_eq h hnow hl⟩

end Plan

/-- One stored member `d` of the set `n`/`k`. -/
def oneMember (ns id : String) : Option Doc :=
  if ns = "n" ∧ id = "d" then some { ns := "n", id := "d", key := "k", content := "1" } else none

/-- The set at version 3, held by `w`. -/
def heldAtThree (g : SetName) : Lock :=
  if g = ⟨"n", "k"⟩ then
    { stored := true, version := 3, claimant := "w", atTime := 120, numDocs := 1 }
  else absent

def threeWrites : Modification where
  claimant := "w"
  docInserts := [{ ns := "n", id := "e", key := "k", secondaryKey := "s", byDur := 7 }]
  docChanges := [{ doc := { ns := "n", id := "d", content := "2" }, byDur := 2 }]
  docArrives := [{ docID := newDocSetRef "n" "k" 3, byDur := 5 }]

theorem evaluate_decides_threeWrites :
    (evaluate threeWrites 100 oneMember (fun _ _ => none) heldAtThree).err = none ∧
    (∀ c ∈ threeWrites.docChanges,
      NamesMember threeWrites oneMember heldAtThree c.doc.ns c.doc.id c.doc.version) ∧
    (evaluate threeWrites 100 oneMember (fun _ _ => none) heldAtThree).locks.lookup ⟨"n", "k"⟩ =
      some { stored := true, version := 4, claimant := "w", atTime := 107, numDocs := 2 } :=
  have herr : (evaluate threeWrites 100 oneMember (fun _ _ => none) heldAtThree).err = none := by
    decide
  ⟨herr, (evaluate_decides threeWrites 100 oneMember (fun _ _ => none) heldAtThree (by decide)
    herr).1, by decide⟩

def holdFive (claimant : String) : Modification where
  claimant
  docInserts := [{ ns := "n", id := "d", key := "k", byDur := 5 }]

/-- A hold is lost when the clock stands before Go's zero time, where the arrival is not after the
zero time the walk starts from, and a hold for nobody is not a hold. -/
theorem evaluate_hold_lost :
    longest (asked (holdFive "w") (fun _ _ => none) ⟨"n", "k"⟩) = 5 ∧
    (evaluate (holdFive "w") (-10) (fun _ _ => none) (fun _ _ => none) fun _ => absent).err = none ∧
    (evaluate (holdFive "w") (-10) (fun _ _ => none) (fun _ _ => none)
      fun _ => absent).locks.lookup ⟨"n", "k"⟩ =
        some { stored := true, version := 0, claimant := "", atTime := -10, numDocs := 1 } ∧
    (evaluate (holdFive "") 10 (fun _ _ => none) (fun _ _ => none) fun _ => absent).err = none ∧
    (((evaluate (holdFive "") 10 (fun _ _ => none) (fun _ _ => none)
      fun _ => absent).locks.lookup ⟨"n", "k"⟩).map fun l => l.held 10) = some false := by
  decide

end EntroQ.Docset
