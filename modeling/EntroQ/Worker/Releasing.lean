import EntroQ.Docset.Asked
import EntroQ.Worker.DoModify

/-! # Doc sets after a commit

The commit of a result releases every set the worker holds that the result does not decide about
itself. `releasing` goes by the keys a change carries, and the backend by the keys the stored docs
have; a set is kept where a change that asks to hold it is of a doc in another set. -/

namespace EntroQ.Worker
open Docset

section Commit
variable (claimant : String) (result : Option Result) (final : Held)

/-- What the handler's result changes, before the releases are added. -/
def ownModification : Modification :=
  match result with
  | some r => if r.mods.isEmpty then newModification "" [] else resultModification final r.mods
  | none => newModification "" []

/-- What `Finish` sends to the backend. -/
def sentModification : Modification :=
  newModification claimant [withModification (finishModification result final)]

theorem finishModification_eq :
    finishModification result final = releasing (ownModification result final) final.sets := by
  cases result <;> rfl

end Commit

/-- The doc operations of a release. -/
theorem releasing_docOps (m : Modification) (sets : List DocSet) :
    (releasing m sets).docOps = m.docOps ++
      (sets.filter fun g => !decided m g).map fun g => .arrive { docID := g.ref, byDur := 0 } := by
  unfold releasing
  split_ifs with hnil
  · rw [List.isEmpty_iff.mp hnil]
    simp
  · simp [Modification.docOps, arriving, Function.comp_def]

theorem sentModification_docOps (claimant : String) (result : Option Result) (final : Held) :
    (sentModification claimant result final).docOps =
      (ownModification result final).docOps ++
        (final.sets.filter fun g => !decided (ownModification result final) g).map
          fun g => .arrive { docID := g.ref, byDur := 0 } := by
  rw [← releasing_docOps, ← finishModification_eq]
  rfl

section Asked
variable (m : Modification) (member : String → String → Option Doc)

/-- A release asks for nothing that was not asked for. -/
theorem longest_append_zeros (ds zs : List Duration) (hz : ∀ z ∈ zs, z = 0) :
    longest (ds ++ zs) = longest ds := by
  induction zs using List.reverseRecOn with
  | nil => rw [List.append_nil]
  | append_singleton zs z ih =>
    rw [← List.append_assoc, longest_append_singleton, hz z (by simp),
      max_eq_left (longest_nonneg _)]
    exact ih fun z' hz' => hz z' (List.mem_append_left _ hz')

/-- A set the modification decides about without writing it is one whose key a change carries. -/
theorem decided_unwritten {s : DocSet} (hnil : asked m member ⟨s.ns, s.key⟩ = []) :
    decided m s = true ↔
      ∃ c ∈ m.docChanges, 0 < c.byDur ∧ c.doc.ns = s.ns ∧ c.doc.key = s.key := by
  rw [asked, List.filterMap_eq_nil_iff] at hnil
  simp only [decided, Bool.or_eq_true, List.any_eq_true, Bool.and_eq_true, beq_iff_eq,
    decide_eq_true_eq, and_assoc]
  refine or_iff_right ?_
  rintro (⟨a, ha, hns, hkey⟩ | ⟨ins, hins, -, hns, hkey⟩)
  · have hnone := hnil (.arrive a) (by simp [Modification.docOps, ha])
    simp [asks, hns, hkey] at hnone
  · have hnone := hnil (.insert ins) (by simp [Modification.docOps, hins])
    simp [asks, hns, hkey] at hnone

theorem decided_congr {s s' : DocSet} (hns : s.ns = s'.ns) (hkey : s.key = s'.key) :
    decided m s = decided m s' := by
  simp only [decided, hns, hkey]

end Asked

section Sent
variable (claimant : String) (result : Option Result) (final : Held)
  (member : String → String → Option Doc)

/-- What the releases ask of a set: nothing, once for each that names it. -/
theorem asked_sent (g : SetName) :
    ∃ zs : List Duration, (∀ z ∈ zs, z = 0) ∧
      (zs ≠ [] ↔ ∃ s ∈ final.sets, decided (ownModification result final) s = false ∧
        (⟨s.ns, s.key⟩ : SetName) = g) ∧
      asked (sentModification claimant result final) member g =
        asked (ownModification result final) member g ++ zs := by
  refine ⟨((final.sets.filter fun s => !decided (ownModification result final) s).map
    fun s => DocOp.arrive { docID := s.ref, byDur := 0 }).filterMap (asks member g), ?_, ?_, ?_⟩
  · intro z hz
    obtain ⟨op, hop, ha⟩ := List.mem_filterMap.mp hz
    obtain ⟨s, -, rfl⟩ := List.mem_map.mp hop
    rw [asks, Option.ite_none_right_eq_some] at ha
    exact (Option.some.inj ha.2).symm
  · rw [ne_eq, List.filterMap_eq_nil_iff]
    push Not
    constructor
    · rintro ⟨op, hop, ha⟩
      obtain ⟨s, hs, rfl⟩ := List.mem_map.mp hop
      rw [List.mem_filter, Bool.not_eq_true'] at hs
      refine ⟨s, hs.1, hs.2, ?_⟩
      by_contra hne
      exact ha (if_neg hne)
    · rintro ⟨s, hs, hdec, rfl⟩
      refine ⟨_, List.mem_map.mpr ⟨s, List.mem_filter.mpr ⟨hs, by simp [hdec]⟩, rfl⟩, ?_⟩
      simp [asks, DocSet.ref, newDocSetRef]
  · rw [asked, sentModification_docOps, List.filterMap_append]
    rfl

theorem longest_sent (g : SetName) :
    longest (asked (sentModification claimant result final) member g) =
      longest (asked (ownModification result final) member g) := by
  obtain ⟨zs, hz, -, heq⟩ := asked_sent claimant result final member g
  rw [heq, longest_append_zeros _ _ hz]

theorem asked_sent_ne_nil (g : SetName) :
    asked (sentModification claimant result final) member g ≠ [] ↔
      asked (ownModification result final) member g ≠ [] ∨
      ∃ s ∈ final.sets, decided (ownModification result final) s = false ∧
        (⟨s.ns, s.key⟩ : SetName) = g := by
  obtain ⟨zs, -, hne, heq⟩ := asked_sent claimant result final member g
  rw [heq, ← hne, ne_eq, List.append_eq_nil_iff, not_and_or]

/-- A set that is decided about and not written is left alone by the commit. -/
theorem asked_sent_nil {s : DocSet}
    (hnil : asked (ownModification result final) member ⟨s.ns, s.key⟩ = [])
    (hdec : decided (ownModification result final) s = true) :
    asked (sentModification claimant result final) member ⟨s.ns, s.key⟩ = [] := by
  by_contra hne
  rcases (asked_sent_ne_nil claimant result final member _).mp hne with hne | ⟨s', -, hdec', hname⟩
  · exact hne hnil
  · injection hname with hns hkey
    rw [decided_congr _ hns hkey, hdec] at hdec'
    cases hdec'

end Sent

/-- What is left of the lock of a set of which durations were asked: nobody holds it if none was
positive, and otherwise the claimant until the largest. -/
def EndsAs (l : Lock) (claimant : String) (now : Time) (durations : List Duration) : Prop :=
  ((∀ d ∈ durations, d ≤ 0) → l.held now = false) ∧
  ∀ d ∈ durations, 0 < d → (∀ d' ∈ durations, d' ≤ d) → l.claimant = claimant ∧ l.atTime = now + d

theorem longest_eq_zero {ds : List Duration} (h : ∀ d ∈ ds, d ≤ 0) : longest ds = 0 := by
  by_contra hne
  have hpos : 0 < longest ds := lt_of_le_of_ne (longest_nonneg ds) (Ne.symm hne)
  exact absurd (h _ ((longest_isGreatest ds).2 hpos)) (not_le.mpr hpos)

theorem longest_eq_of_greatest {ds : List Duration} {d : Duration} (hd : d ∈ ds) (hpos : 0 < d)
    (hle : ∀ d' ∈ ds, d' ≤ d) : longest ds = d := by
  obtain ⟨hub, hmem⟩ := longest_isGreatest ds
  have hge := hub d hd
  exact le_antisymm (hle _ (hmem (lt_of_lt_of_le hpos hge))) hge

section Released
variable {claimant : String} {result : Option Result} {final : Held} {now : Time}
  {member : String → String → Option Doc} {occupant : SetName → String → Option Doc}
  {lock : SetName → Lock}

def lockAfter (mod : Modification) (now : Time) (member : String → String → Option Doc)
    (occupant : SetName → String → Option Doc) (lock : SetName → Lock) (g : SetName) : Lock :=
  ((evaluate mod now member occupant lock).locks.lookup g).getD (lock g)

theorem lockAfter_written {mod : Modification} (hnow : 0 ≤ now)
    (h : (evaluate mod now member occupant lock).err = none) {g : SetName}
    (hg : asked mod member g ≠ []) :
    (lockAfter mod now member occupant lock g).claimant =
        (if 0 < longest (asked mod member g) then mod.claimant else "") ∧
      (lockAfter mod now member occupant lock g).atTime = now + longest (asked mod member g) := by
  obtain ⟨l, hl⟩ := Option.isSome_iff_exists.mp
    (AList.lookup_isSome.mpr ((mem_locks_iff h g).mpr hg))
  rw [lockAfter, hl, Option.getD_some, evaluate_lock_eq h hnow hl]
  exact ⟨rfl, rfl⟩

theorem lockAfter_kept {mod : Modification}
    (h : (evaluate mod now member occupant lock).err = none) {g : SetName}
    (hg : asked mod member g = []) : lockAfter mod now member occupant lock g = lock g := by
  have hno : g ∉ (evaluate mod now member occupant lock).locks :=
    fun hin => (mem_locks_iff h g).mp hin hg
  rw [lockAfter, AList.lookup_eq_none.mpr hno, Option.getD_none]

/-- A commit leaves every held set free, or held by the worker for the longest time its result
asks for, and moves no other set than the result itself does, exactly if every held set that the
releases leave out because a change carries its key is written by the result or free already. -/
theorem released_iff (claimant : String) (result : Option Result) (final : Held) (now : Time)
    (member : String → String → Option Doc) (occupant : SetName → String → Option Doc)
    (lock : SetName → Lock) (hnow : 0 ≤ now)
    (h : (evaluate (sentModification claimant result final) now member occupant lock).err =
      none) :
    ((∀ s ∈ final.sets,
        EndsAs (lockAfter (sentModification claimant result final) now member occupant lock
          ⟨s.ns, s.key⟩) claimant now
          (asked (ownModification result final) member ⟨s.ns, s.key⟩)) ∧
      ∀ g, (∀ s ∈ final.sets, (⟨s.ns, s.key⟩ : SetName) ≠ g) →
        (g ∈ (evaluate (sentModification claimant result final) now member occupant lock).locks ↔
          asked (ownModification result final) member g ≠ [])) ↔
    ∀ s ∈ final.sets,
      (∃ c ∈ (ownModification result final).docChanges, 0 < c.byDur ∧ c.doc.ns = s.ns ∧
        c.doc.key = s.key) →
      asked (ownModification result final) member ⟨s.ns, s.key⟩ ≠ [] ∨
        (lock ⟨s.ns, s.key⟩).held now = false := by
  have hothers : ∀ g, (∀ s ∈ final.sets, (⟨s.ns, s.key⟩ : SetName) ≠ g) →
      (g ∈ (evaluate (sentModification claimant result final) now member occupant lock).locks ↔
        asked (ownModification result final) member g ≠ []) := by
    intro g hg
    rw [mem_locks_iff h, asked_sent_ne_nil]
    exact or_iff_left fun ⟨s, hs, _, he⟩ => hg s hs he
  rw [and_iff_left hothers]
  -- a set the result writes ends as it asks, whether it is released besides or not
  have hwritten : ∀ g, asked (ownModification result final) member g ≠ [] ∨
      (∃ s ∈ final.sets, decided (ownModification result final) s = false ∧
        (⟨s.ns, s.key⟩ : SetName) = g) →
      EndsAs (lockAfter (sentModification claimant result final) now member occupant lock g)
        claimant now (asked (ownModification result final) member g) := by
    intro g hg
    obtain ⟨hclaimant, hat⟩ := lockAfter_written hnow h
      ((asked_sent_ne_nil claimant result final member g).mpr hg)
    rw [longest_sent] at hclaimant hat
    constructor
    · intro hnone
      rw [longest_eq_zero hnone, if_neg (lt_irrefl _)] at hclaimant
      simp [Lock.held, hclaimant]
    · intro d hd hpos hle
      rw [longest_eq_of_greatest hd hpos hle] at hclaimant hat
      rw [if_pos hpos] at hclaimant
      exact ⟨hclaimant, hat⟩
  constructor
  · intro hends s hs hchange
    by_cases hnil : asked (ownModification result final) member ⟨s.ns, s.key⟩ = []
    · right
      have hdec := (decided_unwritten _ member hnil).mpr hchange
      rw [← lockAfter_kept h (asked_sent_nil claimant result final member hnil hdec)]
      exact (hends s hs).1 (by simp [hnil])
    · exact .inl hnil
  · intro hkeeps s hs
    by_cases hnil : asked (ownModification result final) member ⟨s.ns, s.key⟩ = []
    · cases hdec : decided (ownModification result final) s with
      | false => exact hwritten _ (.inr ⟨s, hs, hdec, rfl⟩)
      | true =>
        have hfree := (hkeeps s hs ((decided_unwritten _ member hnil).mp hdec)).resolve_left
          (not_not.mpr hnil)
        rw [lockAfter_kept h (asked_sent_nil claimant result final member hnil hdec), hnil]
        exact ⟨fun _ => hfree, by simp⟩
    · exact hwritten _ (.inl hnil)

end Released

def twoSets : Held where
  task := { queue := "q", id := "t", version := 1, atTime := 30, claimant := "w" }
  sets :=
    [{ ns := "n", key := "k", version := 1, claimant := "w", atTime := 30, numDocs := 1
       docs := [{ ns := "n", id := "d", version := 1, claimant := "w", atTime := 30, key := "k" }] },
     { ns := "n", key := "l", version := 1, claimant := "w", atTime := 30 }]

def twoLocks (g : SetName) : Lock :=
  if g = ⟨"n", "k"⟩ then
    { stored := true, version := 1, claimant := "w", atTime := 30, numDocs := 1 }
  else if g = ⟨"n", "l"⟩ then { stored := true, version := 1, claimant := "w", atTime := 30 }
  else absent

def keepFirst : Result where
  mods := (twoSets.sets.flatMap DocSet.docs).map fun d => d.change [withDocArrivalTimeBy 7]

theorem released_keepFirst :
    (evaluate (sentModification "w" (some keepFirst) twoSets) 20 oneMember (fun _ _ => none)
      twoLocks).err = none ∧
    (∀ s ∈ twoSets.sets,
      EndsAs (lockAfter (sentModification "w" (some keepFirst) twoSets) 20 oneMember
        (fun _ _ => none) twoLocks ⟨s.ns, s.key⟩) "w" 20
        (asked (ownModification (some keepFirst) twoSets) oneMember ⟨s.ns, s.key⟩)) ∧
    (lockAfter (sentModification "w" (some keepFirst) twoSets) 20 oneMember (fun _ _ => none)
      twoLocks ⟨"n", "k"⟩).atTime = 27 ∧
    (lockAfter (sentModification "w" (some keepFirst) twoSets) 20 oneMember (fun _ _ => none)
      twoLocks ⟨"n", "l"⟩).claimant = "" :=
  have herr : (evaluate (sentModification "w" (some keepFirst) twoSets) 20 oneMember
      (fun _ _ => none) twoLocks).err = none := by decide
  ⟨herr, ((released_iff "w" (some keepFirst) twoSets 20 oneMember (fun _ _ => none) twoLocks
    (by decide) herr).mpr (by decide)).1, by decide, by decide⟩

/-- The worker holds the second set, and changes a doc of the first under the second's key. -/
def strayKey : Result where
  mods := [({ ns := "n", id := "d", version := 1, key := "l" } : Doc).change
    [withDocArrivalTimeBy 7]]

/-- The second set is neither released nor written: the worker holds it after the commit. -/
theorem strayKey_keeps :
    let final : Held := { twoSets with sets := twoSets.sets.drop 1 }
    (evaluate (sentModification "w" (some strayKey) final) 20 oneMember (fun _ _ => none)
      twoLocks).err = none ∧
    asked (ownModification (some strayKey) final) oneMember ⟨"n", "l"⟩ = [] ∧
    (lockAfter (sentModification "w" (some strayKey) final) 20 oneMember (fun _ _ => none)
      twoLocks ⟨"n", "l"⟩).held 20 = true := by
  decide

end EntroQ.Worker
