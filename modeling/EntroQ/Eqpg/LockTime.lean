import EntroQ.Eqpg.DocLocks

/-! # The time a modification in Postgres goes by

The database's time is read with the lock rows, by each statement anew, and a statement that finds
no row leaves it at zero. So the last statement decides: it locks the sets after the last
exclusive one or, if there are none, a run of exclusive ones. -/

namespace EntroQ.Eqpg

open Docset

section LockTime
variable (clock : Time) (rows : SetName → Option Row) (sets : List SetName)
  (exclusive : Finset SetName)

def sharedLast : List SetName := (sortSets sets).rtakeWhile fun g => g ∉ exclusive

def TimeRead : Prop :=
  sharedLast sets exclusive = [] ∨ ∃ g ∈ sharedLast sets exclusive, (rows g).isSome = true

end LockTime

section Time
variable {clock : Time} {rows : SetName → Option Row} {exclusive : Finset SetName}

theorem now_upsertSets {run : List SetName} (s : LockedSets) (hrun : run ≠ []) :
    (s.upsertSets clock run).now = clock := by
  simp [LockedSets.upsertSets, LockedSets.scanLocks, hrun]

theorem now_shareSets (run : List SetName) (s : LockedSets) :
    (s.shareSets clock run).now = if ∃ g ∈ run, (s.rows g).isSome = true then clock else 0 := by
  simp only [LockedSets.shareSets, LockedSets.scanLocks, List.isEmpty_iff, List.filter_eq_nil_iff]
  split_ifs with hnone hsome hsome
  · obtain ⟨g, hg, hrow⟩ := hsome
    exact absurd hrow (hnone g hg)
  · rfl
  · rfl
  · push Not at hnone hsome
    obtain ⟨g, hg, hrow⟩ := hnone
    exact absurd hrow (hsome g hg)

theorem splitBy_sharedLast (l : List SetName) (h : l.rtakeWhile (fun g => g ∉ exclusive) ≠ []) :
    l.splitBy (fun a b => decide (a ∈ exclusive) == decide (b ∈ exclusive)) =
      (l.rdropWhile fun g => g ∉ exclusive).splitBy
          (fun a b => decide (a ∈ exclusive) == decide (b ∈ exclusive)) ++
        [l.rtakeWhile fun g => g ∉ exclusive] := by
  have hshared (g : SetName) (hg : g ∈ l.rtakeWhile fun g => g ∉ exclusive) : g ∉ exclusive := by
    simpa using List.mem_rtakeWhile_imp hg
  conv_lhs => rw [← List.rdropWhile_append_rtakeWhile (p := fun g => g ∉ exclusive) (l := l)]
  rw [List.splitBy_append, List.splitBy_of_isChain h]
  · apply List.Pairwise.isChain
    apply List.pairwise_of_forall_mem_list
    intro a ha b hb
    simp [hshared a ha, hshared b hb]
  · intro a ha b hb
    obtain ⟨hne, rfl⟩ := List.mem_getLast?_eq_getLast ha
    have hlast : (l.rdropWhile fun g => g ∉ exclusive).getLast hne ∈ exclusive := by
      simpa using l.rdropWhile_last_not (fun g => decide (g ∉ exclusive)) hne
    rw [decide_eq_true hlast, decide_eq_false (hshared b (List.mem_of_mem_head? hb))]
    rfl

theorem now_lockRun_exclusive {run : List SetName} (s : LockedSets)
    (hrun : ∀ a ∈ run, ∀ b ∈ run, (a ∈ exclusive ↔ b ∈ exclusive)) {g : SetName} (hg : g ∈ run)
    (hexcl : g ∈ exclusive) : (lockRun clock exclusive s run).now = clock := by
  cases run with
  | nil => simp at hg
  | cons a run =>
    have ha : a ∈ exclusive := (hrun a (by simp) g hg).mpr hexcl
    simp only [lockRun, List.head?_cons, if_pos ha]
    exact now_upsertSets s (by simp)

theorem now_lockRun_shared {run : List SetName} (s : LockedSets) (hne : run ≠ [])
    (hrun : ∀ a ∈ run, a ∉ exclusive) :
    (lockRun clock exclusive s run).now =
      if ∃ g ∈ run, (s.rows g).isSome = true then clock else 0 := by
  cases run with
  | nil => exact absurd rfl hne
  | cons a run =>
    simp only [lockRun, List.head?_cons, if_neg (hrun a (by simp))]
    exact now_shareSets (a :: run) s

variable (clock rows exclusive)

theorem now_foldl_exclusive (l : List SetName) (s : LockedSets) (hne : l ≠ [])
    (hlast : l.rtakeWhile (fun g => g ∉ exclusive) = []) :
    ((l.splitBy fun a b => decide (a ∈ exclusive) == decide (b ∈ exclusive)).foldl
      (lockRun clock exclusive) s).now = clock := by
  have hexcl : l.getLast hne ∈ exclusive := by
    simpa using List.rtakeWhile_eq_nil_iff.mp hlast hne
  have hruns := List.splitBy_ne_nil (r := fun a b => decide (a ∈ exclusive) == decide (b ∈ exclusive)).mpr hne
  have hend := List.getLast_getLast_splitBy
    (fun a b => decide (a ∈ exclusive) == decide (b ∈ exclusive)) hne
  rw [← List.dropLast_append_getLast hruns, List.foldl_append, List.foldl_cons, List.foldl_nil]
  refine now_lockRun_exclusive _ (splitBy_mode (List.getLast_mem hruns)) ?_ hexcl
  rw [← hend]
  exact List.getLast_mem _

theorem now_foldl_shared (l : List SetName)
    (hlast : l.rtakeWhile (fun g => g ∉ exclusive) ≠ []) :
    ((l.splitBy fun a b => decide (a ∈ exclusive) == decide (b ∈ exclusive)).foldl
      (lockRun clock exclusive) { rows }).now =
      if ∃ g ∈ l.rtakeWhile (fun g => g ∉ exclusive), (rows g).isSome = true then clock else 0 := by
  have hshared (g : SetName) (hg : g ∈ l.rtakeWhile fun g => g ∉ exclusive) : g ∉ exclusive := by
    simpa using List.mem_rtakeWhile_imp hg
  rw [splitBy_sharedLast l hlast, List.foldl_append, List.foldl_cons, List.foldl_nil,
    now_lockRun_shared _ hlast hshared]
  -- locking the sets before them has not touched the rows of the shared ones
  let runs := (l.rdropWhile fun g => g ∉ exclusive).splitBy
    fun a b => decide (a ∈ exclusive) == decide (b ∈ exclusive)
  have hlocked : Locked exclusive rows ([] ++ runs.flatten)
      (runs.foldl (lockRun clock exclusive) { rows }) :=
    Locked.start.foldl fun run hrun => splitBy_mode hrun
  congr 1
  apply propext
  constructor
  · rintro ⟨g, hg, hrow⟩
    exact ⟨g, hg, by rwa [hlocked.rest g (.inr (hshared g hg))] at hrow⟩
  · rintro ⟨g, hg, hrow⟩
    exact ⟨g, hg, by rwa [hlocked.rest g (.inr (hshared g hg))]⟩

open Classical in
theorem now_lockSets (sets : List SetName) :
    (lockSets clock rows sets exclusive).now =
      if TimeRead rows sets exclusive then clock else 0 := by
  unfold lockSets TimeRead sharedLast
  by_cases hnil : sets = []
  · simp [hnil, sortSets]
  · have hsorted : sortSets sets ≠ [] := by
      simpa [sortSets, ← List.length_eq_zero_iff] using hnil
    rw [if_neg (by simpa using hnil)]
    by_cases hlast : (sortSets sets).rtakeWhile (fun g => g ∉ exclusive) = []
    · rw [now_foldl_exclusive clock exclusive _ _ hsorted hlast, if_pos (.inl hlast)]
    · rw [now_foldl_shared clock rows exclusive _ hlast]
      simp only [hlast, false_or]

/-- The stored lock is another claimant's, and runs past the database's time. -/
def HeldByOther (clock : Time) (l : Lock) (claimant : String) : Prop :=
  l.claimant ≠ "" ∧ l.claimant ≠ claimant ∧ clock < l.atTime

theorem heldByOther_iff (l : Lock) (claimant : String) :
    l.heldByOther claimant clock = true ↔ HeldByOther clock l claimant := by
  simp [Lock.heldByOther, Lock.held, HeldByOther]
  tauto

theorem now_eq_clock_iff (sets : List SetName) :
    (lockSets clock rows sets exclusive).now = clock ↔
      clock = 0 ∨ TimeRead rows sets exclusive := by
  rw [now_lockSets]
  split_ifs with h
  · simp [h]
  · simp [h, eq_comm]

/-- The locks read are the stored ones, and they are judged by the database's time exactly if the
last statement has found a row. Then a modification's plan is the one made of the stored locks at
the database's time. -/
theorem lockSets_time_iff (sets : List SetName) :
    (((lockSets clock rows sets exclusive).now = clock ∧
      ∀ g ∈ sets, (lockSets clock rows sets exclusive).lock g = storedLock rows g ∧
        ∀ claimant, ((lockSets clock rows sets exclusive).lock g).heldByOther claimant
            (lockSets clock rows sets exclusive).now = true ↔
          HeldByOther clock (storedLock rows g) claimant) ↔
      clock = 0 ∨ TimeRead rows sets exclusive) ∧
    ∀ mod member occupant,
      clock = 0 ∨ TimeRead rows (Docset.sets mod member) (Docset.exclusive mod member) →
      let held := lockSets clock rows (Docset.sets mod member) (Docset.exclusive mod member)
      evaluate mod held.now member occupant held.lock =
        evaluate mod clock member occupant (storedLock rows) := by
  have hread : ∀ g ∈ sets, (lockSets clock rows sets exclusive).lock g = storedLock rows g :=
    fun g hg => (lockSets_locked clock rows sets exclusive).read g (mem_sortSets.mpr hg)
  refine ⟨⟨?_, ?_⟩, ?_⟩
  · rintro ⟨h, -⟩
    exact (now_eq_clock_iff ..).mp h
  · intro h
    have hnow := (now_eq_clock_iff clock rows exclusive sets).mpr h
    refine ⟨hnow, fun g hg => ⟨hread g hg, fun claimant => ?_⟩⟩
    rw [hread g hg, hnow]
    exact heldByOther_iff clock _ claimant
  · intro mod member occupant h
    dsimp only
    rw [plan_locked, (now_eq_clock_iff ..).mpr h]

/-- A set that another claimant held until five is still judged to be held at ten, as the set
locked after it is not stored. -/
theorem lockSets_time_lost :
    let held := lockSets 10
      (fun g => if g = ⟨"ns", "a"⟩ then some { version := 0, claimant := "other", atTime := 5 }
        else none)
      [⟨"ns", "a"⟩, ⟨"ns", "b"⟩] {⟨"ns", "a"⟩}
    held.now = 0 ∧ (held.lock ⟨"ns", "a"⟩).heldByOther "me" held.now = true ∧
      (held.lock ⟨"ns", "a"⟩).atTime < 10 := by
  have hsorted : sortSets [⟨"ns", "a"⟩, ⟨"ns", "b"⟩] = [⟨"ns", "a"⟩, ⟨"ns", "b"⟩] :=
    List.mergeSort_of_pairwise (by decide)
  rw [lockSets, hsorted]
  decide

end Time
end EntroQ.Eqpg
