import EntroQ.Eqmr.Workers

/-! # The result of a map-reduce run

However workers are duplicated, crash and are overtaken, the map phase ends with every split
accepted once, and a run that is done has committed, for every partition with records, the
reduction of exactly those records. -/

namespace EntroQ.Eqmr
open Foundation

theorem filter_key_eq_singleton {α : Type*} {f : α → ℕ} {l : List α} (h : (l.map f).Nodup) {a : α}
    (ha : a ∈ l) : (l.filter fun b => f b = f a) = [a] := by
  induction l with
  | nil => cases ha
  | cons b l ih =>
    obtain ⟨hb, hl⟩ := List.nodup_cons.mp h
    rcases List.mem_cons.mp ha with rfl | ha
    · have hrest : (l.filter fun b => f b = f a) = [] := by
        rw [List.filter_eq_nil_iff]
        intro b hmem heq
        exact hb (List.mem_map.mpr ⟨b, hmem, of_decide_eq_true heq⟩)
      simp [hrest]
    · have hne : f b ≠ f a := fun heq => hb (List.mem_map.mpr ⟨a, ha, heq.symm⟩)
      simpa [hne] using ih hl ha

section Result
variable {job : Job} {d : RunData}

theorem Consistent.unmarked (h : Consistent job d) (hphase : d.phase = .map) (p : ℕ) :
    d.results.value? p = none := by
  rw [← Option.not_isSome_iff_eq_none]
  intro hp
  exact (h.marked p hp).2.2.1 hphase

/-- One finish is accepted for each split, and in the map phase its runs are what is published
for the split. -/
theorem Consistent.accepted_once (h : Consistent job d) (hphase : d.phase = .map)
    (hall : d.AllAccepted) {key : ℕ} (hkey : key < job.splits.length) :
    ∃ md, (d.accepted.filter fun md => md.splitKey = key) = [md] ∧
      job.IsAttempt d.store key md.runs ∧
      ∀ p n run, d.mapOut.value? (p, key, n) = some run ↔
        run.partition = p ∧ md.runs[n]? = some run := by
  obtain ⟨md, hmd, rfl⟩ := List.mem_map.mp (h.splitGone key hkey (hall key))
  refine ⟨md, filter_key_eq_singleton h.acceptedOnce hmd, h.attempt md hmd, fun p n run => ?_⟩
  constructor
  · intro hrun
    obtain ⟨hp, md', hmd', heq, hn⟩ := h.pointer p _ n run hrun
    obtain rfl := List.inj_on_of_nodup_map h.acceptedOnce hmd' hmd heq
    exact ⟨hp, hn⟩
  · rintro ⟨rfl, hn⟩
    rcases h.published md hmd n run hn with hrun | hmark
    · exact hrun
    · rw [h.unmarked hphase] at hmark
      cases hmark

theorem Consistent.emits_isSome (h : Consistent job d) (hall : d.AllAccepted) {key : ℕ}
    (hkey : key < job.splits.length) : (job.emits key).isSome := by
  obtain ⟨md, hmd, rfl⟩ := List.mem_map.mp (h.splitGone key hkey (hall key))
  obtain ⟨records, -, hemits, -⟩ := h.attempt md hmd
  rw [hemits]
  rfl

/-- When the run is done, a run accepted for a partition has been consumed, so the partition has
its output. -/
theorem Consistent.runsFor_eq_nil (h : Consistent job d) (hphase : d.phase = .done) {p : ℕ}
    (hp : d.committed p = none) : d.runsFor p = [] := by
  rw [List.eq_nil_iff_forall_not_mem]
  intro run hrun
  obtain ⟨rfl, md, hmd, hmem⟩ := mem_runsFor.mp hrun
  obtain ⟨n, hn⟩ := List.getElem?_of_mem hmem
  rcases h.published md hmd n run hn with hthere | hmark
  · rw [h.done hphase] at hthere
    cases hthere
  · have hcommitted := (h.marked _ hmark).2.1
    rw [hp] at hcommitted
    cases hcommitted

/-- In every run of any number of workers, the phase goes from map to reduce or done only when
each split has been accepted exactly once, with the runs of one attempt at it published; and once
the phase is done, the output of a partition is the reduction of the records that all splits
emitted for it, and a partition without output received none. -/
theorem run_result (job : Job) (events : List Event) :
    let y := (after (step job) (setup job) events).shared
    (∀ e, let y' := (step job (after (step job) (setup job) events) e).shared
      y.phase = .map → y'.phase = .reduce ∨ y'.phase = .done →
      ∀ key < job.splits.length, ∃ md,
        (y.accepted.filter fun md => md.splitKey = key) = [md] ∧
        job.IsAttempt y.store key md.runs ∧
        ∀ p n run, y.mapOut.value? (p, key, n) = some run ↔
          run.partition = p ∧ md.runs[n]? = some run) ∧
    (y.phase = .done →
      (∀ key < job.splits.length, (job.emits key).isSome) ∧
      ∀ p < job.reduceParts,
        (∀ output, y.committed p = some output →
          reductionOf job.reduceFn (job.recordsOf p) = some output) ∧
        (y.committed p = none → job.recordsOf p = [])) := by
  have h := holds_after job events
  generalize after (step job) (setup job) events = y at h
  refine ⟨fun e hmap hend key hkey => ?_, fun hdone => ?_⟩
  · obtain ⟨hlater, hnext⟩ := h.step e
    have hmoved := hlater.moved (by
      rw [hmap]
      rcases hend with hend | hend <;> rw [hend] <;> decide)
    have hall : y.shared.AllAccepted := by
      have hall := hnext.shared.data.ended hend
      rw [hmoved] at hall
      exact hall
    exact h.shared.data.accepted_once hmap hall hkey
  · have hdata := h.shared.data
    have hall := hdata.ended (.inr hdone)
    refine ⟨fun key hkey => hdata.emits_isSome hall hkey, fun p hp => ⟨?_, fun hnone => ?_⟩⟩
    · exact hdata.committed p
    · exact hdata.recordsOf_eq_nil hall hp (hdata.runsFor_eq_nil hdone hnone)

end Result

/-! ## A run -/

def twoWords : Job where
  prefix_ := "words"
  splits := [[⟨"0", "a"⟩], [⟨"1", "b"⟩]]
  reduceParts := 2
  mapFn kv := ([⟨kv.value, "1"⟩], true)
  reduceFn _ values := some (toString values.length)
  reduceParts_pos := by decide
  splits_ne_nil := by decide

/-- A worker claims a task and takes some steps with it. -/
def works (pid key steps : ℕ) : List Event := .claim pid key 0 :: List.replicate steps (.step pid)

/-- One map task is duplicated, a mapper crashes before its commit and the acceptance of a
partition between the sink and its commit; both tasks are claimed again. -/
def troubledRun : List Event :=
  .duplicate 0 :: works 0 0 2 ++ [.crash 0] ++ works 1 0 3 ++ works 2 2 3 ++ works 3 1 3 ++
    works 4 3 3 ++ works 4 4 4 ++ works 4 5 3 ++ works 5 8 6 ++ works 6 9 4 ++ works 6 10 4 ++
    works 7 11 4 ++ [.crash 7] ++ works 7 11 5 ++ works 7 12 5 ++ works 5 15 7

theorem run_result_troubled :
    (after (step twoWords) (setup twoWords) troubledRun).shared.phase = .done ∧
      reductionOf twoWords.reduceFn (twoWords.recordsOf 0) = some [⟨"a", "1"⟩] := by
  have hdone : (after (step twoWords) (setup twoWords) troubledRun).shared.phase = .done := by
    decide +kernel
  exact ⟨hdone, (((run_result twoWords troubledRun).2 hdone).2 0 (by decide)).1 _
    (by decide +kernel)⟩

/-- The first map task is moved to its error queue, and the run fails with no split accepted. -/
theorem failed_before_accepting :
    let y := after (step twoWords) (setup twoWords)
      [.claim 0 0 0, .fail 0 (.move "open split"), .step 0, .claim 1 0 0, .step 1, .step 1]
    y.shared.phase = .map ∧ (step twoWords y (.step 1)).shared.phase = .failed ∧
      (step twoWords y (.step 1)).shared.accepted = [] ∧ twoWords.splits.length = 2 := by
  decide +kernel

end EntroQ.Eqmr
