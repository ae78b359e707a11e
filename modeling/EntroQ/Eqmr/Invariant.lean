import EntroQ.Eqmr.System

/-! # What holds of a run's data

A split doc is there until a finish for its split is accepted, and the runs of the accepted finish
are published until the partition they belong to has its result marker. Once all splits are
accepted the published runs of a partition hold exactly the records of that partition, so every
attempt to reduce it gives the same output. -/

namespace EntroQ.Eqmr
open Foundation

namespace Job
variable (job : Job)

def emits (key : ℕ) : Option (List IntermediateRecord) :=
  (job.splits[key]?.map (runMapper job.mapFn)).bind fun out =>
    if out.2 then some out.1 else none

def recordsOf (p : ℕ) : List IntermediateRecord :=
  (List.range job.splits.length).flatMap fun key =>
    recordsFor job.reduceParts ((job.emits key).getD []) p

/-- What the output of a partition is meant to be. -/
def output (p : ℕ) : Option (List KV) := reductionOf job.reduceFn (job.recordsOf p)

/-- The runs are those of one attempt at the split: an attempt put them, in this order, for the
records that the split emits. -/
def IsAttempt (store : List (List IntermediateRecord)) (key : ℕ) (runs : List IntermediateRun) :
    Prop :=
  ∃ records maxBytes, job.emits key = some records ∧
    List.Forall₂ (fun run put => run.partition = put.1 ∧ store[run.ref]? = some put.2) runs
      (putsOf job.reduceParts maxBytes records)

end Job

namespace RunData
variable (d : RunData)

def phase : Phase := d.state.value.phase

def AllAccepted : Prop := ∀ key, d.splits.value? key = none

def Reducing : Prop := d.phase ≠ .map ∧ d.AllAccepted

def runsFor (p : ℕ) : List IntermediateRun :=
  d.accepted.flatMap fun md => md.runs.filter fun run => run.partition = p

def NoPointers : Prop := ∀ place, d.mapOut.value? place = none

end RunData

/-- What holds of a run's data between any two steps. -/
structure Consistent (job : Job) (d : RunData) : Prop where
  split : ∀ key doc, d.splits.value? key = some doc →
    job.splits[key]? = some doc.records ∧ key ∉ d.accepted.map (·.splitKey)
  splitGone : ∀ key < job.splits.length, d.splits.value? key = none →
    key ∈ d.accepted.map (·.splitKey)
  acceptedOnce : (d.accepted.map (·.splitKey)).Nodup
  attempt : ∀ md ∈ d.accepted, job.IsAttempt d.store md.splitKey md.runs
  pointer : ∀ p key n run, d.mapOut.value? (p, key, n) = some run →
    run.partition = p ∧ ∃ md ∈ d.accepted, md.splitKey = key ∧ md.runs[n]? = some run
  published : ∀ md ∈ d.accepted, ∀ n run, md.runs[n]? = some run →
    d.mapOut.value? (run.partition, md.splitKey, n) = some run ∨
      (d.results.value? run.partition).isSome
  marked : ∀ p, (d.results.value? p).isSome →
    (∀ key n, d.mapOut.value? (p, key, n) = none) ∧ (d.committed p).isSome ∧ d.Reducing
  committed : ∀ p output, d.committed p = some output → job.output p = some output
  staged : ∀ x ∈ d.staged, job.output x.1 = some x.2
  ended : d.phase = .reduce ∨ d.phase = .done → d.AllAccepted
  done : d.phase = .done → d.NoPointers

/-- What a worker may rely on of data it has read: what of it is still so later. -/
structure Later (d d' : RunData) : Prop where
  store : d.store <+: d'.store
  staged : d.staged <+: d'.staged
  splits : d.AllAccepted → d'.AllAccepted
  accepted : d.AllAccepted → d'.accepted = d.accepted
  pointers : d.AllAccepted → ∀ place run, d'.mapOut.value? place = some run →
    d.mapOut.value? place = some run
  committed : ∀ p, (d.committed p).isSome → (d'.committed p).isSome
  version : d.state.version ≤ d'.state.version
  state : d'.state.version = d.state.version → d'.state.value = d.state.value
  leftMap : d.phase ≠ .map → d'.phase ≠ .map
  /-- A step that changes the phase changes nothing else. -/
  moved : d'.phase ≠ d.phase → d' = { d with state := d'.state }

theorem Later.refl (d : RunData) : Later d d where
  store := List.prefix_rfl
  staged := List.prefix_rfl
  splits h := h
  accepted _ := rfl
  pointers _ _ _ h := h
  committed _ h := h
  version := le_rfl
  state _ := rfl
  leftMap h := h
  moved h := absurd rfl h

theorem Later.reducing {d d' : RunData} (h : Later d d') (hd : d.Reducing) : d'.Reducing :=
  ⟨h.leftMap hd.1, h.splits hd.2⟩

theorem Later.noPointers {d d' : RunData} (h : Later d d') (hall : d.AllAccepted)
    (hd : d.NoPointers) : d'.NoPointers := by
  intro place
  rw [Option.eq_none_iff_forall_not_mem]
  intro run hrun
  have := h.pointers hall place run hrun
  rw [hd place] at this
  cases this

section Attempts
variable {job : Job} {store store' : List (List IntermediateRecord)} {key : ℕ}
  {runs : List IntermediateRun}

theorem getElem?_of_prefix {α : Type*} {l l' : List α} {n : ℕ} {a : α} (h : l <+: l')
    (ha : l[n]? = some a) : l'[n]? = some a := by
  obtain ⟨r, rfl⟩ := h
  obtain ⟨hn, -⟩ := List.getElem?_eq_some_iff.mp ha
  rw [List.getElem?_append_left hn]
  exact ha

theorem Job.IsAttempt.mono (h : job.IsAttempt store key runs) (hstore : store <+: store') :
    job.IsAttempt store' key runs := by
  obtain ⟨records, maxBytes, hemits, hruns⟩ := h
  exact ⟨records, maxBytes, hemits, hruns.imp fun _ _ hput =>
    ⟨hput.1, getElem?_of_prefix hstore hput.2⟩⟩

theorem emits_lt {records : List IntermediateRecord} (h : job.emits key = some records) :
    key < job.splits.length := by
  obtain ⟨out, hout, -⟩ := Option.bind_eq_some_iff.mp h
  obtain ⟨split, hsplit, -⟩ := Option.map_eq_some_iff.mp hout
  exact (List.getElem?_eq_some_iff.mp hsplit).1

def contentOf (store : List (List IntermediateRecord)) (run : IntermediateRun) :
    List IntermediateRecord :=
  store[run.ref]?.getD []

theorem Job.IsAttempt.records (h : job.IsAttempt store key runs) {p : ℕ}
    (hp : p < job.reduceParts) :
    ((runs.filter fun run => run.partition = p).flatMap (contentOf store)).Perm
      (recordsFor job.reduceParts ((job.emits key).getD []) p) := by
  obtain ⟨records, maxBytes, hemits, hruns⟩ := h
  have hput (runs : List IntermediateRun) (puts : List (ℕ × List IntermediateRecord))
      (h : List.Forall₂ (fun run put => run.partition = put.1 ∧ store[run.ref]? = some put.2)
        runs puts) :
      (runs.filter fun run => run.partition = p).flatMap (contentOf store) = putFor puts p := by
    induction h with
    | nil => rfl
    | @cons run put runs puts hrun _ ih =>
      have hcontent : contentOf store run = put.2 := by rw [contentOf, hrun.2, Option.getD_some]
      by_cases hrunp : put.1 = p
      · simp [putFor, hrun.1, hrunp, hcontent, ih]
      · simp [putFor, hrun.1, hrunp, ih]
  rw [hput _ _ hruns, hemits]
  exact putFor_putsOf _ _ _ hp

theorem Job.IsAttempt.run (h : job.IsAttempt store key runs) {run : IntermediateRun}
    (hrun : run ∈ runs) :
    ∃ records, store[run.ref]? = some records ∧ run.partition < job.reduceParts ∧
      records.Pairwise (· ≤ ·) := by
  obtain ⟨records, maxBytes, -, hruns⟩ := h
  obtain ⟨n, hn, rfl⟩ := List.getElem_of_mem hrun
  obtain ⟨hlen, hput⟩ := List.forall₂_iff_get.mp hruns
  obtain ⟨hpart, hstore⟩ := hput n hn (hlen ▸ hn)
  obtain ⟨hlt, -, hsorted⟩ := putsOf_runs (List.get_mem _ ⟨n, hlen ▸ hn⟩)
  exact ⟨_, hstore, hpart ▸ hlt, hsorted⟩

end Attempts

/-! ## All records of a partition -/

section Records
variable {job : Job} {d : RunData}

theorem Consistent.accepted_perm (h : Consistent job d) (hall : d.AllAccepted) :
    (d.accepted.map (·.splitKey)).Perm (List.range job.splits.length) := by
  rw [List.perm_ext_iff_of_nodup h.acceptedOnce List.nodup_range]
  intro key
  rw [List.mem_range]
  constructor
  · intro hkey
    obtain ⟨md, hmd, rfl⟩ := List.mem_map.mp hkey
    obtain ⟨records, -, hemits, -⟩ := h.attempt md hmd
    exact emits_lt hemits
  · intro hlt
    exact h.splitGone key hlt (hall key)

theorem Consistent.runsFor_records (h : Consistent job d) (hall : d.AllAccepted) {p : ℕ}
    (hp : p < job.reduceParts) :
    ((d.runsFor p).flatMap (contentOf d.store)).Perm (job.recordsOf p) := by
  have hattempts : ((d.runsFor p).flatMap (contentOf d.store)).Perm
      (d.accepted.flatMap fun md =>
        recordsFor job.reduceParts ((job.emits md.splitKey).getD []) p) := by
    rw [RunData.runsFor, List.flatMap_assoc]
    apply List.Perm.flatMap_left
    intro md hmd
    exact (h.attempt md hmd).records hp
  have hsplits := (h.accepted_perm hall).flatMap_right fun key =>
    recordsFor job.reduceParts ((job.emits key).getD []) p
  rw [List.flatMap_map] at hsplits
  exact hattempts.trans hsplits

theorem mem_runsFor {p : ℕ} {run : IntermediateRun} :
    run ∈ d.runsFor p ↔ run.partition = p ∧ ∃ md ∈ d.accepted, run ∈ md.runs := by
  simp only [RunData.runsFor, List.mem_flatMap, List.mem_filter, decide_eq_true_eq]
  tauto

theorem Consistent.reduce_runs (h : Consistent job d) (hall : d.AllAccepted) {p : ℕ}
    {runs : List IntermediateRun} {got : List (List IntermediateRecord)}
    (hruns : runs.Perm (d.runsFor p)) (hne : runs ≠ [])
    (hgot : List.Forall₂ (fun run records => d.store[run.ref]? = some records) runs got) :
    reduceIntermediate job.reduceFn (mergeAll got) = job.output p := by
  have hrun (run : IntermediateRun) (hmem : run ∈ runs) :
      ∃ records, d.store[run.ref]? = some records ∧ p < job.reduceParts ∧
        records.Pairwise (· ≤ ·) := by
    obtain ⟨rfl, md, hmd, hmem⟩ := mem_runsFor.mp (hruns.mem_iff.mp hmem)
    exact (h.attempt md hmd).run hmem
  have hcontents : got = runs.map (contentOf d.store) := by
    clear hruns hne hrun
    induction hgot with
    | nil => rfl
    | cons hread _ ih => rw [List.map_cons, ← ih, contentOf, hread, Option.getD_some]
  obtain ⟨first, hfirst⟩ := List.exists_mem_of_ne_nil runs hne
  obtain ⟨-, -, hp, -⟩ := hrun first hfirst
  rw [Job.output]
  apply reduce_mergeAll
  · intro records hrecords
    rw [hcontents] at hrecords
    obtain ⟨run, hmem, rfl⟩ := List.mem_map.mp hrecords
    obtain ⟨records, hread, -, hsorted⟩ := hrun run hmem
    rw [contentOf, hread]
    exact hsorted
  · rw [hcontents, ← List.flatMap_def]
    exact (hruns.flatMap_right _).trans (h.runsFor_records hall hp)

theorem Consistent.recordsOf_eq_nil (h : Consistent job d) (hall : d.AllAccepted) {p : ℕ}
    (hp : p < job.reduceParts) (hnone : d.runsFor p = []) : job.recordsOf p = [] := by
  have hperm := h.runsFor_records hall hp
  rw [hnone] at hperm
  exact hperm.symm.eq_nil

end Records

/-! ## Published pointers -/

theorem mem_mapOutDocs {md : MapDone} {p key n : ℕ} {run : IntermediateRun} :
    ((p, key, n), run) ∈ mapOutDocs md ↔
      p = run.partition ∧ key = md.splitKey ∧ md.runs[n]? = some run := by
  simp only [mapOutDocs, List.mem_map, List.mem_zipIdx_iff_getElem?, Prod.exists, Prod.mk.injEq]
  constructor
  · rintro ⟨run', n', hn, ⟨hp, hkey, rfl⟩, rfl⟩
    exact ⟨hp.symm, hkey.symm, hn⟩
  · rintro ⟨rfl, rfl, hn⟩
    exact ⟨run, n, hn, ⟨rfl, rfl, rfl⟩, rfl⟩

theorem mapOutDocs_nodup (md : MapDone) : ((mapOutDocs md).map Prod.fst).Nodup := by
  have hfst : (mapOutDocs md).map Prod.fst =
      md.runs.zipIdx.map fun x => (x.1.partition, md.splitKey, x.2) := by
    rw [mapOutDocs, List.map_map]
    rfl
  rw [hfst]
  have hidx : (md.runs.zipIdx.map Prod.snd).Nodup := by
    rw [List.zipIdx_map_snd]
    exact List.nodup_range'
  apply List.Nodup.of_map (fun place : Place => place.2.2)
  rw [List.map_map]
  exact hidx

theorem map_snd_mapOutDocs (md : MapDone) (p : ℕ) :
    ((mapOutDocs md).filter fun x => x.1.1 = p).map Prod.snd =
      md.runs.filter fun run => run.partition = p := by
  rw [mapOutDocs, List.filter_map, List.map_map]
  conv_rhs => rw [← List.zipIdx_map_fst 0 md.runs, List.filter_map]
  rfl

section Pointers
variable {job : Job} {s : Shared}

theorem mem_pointersOf {p : ℕ} {place : Place} {c : Cell IntermediateRun} :
    (place, c) ∈ s.pointersOf p ↔ place.1 = p ∧ s.mapOut.lookup place = some c := by
  simp only [Shared.pointersOf, List.mem_map, List.mem_filter, decide_eq_true_eq, Prod.mk.injEq]
  constructor
  · rintro ⟨⟨place, c⟩, ⟨hmem, hp⟩, rfl, rfl⟩
    exact ⟨hp, Versioned.mem_entries.mp hmem⟩
  · rintro ⟨hp, hc⟩
    exact ⟨⟨place, c⟩, ⟨Versioned.mem_entries.mpr hc, hp⟩, rfl, rfl⟩

theorem pointersOf_nodup (p : ℕ) : ((s.pointersOf p).map Prod.fst).Nodup := by
  rw [Shared.pointersOf, List.map_map]
  exact List.Nodup.sublist (List.filter_sublist.map _) s.mapOut.nodupKeys

theorem Consistent.accepted_nodup (h : Consistent job s.toRunData) :
    (s.accepted.flatMap mapOutDocs).Nodup := by
  rw [List.nodup_flatMap]
  refine ⟨fun md _ => (mapOutDocs_nodup md).of_map _, ?_⟩
  have hkeys := List.pairwise_map.mp h.acceptedOnce
  apply hkeys.imp
  rintro md md' hne ⟨⟨p, key, n⟩, run⟩ hmd hmd'
  exact hne ((mem_mapOutDocs.mp hmd).2.1.symm.trans (mem_mapOutDocs.mp hmd').2.1)

/-- While a partition has pointers it has one for each of its accepted runs. -/
theorem Consistent.pointersOf_perm (h : Consistent job s.toRunData) {p : ℕ}
    (hne : s.pointersOf p ≠ []) :
    ((s.pointersOf p).map (·.2.value)).Perm (s.runsFor p) := by
  have hmarker : s.results.value? p = none := by
    obtain ⟨⟨place, c⟩, hmem⟩ := List.exists_mem_of_ne_nil _ hne
    obtain ⟨rfl, hc⟩ := mem_pointersOf.mp hmem
    rw [← Option.not_isSome_iff_eq_none]
    intro hmark
    have hgone := (h.marked _ hmark).1 place.2.1 place.2.2
    rw [Versioned.value?, hc] at hgone
    cases hgone
  have hperm : ((s.pointersOf p).map fun x => (x.1, x.2.value)).Perm
      ((s.accepted.flatMap mapOutDocs).filter fun x => x.1.1 = p) := by
    have hnodup : ((s.pointersOf p).map fun x => (x.1, x.2.value)).Nodup := by
      apply List.Nodup.of_map Prod.fst
      rw [List.map_map]
      exact pointersOf_nodup p
    rw [List.perm_ext_iff_of_nodup hnodup (h.accepted_nodup.filter _)]
    rintro ⟨⟨q, key, n⟩, run⟩
    simp only [List.mem_map, List.mem_filter, List.mem_flatMap, decide_eq_true_eq, Prod.mk.injEq,
      Prod.exists, mem_mapOutDocs]
    constructor
    · rintro ⟨q, key, n, c, hmem, ⟨rfl, rfl, rfl⟩, rfl⟩
      obtain ⟨hq, hc⟩ := mem_pointersOf.mp hmem
      have hvalue : s.mapOut.value? (q, key, n) = some c.value := by
        rw [Versioned.value?, hc]
        rfl
      obtain ⟨hpart, md, hmd, hkey, hn⟩ := h.pointer _ _ _ _ hvalue
      exact ⟨⟨md, hmd, hpart.symm, hkey.symm, hn⟩, hq⟩
    · rintro ⟨⟨md, hmd, rfl, rfl, hn⟩, hq⟩
      rcases h.published md hmd n run hn with hthere | hmark
      · obtain ⟨c, hc, rfl⟩ := Option.map_eq_some_iff.mp hthere
        exact ⟨_, _, _, c, mem_pointersOf.mpr ⟨hq, hc⟩, ⟨rfl, rfl, rfl⟩, rfl⟩
      · rw [hq, hmarker] at hmark
        cases hmark
  have hruns := hperm.map Prod.snd
  rw [List.map_map, List.filter_flatMap, List.map_flatMap] at hruns
  simp only [map_snd_mapOutDocs] at hruns
  exact hruns

end Pointers

/-! ## What the steps do to the data -/

section Effects
variable {job : Job} {d : RunData}

/-- Claims move versions only. -/
theorem Consistent.touch (h : Consistent job d) (version : ℕ) (splits : Versioned ℕ SplitDoc)
    (results : Versioned ℕ Unit) (hversion : d.state.version ≤ version)
    (hsplits : ∀ key, splits.value? key = d.splits.value? key)
    (hresults : ∀ p, results.value? p = d.results.value? p) :
    let d' := { d with state := { d.state with version }, splits, results }
    Later d d' ∧ Consistent job d' := by
  have hall : RunData.AllAccepted { d with state := { d.state with version }, splits, results } ↔
      d.AllAccepted := by
    simp only [RunData.AllAccepted, hsplits]
  constructor
  · exact { Later.refl d with
      splits := hall.mpr
      version := hversion
      state := fun _ => rfl
      moved := fun hmoved => absurd rfl hmoved }
  · exact { h with
      split := fun key doc hdoc => h.split key doc (hsplits key ▸ hdoc)
      splitGone := fun key hkey hgone => h.splitGone key hkey (hsplits key ▸ hgone)
      published := fun md hmd n run hn => by
        rw [hresults]
        exact h.published md hmd n run hn
      marked := fun p hp => by
        obtain ⟨hgone, hcommitted, hphase, hsplit⟩ := h.marked p (hresults p ▸ hp)
        exact ⟨hgone, hcommitted, hphase, hall.mpr hsplit⟩
      ended := fun hphase => hall.mpr (h.ended hphase) }

theorem Consistent.put (h : Consistent job d) (records : List IntermediateRecord) :
    let d' := { d with store := d.store ++ [records] }
    Later d d' ∧ Consistent job d' := by
  constructor
  · exact { Later.refl d with
      store := List.prefix_append _ _
      moved := fun hmoved => absurd rfl hmoved }
  · exact { h with
      attempt := fun md hmd => (h.attempt md hmd).mono (List.prefix_append _ _) }

theorem Consistent.stage (h : Consistent job d) {p : ℕ} {output : List KV}
    (houtput : job.output p = some output) :
    let d' := { d with staged := d.staged ++ [(p, output)] }
    Later d d' ∧ Consistent job d' := by
  constructor
  · exact { Later.refl d with
      staged := List.prefix_append _ _
      moved := fun hmoved => absurd rfl hmoved }
  · refine { h with staged := ?_ }
    intro x hx
    rcases List.mem_append.mp hx with hx | hx
    · exact h.staged x hx
    · rw [List.mem_singleton.mp hx]
      exact houtput

theorem Consistent.setState (h : Consistent job d) (st : RunState)
    (hback : d.phase ≠ .map → st.phase ≠ .map)
    (hended : st.phase = .reduce ∨ st.phase = .done → d.AllAccepted)
    (hdone : st.phase = .done → d.NoPointers) :
    let d' := { d with state := ⟨d.state.version + 1, st⟩ }
    Later d d' ∧ Consistent job d' := by
  constructor
  · exact { Later.refl d with
      version := Nat.le_succ _
      state := fun hsame => absurd hsame (Nat.succ_ne_self _)
      leftMap := hback
      moved := fun _ => rfl }
  · exact { h with
      marked := fun p hp => by
        obtain ⟨hgone, hcommitted, hphase, hall⟩ := h.marked p hp
        exact ⟨hgone, hcommitted, hback hphase, hall⟩
      ended := hended
      done := hdone }

theorem Consistent.accept (h : Consistent job d) {md : MapDone} {version : ℕ}
    {splits : Versioned ℕ SplitDoc} {mapOut : Versioned Place IntermediateRun}
    (hmd : job.IsAttempt d.store md.splitKey md.runs)
    (hsplits : d.splits.deleteAt md.splitKey version = some splits)
    (hmapOut : d.mapOut.addAll (mapOutDocs md) = some mapOut) :
    let d' := { d with splits, mapOut, accepted := d.accepted ++ [md] }
    Later d d' ∧ Consistent job d' := by
  obtain ⟨⟨doc, hdoc⟩, hlookup⟩ := Versioned.lookup_deleteAt hsplits
  have hthere : d.splits.value? md.splitKey = some doc := by
    rw [Versioned.value?, hdoc]
    rfl
  have hleft (key : ℕ) :
      splits.value? key = if key = md.splitKey then none else d.splits.value? key := by
    rw [Versioned.value?, hlookup]
    split_ifs <;> rfl
  have hnot : ¬ d.AllAccepted := by
    intro hall
    rw [hall md.splitKey] at hthere
    cases hthere
  have hnew : md.splitKey ∉ d.accepted.map (·.splitKey) := (h.split _ _ hthere).2
  have hpointer (p key n : ℕ) (run : IntermediateRun) :
      mapOut.value? (p, key, n) = some run ↔
        d.mapOut.value? (p, key, n) = some run ∨
          (p = run.partition ∧ key = md.splitKey ∧ md.runs[n]? = some run) := by
    rw [Versioned.value?_addAll hmapOut, mem_mapOutDocs]
  constructor
  · exact { Later.refl d with
      splits := fun hall => absurd hall hnot
      accepted := fun hall => absurd hall hnot
      pointers := fun hall => absurd hall hnot
      moved := fun hmoved => absurd rfl hmoved }
  · exact {
      split := fun key doc hkey => by
        change splits.value? key = some doc at hkey
        rw [hleft] at hkey
        split_ifs at hkey with hne
        obtain ⟨hrecords, hfree⟩ := h.split key doc hkey
        refine ⟨hrecords, ?_⟩
        rw [List.map_append, List.mem_append, not_or]
        exact ⟨hfree, by simpa using hne⟩
      splitGone := fun key hkey hgone => by
        change splits.value? key = none at hgone
        rw [hleft] at hgone
        rw [List.map_append, List.mem_append]
        split_ifs at hgone with heq
        · exact .inr (by simp [heq])
        · exact .inl (h.splitGone key hkey hgone)
      acceptedOnce := by
        rw [List.map_append, List.nodup_append]
        refine ⟨h.acceptedOnce, List.nodup_singleton _, ?_⟩
        intro key hkey key' hkey' heq
        rw [List.map_singleton, List.mem_singleton] at hkey'
        exact hnew (hkey' ▸ heq ▸ hkey)
      attempt := fun md' hmd' => by
        rcases List.mem_append.mp hmd' with hmd' | hmd'
        · exact h.attempt md' hmd'
        · rw [List.mem_singleton.mp hmd']
          exact hmd
      pointer := fun p key n run hrun => by
        rcases (hpointer p key n run).mp hrun with hrun | ⟨hp, hkey, hn⟩
        · obtain ⟨hpart, md', hmd', hrest⟩ := h.pointer p key n run hrun
          exact ⟨hpart, md', List.mem_append_left _ hmd', hrest⟩
        · exact ⟨hp.symm, md, by simp, hkey.symm, hn⟩
      published := fun md' hmd' n run hn => by
        rcases List.mem_append.mp hmd' with hmd' | hmd'
        · exact (h.published md' hmd' n run hn).imp_left fun hrun =>
            (hpointer _ _ _ _).mpr (.inl hrun)
        · rw [List.mem_singleton.mp hmd'] at hn ⊢
          exact .inl ((hpointer _ _ _ _).mpr (.inr ⟨rfl, rfl, hn⟩))
      marked := fun p hp => absurd (h.marked p hp).2.2.2 hnot
      committed := h.committed
      staged := h.staged
      ended := fun hphase => absurd (h.ended hphase) hnot
      done := fun hphase => absurd (h.ended (.inr hphase)) hnot }

/-- The first finish for a partition is accepted: its pointers go, and the marker comes. -/
theorem Consistent.consume (h : Consistent job d) {p : ℕ} {docs : List (Place × ℕ)}
    {mapOut : Versioned Place IntermediateRun} {results : Versioned ℕ Unit}
    (hreducing : d.Reducing) (hcommitted : (d.committed p).isSome)
    (hof : ∀ x ∈ docs, x.1.1 = p)
    (hcover : ∀ key n run, d.mapOut.value? (p, key, n) = some run → (p, key, n) ∈ docs.map Prod.fst)
    (hmapOut : d.mapOut.deleteAll docs = some mapOut)
    (hresults : d.results.add p () = some results) :
    let d' := { d with mapOut, results }
    Later d d' ∧ Consistent job d' := by
  have hpointer (place : Place) (run : IntermediateRun) :
      mapOut.value? place = some run ↔
        d.mapOut.value? place = some run ∧ place ∉ docs.map Prod.fst :=
    Versioned.value?_deleteAll hmapOut place run
  have hgone {place : Place} (h : ∀ run, d.mapOut.value? place = some run →
      place ∈ docs.map Prod.fst) : mapOut.value? place = none := by
    rw [Option.eq_none_iff_forall_not_mem]
    intro run hrun
    obtain ⟨hrun, hnot⟩ := (hpointer place run).mp hrun
    exact hnot (h run hrun)
  have hmarker (q : ℕ) : results.value? q = if q = p then some () else d.results.value? q := by
    rw [Versioned.value?, (Versioned.lookup_add hresults).2]
    split_ifs <;> rfl
  constructor
  · exact { Later.refl d with
      pointers := fun _ place run hrun => ((hpointer place run).mp hrun).1
      moved := fun hmoved => absurd rfl hmoved }
  · exact { h with
      pointer := fun q key n run hrun => h.pointer q key n run ((hpointer _ _).mp hrun).1
      published := fun md hmd n run hn => by
        change mapOut.value? _ = _ ∨ (results.value? _).isSome
        rw [hpointer, hmarker]
        by_cases hq : run.partition = p
        · rw [if_pos hq]
          exact .inr rfl
        · rw [if_neg hq]
          refine (h.published md hmd n run hn).imp_left fun hrun => ⟨hrun, fun hin => ?_⟩
          obtain ⟨x, hx, heq⟩ := List.mem_map.mp hin
          have hxp := hof x hx
          rw [heq] at hxp
          exact hq hxp
      marked := fun q hq => by
        change (results.value? q).isSome at hq
        change (∀ key n, mapOut.value? (q, key, n) = none) ∧ _
        rw [hmarker] at hq
        split_ifs at hq with heq
        · subst heq
          exact ⟨fun key n => hgone (hcover key n), hcommitted, hreducing⟩
        · obtain ⟨hnone, hrest⟩ := h.marked q hq
          refine ⟨fun key n => hgone fun run hrun => ?_, hrest⟩
          rw [hnone key n] at hrun
          cases hrun
      done := fun hphase place => hgone fun run hrun => by
        rw [h.done hphase place] at hrun
        cases hrun }

/-- The sink takes a staged output for a partition that has none. -/
theorem Consistent.sinkCommit (h : Consistent job d) {p : ℕ} {output : List KV}
    (houtput : job.output p = some output) :
    let d' := { d with committed := Function.update d.committed p (some output) }
    Later d d' ∧ Consistent job d' ∧ (d'.committed p).isSome := by
  have hsome (q : ℕ) (hq : (d.committed q).isSome) :
      (Function.update d.committed p (some output) q).isSome := by
    by_cases hqp : q = p
    · rw [hqp, Function.update_self]
      rfl
    · rw [Function.update_of_ne hqp]
      exact hq
  refine ⟨?_, ?_, by simp⟩
  · exact { Later.refl d with
      committed := hsome
      moved := fun hmoved => absurd rfl hmoved }
  · exact { h with
      marked := fun q hq => by
        obtain ⟨hgone, hcommitted, hreducing⟩ := h.marked q hq
        exact ⟨hgone, hsome q hcommitted, hreducing⟩
      committed := fun q out hq => by
        change Function.update d.committed p (some output) q = some out at hq
        by_cases hqp : q = p
        · rw [hqp, Function.update_self] at hq
          cases hq
          rw [hqp]
          exact houtput
        · rw [Function.update_of_ne hqp] at hq
          exact h.committed q out hq }

end Effects
end EntroQ.Eqmr
