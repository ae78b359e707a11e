import EntroQ.Eqmr.Invariant

/-! # What holds of the workers

Each task in the queues and each worker between two steps knows something of the run's data: what
it has read, or what was read when the task was inserted. What they know stays true whatever other
workers do, so each step keeps the data consistent and leaves its worker with what it needs next. -/

namespace EntroQ.Eqmr
open Foundation

namespace RunData
variable (d : RunData)

def Staged (rd : ReduceDone) : Prop :=
  d.Reducing ∧ ∃ output, d.staged[rd.staged]? = some (rd.partition, output)

def Read (version : ℕ) (st : RunState) : Prop :=
  version ≤ d.state.version ∧ (d.state.version = version → d.state.value = st)

/-- The docs are pointers of the partition, and all of them. -/
def Covered (p : ℕ) (docs : List (Place × ℕ)) : Prop :=
  (∀ x ∈ docs, x.1.1 = p) ∧
    ∀ key n run, d.mapOut.value? (p, key, n) = some run → (p, key, n) ∈ docs.map Prod.fst

/-- The runs were read one after the other. -/
def Contents (runs : List IntermediateRun) (got : List (List IntermediateRecord)) : Prop :=
  List.Forall₂ (fun run records => d.store[run.ref]? = some records) runs got

end RunData

/-- What is so of a task in the queues. -/
def Work.Holds (job : Job) (d : RunData) : Work → Prop
  | .map _ reduceShards => reduceShards = job.reduceParts
  | .mapDone md => job.IsAttempt d.store md.splitKey md.runs
  | .reduce _ => d.Reducing
  | .reduceDone rd => d.Staged rd
  | _ => True

def Proc.Holds (job : Job) (d : RunData) : Proc → Prop
  | .mapClaimed _ _ reduceShards _ => reduceShards = job.reduceParts
  | .mapping _ key _ ok todo runs =>
    ok → ∃ records maxBytes put, job.emits key = some records ∧
      putsOf job.reduceParts maxBytes records = put ++ todo ∧
      List.Forall₂ (fun run put => run.partition = put.1 ∧ d.store[run.ref]? = some put.2) runs put
  | .mapDoneClaimed _ md | .splitHeld _ md _ | .accepting _ md _ _ =>
    job.IsAttempt d.store md.splitKey md.runs
  | .stateHeld _ _ version st => d.Read version st ∧ (st.phase = .reduce → d.AllAccepted)
  | .consumed _ k version st =>
    d.Read version st ∧ d.AllAccepted ∧ st.phase = k.phase ∧ (k = .reduce → d.NoPointers)
  | .parted _ k version st parts =>
    d.Read version st ∧ d.AllAccepted ∧ st.phase = k.phase ∧ (k = .reduce → d.NoPointers) ∧
      (k = .map → parts = [] → d.NoPointers)
  | .finished _ version st => d.Read version st ∧ d.AllAccepted ∧ d.NoPointers
  | .releasing _ version st | .failing _ version st _ | .errHeld _ _ version st
  | .errJudged _ _ _ version st | .failNowHeld _ version st => d.Read version st
  | .reduceClaimed _ _ => d.Reducing
  | .reading _ p _ runs todo got =>
    d.Reducing ∧ runs ≠ [] ∧ runs.Perm (d.runsFor p) ∧
      ∃ read, runs = read ++ todo ∧ d.Contents read got
  | .reduced _ rd | .reduceDoneClaimed _ rd | .resultHeld _ rd _ | .unmarked _ rd => d.Staged rd
  | .pointersRead _ rd docs => d.Staged rd ∧ d.Covered rd.partition docs
  | .sinkCommitted _ rd docs =>
    d.Staged rd ∧ d.Covered rd.partition docs ∧ (d.committed rd.partition).isSome
  | _ => True

/-! ## What stays so -/

section Later
variable {job : Job} {d d' : RunData}

theorem Later.staged_rd (h : Later d d') {rd : ReduceDone} (hrd : d.Staged rd) : d'.Staged rd := by
  obtain ⟨hreducing, output, houtput⟩ := hrd
  exact ⟨h.reducing hreducing, output, getElem?_of_prefix h.staged houtput⟩

theorem Later.read (h : Later d d') {version : ℕ} {st : RunState} (hread : d.Read version st) :
    d'.Read version st := by
  refine ⟨hread.1.trans h.version, fun hv => ?_⟩
  have hsame : d.state.version = version := le_antisymm (hv ▸ h.version) hread.1
  rw [h.state (hv.trans hsame.symm)]
  exact hread.2 hsame

theorem Later.covered (h : Later d d') (hall : d.AllAccepted) {p : ℕ} {docs : List (Place × ℕ)}
    (hdocs : d.Covered p docs) : d'.Covered p docs :=
  ⟨hdocs.1, fun key n run hrun => hdocs.2 key n run (h.pointers hall _ _ hrun)⟩

theorem Later.contents (h : Later d d') {runs : List IntermediateRun}
    {got : List (List IntermediateRecord)} (hgot : d.Contents runs got) : d'.Contents runs got :=
  List.Forall₂.imp (fun _ _ hrun => getElem?_of_prefix h.store hrun) hgot

theorem Later.runsFor (h : Later d d') (hall : d.AllAccepted) (p : ℕ) :
    d'.runsFor p = d.runsFor p := by
  rw [RunData.runsFor, h.accepted hall]
  rfl

theorem Work.Holds.later {work : Work} (hwork : work.Holds job d) (h : Later d d') :
    work.Holds job d' := by
  cases work with
  | map => exact hwork
  | mapDone md => exact Job.IsAttempt.mono hwork h.store
  | reduce => exact h.reducing hwork
  | reduceDone rd => exact h.staged_rd hwork
  | mapCheck => trivial
  | reduceCheck => trivial
  | gc => trivial

theorem Proc.Holds.later {proc : Proc} (hproc : proc.Holds job d) (h : Later d d') :
    proc.Holds job d' := by
  cases proc with
  | mapClaimed => exact hproc
  | mapping t key split ok todo runs =>
    intro hok
    obtain ⟨records, maxBytes, put, hemits, hputs, hruns⟩ := hproc hok
    exact ⟨records, maxBytes, put, hemits, hputs, hruns.imp fun _ _ hrun =>
      ⟨hrun.1, getElem?_of_prefix h.store hrun.2⟩⟩
  | mapDoneClaimed => exact Job.IsAttempt.mono hproc h.store
  | splitHeld => exact Job.IsAttempt.mono hproc h.store
  | accepting => exact Job.IsAttempt.mono hproc h.store
  | stateHeld => exact ⟨h.read hproc.1, fun hphase => h.splits (hproc.2 hphase)⟩
  | consumed =>
    obtain ⟨hread, hall, hphase, hnone⟩ := hproc
    exact ⟨h.read hread, h.splits hall, hphase, fun hk => h.noPointers hall (hnone hk)⟩
  | parted t k version st parts =>
    obtain ⟨hread, hall, hphase, hnone, hparts⟩ := hproc
    exact ⟨h.read hread, h.splits hall, hphase, fun hk => h.noPointers hall (hnone hk),
      fun hk hnil => h.noPointers hall (hparts hk hnil)⟩
  | finished =>
    obtain ⟨hread, hall, hnone⟩ := hproc
    exact ⟨h.read hread, h.splits hall, h.noPointers hall hnone⟩
  | releasing => exact h.read hproc
  | failing => exact h.read hproc
  | errHeld => exact h.read hproc
  | errJudged => exact h.read hproc
  | failNowHeld => exact h.read hproc
  | reduceClaimed => exact h.reducing hproc
  | reading t p pointers runs todo got =>
    obtain ⟨hreducing, hne, hruns, read, hread, hgot⟩ := hproc
    refine ⟨h.reducing hreducing, hne, ?_, read, hread, h.contents hgot⟩
    rw [h.runsFor hreducing.2]
    exact hruns
  | reduced => exact h.staged_rd hproc
  | reduceDoneClaimed => exact h.staged_rd hproc
  | resultHeld => exact h.staged_rd hproc
  | unmarked => exact h.staged_rd hproc
  | pointersRead => exact ⟨h.staged_rd hproc.1, h.covered hproc.1.1.2 hproc.2⟩
  | sinkCommitted =>
    exact ⟨h.staged_rd hproc.1, h.covered hproc.1.1.2 hproc.2.1, h.committed _ hproc.2.2⟩
  | _ => trivial

end Later

/-! ## Queues -/

/-- What holds between any two steps. -/
structure Inv (job : Job) (s : Shared) : Prop where
  data : Consistent job s.toRunData
  tasks : ∀ key c, s.tasks.lookup key = some c → c.value.work.Holds job s.toRunData

/-- A change that keeps what holds and what others rely on. -/
structure Sound (job : Job) (s s' : Shared) : Prop where
  later : Later s.toRunData s'.toRunData
  inv : Inv job s'

section Queues
variable {job : Job} {s s' : Shared} {t : Held}

theorem Inv.sound (h : Inv job s) : Sound job s s := ⟨Later.refl _, h⟩

/-- A change of the data, with the queues as they are. -/
theorem Inv.withData (h : Inv job s)
    (hdata : Later s.toRunData s'.toRunData ∧ Consistent job s'.toRunData)
    (htasks : s'.tasks = s.tasks) : Sound job s s' := by
  refine ⟨hdata.1, hdata.2, fun key c hc => ?_⟩
  rw [htasks] at hc
  exact (h.tasks key c hc).later hdata.1

theorem Inv.insert (h : Inv job s) {work : Work} (hwork : work.Holds job s.toRunData) :
    Inv job (s.insert work) := by
  refine ⟨h.data, fun key c hc => ?_⟩
  change (AList.insert s.nextTask { value := { work } } s.tasks).lookup key = some c at hc
  rw [Versioned.lookup_insert_eq] at hc
  split_ifs at hc
  · cases hc
    exact hwork
  · exact h.tasks key c hc

theorem insertAll_data (works : List Work) : (s.insertAll works).toRunData = s.toRunData := by
  induction works generalizing s with
  | nil => rfl
  | cons work works ih => exact ih

theorem Inv.insertAll (h : Inv job s) {works : List Work}
    (hworks : ∀ work ∈ works, work.Holds job s.toRunData) : Inv job (s.insertAll works) := by
  induction works generalizing s with
  | nil => exact h
  | cons work works ih =>
    rw [List.forall_mem_cons] at hworks
    exact ih (h.insert hworks.1) hworks.2

theorem Inv.collecting (h : Inv job s) (runs : List IntermediateRun) :
    Inv job (s.collecting runs) ∧ (s.collecting runs).toRunData = s.toRunData := by
  unfold Shared.collecting
  split_ifs
  · exact ⟨h, rfl⟩
  · exact ⟨h.insert trivial, rfl⟩

theorem Inv.retire (h : Inv job s) (hs' : s.retire t = some s') :
    Inv job s' ∧ s'.toRunData = s.toRunData := by
  obtain ⟨tasks, htasks, rfl⟩ := Option.map_eq_some_iff.mp hs'
  refine ⟨⟨h.data, fun key c hc => ?_⟩, rfl⟩
  change tasks.lookup key = some c at hc
  rw [(Versioned.lookup_deleteAt htasks).2] at hc
  split_ifs at hc
  exact h.tasks key c hc

theorem Inv.changeTask (h : Inv job s) {change : QueuedTask → QueuedTask}
    (hs' : s.changeTask t change = some s') (hwork : ∀ task, (change task).work = task.work) :
    Inv job s' ∧ s'.toRunData = s.toRunData := by
  obtain ⟨task, htask, hs'⟩ := Option.bind_eq_some_iff.mp hs'
  obtain ⟨tasks, htasks, hs'⟩ := Option.bind_eq_some_iff.mp hs'
  cases hs'
  refine ⟨⟨h.data, fun key c hc => ?_⟩, rfl⟩
  change tasks.lookup key = some c at hc
  rw [(Versioned.lookup_changeAt htasks).2] at hc
  split_ifs at hc
  · cases hc
    obtain ⟨c, hc, rfl⟩ := Option.map_eq_some_iff.mp htask
    rw [hwork]
    exact h.tasks _ c hc
  · exact h.tasks key c hc

theorem Inv.claim (h : Inv job s) (key : ℕ) :
    Inv job { s with tasks := s.tasks.touch key } := by
  refine ⟨h.data, fun k c hc => ?_⟩
  have hvalue : (s.tasks.touch key).value? k = some c.value := by
    rw [Versioned.value?]
    exact congrArg _ hc
  rw [Versioned.value?_touch] at hvalue
  obtain ⟨c', hc', heq⟩ := Option.map_eq_some_iff.mp hvalue
  rw [← heq]
  exact h.tasks k c' hc'

end Queues

/-! ## Commits -/

section Commits
variable {job : Job} {s s' : Shared} {t : Held} {version : ℕ} {st : RunState}

theorem Sound.of_data {s₁ : Shared} (hdata : s₁.toRunData = s.toRunData) (h : Sound job s₁ s') :
    Sound job s s' :=
  ⟨hdata ▸ h.later, h.inv⟩

theorem Inv.setState (h : Inv job s) (hs' : s.setState version st = some s')
    (hback : s.phase ≠ .map → st.phase ≠ .map)
    (hended : st.phase = .reduce ∨ st.phase = .done → s.AllAccepted)
    (hdone : st.phase = .done → s.NoPointers) : Sound job s s' := by
  unfold Shared.setState at hs'
  split_ifs at hs' with hv
  cases hs'
  subst hv
  exact h.withData (h.data.setState st hback hended hdone) rfl

/-- The state doc is released as it was read. -/
theorem Inv.keepState (h : Inv job s) (hread : s.Read version st)
    (hs' : s.setState version st = some s') : Sound job s s' := by
  have hv : s.state.version = version := by
    unfold Shared.setState at hs'
    split_ifs at hs' with hv
    exact hv
  obtain rfl := hread.2 hv
  exact h.setState hs' id h.data.ended h.data.done

theorem Inv.failState (h : Inv job s) (hread : s.Read version st) {reason : String}
    (hs' : s.failState version st reason = some s') : Sound job s s' := by
  unfold Shared.failState at hs'
  split_ifs at hs'
  · exact h.keepState hread hs'
  · obtain ⟨s₁, hs₁, rfl⟩ := Option.map_eq_some_iff.mp hs'
    have hsound := h.setState hs₁ (fun _ hphase => by cases hphase)
      (fun hphase => by rcases hphase with hphase | hphase <;> cases hphase)
      (fun hphase => by cases hphase)
    exact ⟨hsound.later, hsound.inv.insert trivial⟩

theorem Inv.release (h : Inv job s) (hread : s.Read version st)
    (hs' : s.release t version st = some s') : Sound job s s' := by
  obtain ⟨s₁, hs₁, hs'⟩ := Option.bind_eq_some_iff.mp hs'
  obtain ⟨h₁, hdata⟩ := h.retire hs₁
  exact (h₁.keepState (hdata ▸ hread) hs').of_data hdata

theorem Inv.failing (h : Inv job s) (hread : s.Read version st) {reason : String}
    (hs' : s.failing t version st reason = some s') : Sound job s s' := by
  obtain ⟨s₁, hs₁, hs'⟩ := Option.bind_eq_some_iff.mp hs'
  obtain ⟨h₁, hdata⟩ := h.changeTask hs₁ fun _ => rfl
  exact (h₁.failState (hdata ▸ hread) hs').of_data hdata

theorem Inv.quarantine (h : Inv job s) (hread : s.Read version st) {prefix_ : String}
    {task : QueuedTask} (hs' : s.quarantine t prefix_ task version st = some s') :
    Sound job s s' := by
  obtain ⟨s₁, hs₁, hs'⟩ := Option.bind_eq_some_iff.mp hs'
  obtain ⟨h₁, hdata⟩ := h.changeTask hs₁ fun _ => rfl
  have hread₁ : s₁.Read version st := hdata ▸ hread
  apply Sound.of_data hdata
  split at hs'
  · exact h₁.keepState hread₁ hs'
  · exact h₁.failState hread₁ hs'

theorem Inv.discard (h : Inv job s) {runs : List IntermediateRun}
    (hs' : s.discard t runs = some s') : Sound job s s' := by
  obtain ⟨s₁, hs₁, rfl⟩ := Option.map_eq_some_iff.mp hs'
  obtain ⟨h₁, hdata⟩ := h.retire hs₁
  obtain ⟨h₂, hdata₂⟩ := h₁.collecting runs
  exact ⟨hdata₂ ▸ hdata ▸ Later.refl _, h₂⟩

/-- The task is replaced by another one. -/
theorem Inv.retire_insert (h : Inv job s) {work : Work} (hwork : work.Holds job s.toRunData)
    (hs' : (s.retire t).map (fun s => s.insert work) = some s') : Sound job s s' := by
  obtain ⟨s₁, hs₁, rfl⟩ := Option.map_eq_some_iff.mp hs'
  obtain ⟨h₁, hdata⟩ := h.retire hs₁
  have hlater : Later s.toRunData s₁.toRunData := hdata ▸ Later.refl _
  exact ⟨hlater, h₁.insert (hwork.later hlater)⟩

theorem Inv.accept (h : Inv job s) {md : MapDone}
    (hmd : job.IsAttempt s.store md.splitKey md.runs) (hs' : s.accept t md version = some s') :
    Sound job s s' := by
  obtain ⟨s₁, hs₁, hs'⟩ := Option.bind_eq_some_iff.mp hs'
  obtain ⟨splits, hsplits, hs'⟩ := Option.bind_eq_some_iff.mp hs'
  obtain ⟨mapOut, hmapOut, hs'⟩ := Option.bind_eq_some_iff.mp hs'
  cases hs'
  obtain ⟨h₁, hdata⟩ := h.retire hs₁
  have hmd₁ : job.IsAttempt s₁.store md.splitKey md.runs := hdata ▸ hmd
  have hsound : Sound job s₁ { s₁ with splits, mapOut, accepted := s₁.accepted ++ [md] } :=
    h₁.withData (h₁.data.accept hmd₁ hsplits hmapOut) rfl
  exact Sound.of_data hdata ⟨hsound.later, hsound.inv.insert trivial⟩

theorem Inv.fanOut (h : Inv job s) {parts : List ℕ} (hall : s.AllAccepted)
    (hs' : s.fanOut t version st parts = some s') : Sound job s s' := by
  obtain ⟨s₁, hs₁, hs'⟩ := Option.bind_eq_some_iff.mp hs'
  obtain ⟨s₂, hs₂, hs'⟩ := Option.bind_eq_some_iff.mp hs'
  cases hs'
  obtain ⟨h₁, hdata⟩ := h.retire hs₁
  have hall₁ : s₁.AllAccepted := hdata ▸ hall
  have hsound := h₁.setState hs₂ (fun _ hphase => by cases hphase) (fun _ => hall₁)
    (fun hphase => by cases hphase)
  have hphase : s₂.phase = .reduce := by
    unfold Shared.setState at hs₂
    split_ifs at hs₂
    cases hs₂
    rfl
  apply Sound.of_data hdata
  refine ⟨?_, hsound.inv.insertAll fun work hwork => ?_⟩
  · rw [insertAll_data]
    exact hsound.later
  · obtain ⟨p, -, rfl⟩ := List.mem_map.mp hwork
    refine ⟨?_, hsound.later.splits hall₁⟩
    rw [hphase]
    decide

theorem Inv.acceptReduce (h : Inv job s) {rd : ReduceDone} {docs : List (Place × ℕ)}
    (hrd : s.Staged rd) (hdocs : s.Covered rd.partition docs)
    (hcommitted : (s.committed rd.partition).isSome)
    (hs' : s.acceptReduce t rd docs = some s') : Sound job s s' := by
  obtain ⟨s₁, hs₁, hs'⟩ := Option.bind_eq_some_iff.mp hs'
  obtain ⟨mapOut, hmapOut, hs'⟩ := Option.bind_eq_some_iff.mp hs'
  obtain ⟨results, hresults, hs'⟩ := Option.bind_eq_some_iff.mp hs'
  cases hs'
  obtain ⟨h₁, hdata⟩ := h.retire hs₁
  rw [← hdata] at hrd hdocs hcommitted
  have hsound : Sound job s₁ { s₁ with mapOut, results } :=
    h₁.withData (h₁.data.consume hrd.1 hcommitted hdocs.1 hdocs.2 hmapOut hresults) rfl
  have hcheck : Work.reduceCheck.Holds job { s₁.toRunData with mapOut, results } := trivial
  obtain ⟨h₂, hdata₂⟩ := (hsound.inv.insert hcheck).collecting rd.runs
  exact Sound.of_data hdata ⟨hdata₂ ▸ hsound.later, h₂⟩

theorem Inv.markDone (h : Inv job s) (hall : s.AllAccepted) (hnone : s.NoPointers)
    (hs' : s.markDone t version st = some s') : Sound job s s' := by
  obtain ⟨s₁, hs₁, hs'⟩ := Option.bind_eq_some_iff.mp hs'
  obtain ⟨s₂, hs₂, hs'⟩ := Option.bind_eq_some_iff.mp hs'
  cases hs'
  obtain ⟨h₁, hdata⟩ := h.retire hs₁
  rw [← hdata] at hall hnone
  have hsound := h₁.setState hs₂ (fun _ hphase => by cases hphase) (fun _ => hall)
    (fun _ => hnone)
  exact Sound.of_data hdata ⟨hsound.later, hsound.inv.insert trivial⟩

theorem Inv.sinkCommit (h : Inv job s) {rd : ReduceDone} (hrd : s.Staged rd)
    (hs' : s.sinkCommit rd.partition rd.staged = some s') :
    Sound job s s' ∧ (s'.committed rd.partition).isSome := by
  unfold Shared.sinkCommit at hs'
  split at hs'
  next output houtput =>
    cases hs'
    exact ⟨h.sound, by rw [houtput]; rfl⟩
  next =>
    split_ifs at hs'
    obtain ⟨x, hx, rfl⟩ := Option.map_eq_some_iff.mp hs'
    obtain ⟨-, output, hstaged⟩ := hrd
    rw [hstaged] at hx
    cases hx
    have houtput := h.data.staged _ (List.mem_of_getElem? hstaged)
    obtain ⟨hlater, hdata, hsome⟩ := h.data.sinkCommit houtput
    exact ⟨h.withData ⟨hlater, hdata⟩ rfl, hsome⟩

end Commits

/-! ## Steps -/

/-- A step of a worker keeps what holds, and leaves the worker with what holds of it. -/
structure Stepped (job : Job) (s : Shared) (next : Shared × Proc) : Prop where
  sound : Sound job s next.1
  proc : next.2.Holds job next.1.toRunData

section Steps
variable {job : Job} {s : Shared} {t : Held}

theorem Inv.stay (h : Inv job s) {proc : Proc} (hproc : proc.Holds job s.toRunData) :
    Stepped job s (s, proc) :=
  ⟨h.sound, hproc⟩

theorem Inv.commit (h : Inv job s) {result : Option Shared} {failed : Proc}
    (hcommit : ∀ s', result = some s' → Sound job s s')
    (hfailed : failed.Holds job s.toRunData) : Stepped job s (commit s result failed) := by
  cases result with
  | none => exact h.stay hfailed
  | some s' => exact ⟨hcommit s' rfl, trivial⟩

theorem Inv.leave (h : Inv job s) (why : Failure) : Stepped job s (leave s t why) := by
  have hdata {s' : Shared} (hs' : Inv job s' ∧ s'.toRunData = s.toRunData) : Sound job s s' :=
    ⟨hs'.2 ▸ Later.refl _, hs'.1⟩
  cases why with
  | retry => exact h.commit (fun s' hs' => hdata (h.changeTask hs' fun _ => rfl)) trivial
  | move err => exact h.commit (fun s' hs' => hdata (h.changeTask hs' fun _ => rfl)) trivial
  | quit => exact h.stay trivial

theorem Inv.readSplit (h : Inv job s) {key reduceShards maxBytes : ℕ}
    (hshards : reduceShards = job.reduceParts) :
    Stepped job s (readSplit job s t key reduceShards maxBytes) := by
  unfold Eqmr.readSplit
  split
  next => exact h.stay trivial
  next doc hdoc =>
    split_ifs
    · exact h.stay trivial
    · apply h.stay
      intro hok
      have hsplit := (h.data.split key doc hdoc).1
      refine ⟨(runMapper job.mapFn doc.records).1, runBytes maxBytes, [], ?_, ?_, .nil⟩
      · rw [Job.emits, hsplit, Option.map_some, Option.bind_some, if_pos hok]
      · rw [putsOfAttempt, if_pos hok, hshards, List.nil_append]

theorem Inv.putRun (h : Inv job s) {key split : ℕ} {ok : Bool}
    {todo : List (ℕ × List IntermediateRecord)} {runs : List IntermediateRun}
    (hproc : (Proc.mapping t key split ok todo runs).Holds job s.toRunData) :
    Stepped job s (putRun s t key split ok todo runs) := by
  unfold Eqmr.putRun
  split
  next p records todo =>
    refine ⟨h.withData (h.data.put records) rfl, fun hok => ?_⟩
    obtain ⟨all, maxBytes, put, hemits, hputs, hruns⟩ := hproc hok
    refine ⟨all, maxBytes, put ++ [(p, records)], hemits, by rw [hputs]; simp, ?_⟩
    apply List.rel_append
    · exact hruns.imp fun _ _ hrun =>
        ⟨hrun.1, getElem?_of_prefix (List.prefix_append _ _) hrun.2⟩
    · exact .cons ⟨rfl, List.getElem?_concat_length⟩ .nil
  next =>
    split_ifs with hok
    · obtain ⟨all, maxBytes, put, hemits, hputs, hruns⟩ := hproc hok
      rw [List.append_nil] at hputs
      have hmd : (Work.mapDone { splitKey := key, split, runs }).Holds job s.toRunData :=
        ⟨all, maxBytes, hemits, hputs ▸ hruns⟩
      exact h.commit (fun s' hs' => h.retire_insert hmd hs') trivial
    · exact h.stay trivial

theorem Inv.abort (h : Inv job s) (why : Failure) (runs : List IntermediateRun) :
    Stepped job s (abort s t why runs) := by
  cases runs with
  | nil => exact h.stay trivial
  | cons run runs => exact ⟨h.withData ⟨Later.refl _, h.data⟩ rfl, trivial⟩

theorem Inv.claimSplit (h : Inv job s) {md : MapDone}
    (hmd : job.IsAttempt s.store md.splitKey md.runs) : Stepped job s (claimSplit s t md) :=
  ⟨h.withData (h.data.touch _ _ s.results le_rfl (fun _ => Versioned.value?_touch _)
    fun _ => rfl) rfl, hmd⟩

theorem Inv.acceptMap (h : Inv job s) {md : MapDone} {doc : Option (ℕ × ℕ)} {st : RunState}
    (hmd : job.IsAttempt s.store md.splitKey md.runs) :
    Stepped job s (acceptMap s t md doc st) := by
  unfold Eqmr.acceptMap
  split
  next => exact h.stay trivial
  next version id =>
    split_ifs
    · exact h.stay trivial
    · split
      next => exact h.stay trivial
      next => exact h.commit (fun s' hs' => h.accept hmd hs') trivial

theorem Inv.claimState (h : Inv job s) {next : ℕ → RunState → Proc}
    (hnext : ∀ d : RunData, d.Read (s.state.version + 1) s.state.value →
      (s.phase = .reduce → d.AllAccepted) →
      (next (s.state.version + 1) s.state.value).Holds job d) :
    Stepped job s (s.claimState next) :=
  ⟨h.withData (h.data.touch _ s.splits s.results (Nat.le_succ _) (fun _ => rfl) fun _ => rfl) rfl,
    hnext _ ⟨le_rfl, fun _ => rfl⟩ fun hphase => h.data.ended (.inl hphase)⟩

theorem left_eq_false_iff {k : Barrier} :
    k.left s = false ↔
      (k = .map → s.AllAccepted) ∧ (k = .reduce → s.NoPointers) := by
  cases k <;>
    simp [Barrier.left, RunData.AllAccepted, RunData.NoPointers, Versioned.entries_eq_nil_iff]

theorem Inv.readConsumed (h : Inv job s) {k : Barrier} {version : ℕ} {st : RunState}
    (hread : s.Read version st) (hreduce : st.phase = .reduce → s.AllAccepted) :
    Stepped job s (readConsumed s t k version st) := by
  unfold Eqmr.readConsumed
  split_ifs with hleft
  · exact h.stay hread
  · obtain ⟨hphase, hleft⟩ := not_or.mp hleft
    obtain ⟨hmap, hnone⟩ := left_eq_false_iff.mp (Bool.not_eq_true _ ▸ hleft)
    have hphase := not_not.mp hphase
    refine h.stay ⟨hread, ?_, hphase, hnone⟩
    cases k with
    | map => exact hmap rfl
    | reduce => exact hreduce hphase

theorem mem_keyPartitions {partitions : List ℕ} {p : ℕ} :
    p ∈ keyPartitions partitions ↔ p ∈ partitions := by
  induction partitions using List.reverseRecOn with
  | nil => rfl
  | append_singleton partitions q ih =>
    have hlast : keyPartitions (partitions ++ [q]) =
        if q ∈ keyPartitions partitions then keyPartitions partitions
        else (keyPartitions partitions).orderedInsert (· ≤ ·) q :=
      List.foldl_append
    rw [hlast]
    split_ifs with hq
    · rw [ih, List.mem_append, List.mem_singleton]
      have hmem : p = q → p ∈ partitions := by
        rintro rfl
        exact ih.mp hq
      tauto
    · rw [List.mem_orderedInsert, ih, List.mem_append, List.mem_singleton, or_comm]

theorem noPointers_of_partitions (hparts : Barrier.map.partitions s = []) : s.NoPointers := by
  intro place
  have hnot : place ∉ s.mapOut := by
    intro hplace
    have hmem : place.1 ∈ Barrier.map.partitions s := by
      rw [Barrier.partitions, mem_keyPartitions]
      exact List.mem_map_of_mem (AList.mem_keys.mp hplace)
    rw [hparts] at hmem
    exact List.not_mem_nil hmem
  rw [Versioned.value?, AList.lookup_eq_none.mpr hnot]
  rfl

theorem Inv.endPhase (h : Inv job s) {k : Barrier} {version : ℕ} {st : RunState}
    {parts : List ℕ} (hproc : (Proc.parted t k version st parts).Holds job s.toRunData) :
    Stepped job s (endPhase s t k version st parts) := by
  obtain ⟨hread, hall, -, hnone, hparts⟩ := hproc
  unfold Eqmr.endPhase
  split
  next =>
    exact ⟨h.withData ⟨Later.refl _, h.data⟩ rfl, hread, hall, hparts rfl rfl⟩
  next => exact h.commit (fun s' hs' => h.fanOut hall hs') trivial
  next => exact ⟨h.withData ⟨Later.refl _, h.data⟩ rfl, hread, hall, hnone rfl⟩

theorem Inv.readPointers (h : Inv job s) {p : ℕ} (hreducing : s.Reducing) :
    Stepped job s (readPointers s t p) := by
  unfold Eqmr.readPointers
  split
  next => exact h.stay trivial
  next hne =>
    dsimp only
    split
    next => exact h.stay trivial
    next =>
      refine h.stay ⟨hreducing, ?_, h.data.pointersOf_perm hne, [], rfl, .nil⟩
      exact List.map_eq_nil_iff.not.mpr hne

theorem Inv.readRun (h : Inv job s) {p : ℕ} {pointers : List Place}
    {runs todo : List IntermediateRun} {got : List (List IntermediateRecord)}
    (hproc : (Proc.reading t p pointers runs todo got).Holds job s.toRunData) :
    Stepped job s (readRun job s t p pointers runs todo got) := by
  obtain ⟨hreducing, hne, hruns, read, hread, hgot⟩ := hproc
  unfold Eqmr.readRun
  split
  next run todo =>
    split
    next => exact h.stay trivial
    next records hrecords =>
      have hstore : s.store[run.ref]? = some records := by
        unfold Shared.openRun at hrecords
        split_ifs at hrecords
        exact hrecords
      refine h.stay ⟨hreducing, hne, hruns, read ++ [run], by rw [hread]; simp, ?_⟩
      exact List.rel_append hgot (.cons hstore .nil)
  next =>
    rw [List.append_nil] at hread
    subst hread
    rw [h.data.reduce_runs hreducing.2 hruns hne hgot]
    split
    next => exact h.stay trivial
    next output houtput =>
      refine ⟨h.withData (h.data.stage houtput) rfl, hreducing, output, ?_⟩
      exact List.getElem?_concat_length

theorem Inv.claimResult (h : Inv job s) {rd : ReduceDone} (hrd : s.Staged rd) :
    Stepped job s (claimResult s t rd) :=
  ⟨h.withData (h.data.touch _ s.splits _ le_rfl (fun _ => rfl) fun _ => Versioned.value?_touch _)
    rfl, hrd⟩

theorem Inv.checkPointers (h : Inv job s) {rd : ReduceDone} (hrd : s.Staged rd) :
    Stepped job s (checkPointers s t rd) := by
  unfold Eqmr.checkPointers
  split
  next => exact h.stay trivial
  next =>
    split_ifs
    · refine h.stay ⟨hrd, ?_, ?_⟩
      · intro x hx
        obtain ⟨⟨place, c⟩, hmem, rfl⟩ := List.mem_map.mp hx
        exact (mem_pointersOf.mp hmem).1
      · intro key n run hrun
        obtain ⟨c, hc, -⟩ := Option.map_eq_some_iff.mp hrun
        rw [List.map_map]
        exact List.mem_map_of_mem (mem_pointersOf.mpr ⟨rfl, hc⟩)
    · exact h.stay trivial

theorem Inv.commitOutput (h : Inv job s) {rd : ReduceDone} {docs : List (Place × ℕ)}
    (hrd : s.Staged rd) (hdocs : s.Covered rd.partition docs) :
    Stepped job s (commitOutput s t rd docs) := by
  unfold Eqmr.commitOutput
  split
  next => exact h.stay trivial
  next s' hs' =>
    obtain ⟨hsound, hcommitted⟩ := h.sinkCommit hrd hs'
    exact ⟨hsound, hsound.later.staged_rd hrd, hsound.later.covered hrd.1.2 hdocs, hcommitted⟩

theorem Inv.collect (h : Inv job s) (runs : List IntermediateRun) (sweep : Bool) :
    Stepped job s (collect s t runs sweep) := by
  cases runs with
  | nil =>
    cases sweep with
    | false => exact h.stay trivial
    | true => exact ⟨h.withData ⟨Later.refl _, h.data⟩ rfl, trivial⟩
  | cons run runs => exact ⟨h.withData ⟨Later.refl _, h.data⟩ rfl, trivial⟩

/-- Every step of a worker keeps what holds. -/
theorem Inv.advance (h : Inv job s) {proc : Proc} (hproc : proc.Holds job s.toRunData) :
    Stepped job s (advance job s proc) := by
  cases proc with
  | idle => exact h.stay trivial
  | leaving t why => exact h.leave why
  | retiring t =>
    exact h.commit (fun s' hs' => ⟨(h.retire hs').2 ▸ Later.refl _, (h.retire hs').1⟩) trivial
  | mapClaimed => exact h.readSplit hproc
  | mapping => exact h.putRun hproc
  | aborting t why runs => exact h.abort why runs
  | mapDoneClaimed => exact h.claimSplit hproc
  | splitHeld => exact h.stay hproc
  | accepting => exact h.acceptMap hproc
  | discarding => exact h.commit (fun s' hs' => h.discard hs') trivial
  | check =>
    apply h.stay
    split_ifs <;> trivial
  | checkDocs =>
    apply h.stay
    split_ifs <;> trivial
  | claimState => exact h.claimState fun d hread hall => ⟨hread, hall⟩
  | stateHeld => exact h.readConsumed hproc.1 hproc.2
  | consumed t k version st =>
    obtain ⟨hread, hall, hphase, hnone⟩ := hproc
    refine h.stay ⟨hread, hall, hphase, hnone, ?_⟩
    rintro rfl hparts
    exact noPointers_of_partitions hparts
  | parted => exact h.endPhase hproc
  | finished => exact h.commit (fun s' hs' => h.markDone hproc.2.1 hproc.2.2 hs') trivial
  | releasing => exact h.commit (fun s' hs' => h.release hproc hs') trivial
  | failing => exact h.commit (fun s' hs' => h.failing hproc hs') trivial
  | reduceClaimed => exact h.readPointers hproc
  | reading => exact h.readRun hproc
  | reduced t rd =>
    have hrd : (Work.reduceDone rd).Holds job s.toRunData := hproc
    exact h.commit (fun s' hs' => h.retire_insert hrd hs') trivial
  | reduceDoneClaimed => exact h.claimResult hproc
  | resultHeld =>
    apply h.stay
    split_ifs
    · trivial
    · exact hproc
  | unmarked => exact h.checkPointers hproc
  | pointersRead => exact h.commitOutput hproc.1 hproc.2
  | sinkCommitted =>
    exact h.commit (fun s' hs' => h.acceptReduce hproc.1 hproc.2.1 hproc.2.2 hs') trivial
  | gcClaimed t runs sweep => exact h.collect runs sweep
  | errClaimed => exact h.claimState fun d hread _ => hread
  | errHeld => exact h.stay hproc
  | errJudged t task loser =>
    cases loser with
    | true => exact h.commit (fun s' hs' => h.release hproc hs') trivial
    | false => exact h.commit (fun s' hs' => h.quarantine hproc hs') trivial
  | failNow => exact h.claimState fun d hread _ => hread
  | failNowHeld => exact h.commit (fun s' hs' => h.failState hproc hs') trivial

end Steps

/-! ## Runs -/

section Runs
variable {job : Job} {s : Shared}

theorem start_holds {t : Held} {maxBytes : ℕ} {task : QueuedTask} {d : RunData}
    (htask : task.work.Holds job d) : (start t maxBytes task).Holds job d := by
  obtain ⟨work, box, err⟩ := task
  cases box with
  | inbox =>
    cases work with
    | map => exact htask
    | mapDone => exact htask
    | reduce => exact htask
    | reduceDone => exact htask
    | mapCheck => trivial
    | reduceCheck => trivial
    | gc => trivial
  | err => trivial
  | quarantine => trivial

theorem Inv.claimTask (h : Inv job s) (key maxBytes : ℕ) :
    Stepped job s (claimTask s key maxBytes) := by
  unfold Eqmr.claimTask
  split
  next => exact h.stay trivial
  next c hc => exact ⟨⟨Later.refl _, h.claim key⟩, start_holds (h.tasks key c hc)⟩

theorem fail_holds {proc : Proc} {d : RunData} (hproc : proc.Holds job d) (why : Failure) :
    (proc.fail why).Holds job d := by
  cases proc with
  | parted =>
    cases why with
    | move err => exact hproc.1
    | retry => trivial
    | quit => trivial
  | _ => trivial

theorem unavailable_holds {proc : Proc} {d : RunData} (hproc : proc.Holds job d) :
    proc.unavailable.Holds job d := by
  cases proc with
  | check => trivial
  | checkDocs => trivial
  | _ => exact hproc

theorem Inv.duplicate (h : Inv job s) (key : ℕ) : Sound job s (duplicateTask s key) := by
  have hinsert (task : QueuedTask) (htask : s.tasks.value? key = some task) :
      Sound job s (s.insert task.work) := by
    obtain ⟨c, hc, rfl⟩ := Option.map_eq_some_iff.mp htask
    exact ⟨Later.refl _, h.insert (h.tasks key c hc)⟩
  unfold duplicateTask
  split
  next htask => exact hinsert _ htask
  next htask => exact hinsert _ htask
  next => exact h.sound

structure System.Holds (job : Job) (y : System) : Prop where
  shared : Inv job y.shared
  procs : ∀ pid, (y.procs pid).Holds job y.shared.toRunData

/-- The worker that takes a step is left with what holds of it, every other one with what it
knew. -/
theorem System.Holds.update {y : System} (h : y.Holds job) {pid : ℕ} {next : Shared × Proc}
    (hnext : Stepped job y.shared next) :
    Later y.shared.toRunData (y.update pid next).shared.toRunData ∧
      (y.update pid next).Holds job := by
  refine ⟨hnext.sound.later, hnext.sound.inv, fun pid' => ?_⟩
  change (Function.update y.procs pid next.2 pid').Holds job next.1.toRunData
  by_cases hpid : pid' = pid
  · rw [hpid, Function.update_self]
    exact hnext.proc
  · rw [Function.update_of_ne hpid]
    exact (h.procs pid').later hnext.sound.later

theorem System.Holds.step {y : System} (h : y.Holds job) (e : Event) :
    Later y.shared.toRunData (step job y e).shared.toRunData ∧ (step job y e).Holds job := by
  cases e with
  | claim pid key maxBytes => exact h.update (h.shared.claimTask key maxBytes)
  | step pid => exact h.update (h.shared.advance (h.procs pid))
  | crash pid => exact h.update (h.shared.stay trivial)
  | fail pid why => exact h.update (h.shared.stay (fail_holds (h.procs pid) why))
  | unavailable pid => exact h.update (h.shared.stay (unavailable_holds (h.procs pid)))
  | duplicate key =>
    have hsound := h.shared.duplicate key
    exact ⟨hsound.later, hsound.inv, fun pid => (h.procs pid).later hsound.later⟩
  | failNow pid reason => exact h.update (h.shared.stay trivial)

theorem splitDocs_value (splits : List (List KV)) (key : ℕ) :
    (splitDocs splits).value? key =
      splits[key]?.map fun records => { id := key, records } := by
  induction splits using List.reverseRecOn with
  | nil => rfl
  | append_singleton splits records ih =>
    have hlast : splitDocs (splits ++ [records]) =
        AList.insert splits.length { value := { id := splits.length, records } }
          (splitDocs splits) := by
      simp [splitDocs, List.zipIdx_append]
    rw [hlast, Versioned.value?, Versioned.lookup_insert_eq]
    split_ifs with hkey
    · rw [hkey, List.getElem?_concat_length]
      rfl
    · rw [← Versioned.value?, ih]
      congr 1
      rcases Nat.lt_or_gt_of_ne hkey with hlt | hgt
      · rw [List.getElem?_append_left hlt]
      · rw [List.getElem?_eq_none (by omega), List.getElem?_eq_none (by simp; omega)]

theorem setup_holds (job : Job) : (setup job).Holds job := by
  have hdata : Consistent job (setup job).shared.toRunData := by
    rw [setup, insertAll_data]
    exact {
      split := fun key doc hdoc => by
        change (splitDocs job.splits).value? key = some doc at hdoc
        rw [splitDocs_value] at hdoc
        obtain ⟨records, hrecords, rfl⟩ := Option.map_eq_some_iff.mp hdoc
        exact ⟨hrecords, List.not_mem_nil⟩
      splitGone := fun key hkey hgone => by
        change (splitDocs job.splits).value? key = none at hgone
        rw [splitDocs_value, List.getElem?_eq_getElem hkey] at hgone
        cases hgone
      acceptedOnce := List.nodup_nil
      attempt := fun md hmd => absurd hmd List.not_mem_nil
      pointer := fun p key n run hrun => by cases hrun
      published := fun md hmd => absurd hmd List.not_mem_nil
      marked := fun p hp => by cases hp
      committed := fun p output hp => by cases hp
      staged := fun x hx => absurd hx List.not_mem_nil
      ended := fun hphase => by rcases hphase with hphase | hphase <;> cases hphase
      done := fun hphase => by cases hphase }
  refine ⟨?_, fun pid => trivial⟩
  rw [setup, insertAll_data] at hdata
  apply Inv.insertAll ⟨hdata, fun key c hc => by cases hc⟩
  intro work hwork
  obtain ⟨i, -, rfl⟩ := List.mem_map.mp hwork
  rfl

/-- Whatever the workers do, in any order. -/
theorem holds_after (job : Job) (events : List Event) :
    (after (step job) (setup job) events).Holds job :=
  after_invariant (I := System.Holds job) (fun _ e h => (h.step e).2) (setup_holds job) events

end Runs

end EntroQ.Eqmr
