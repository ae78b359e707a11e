import EntroQ.Eqmr.MergedIntermediate
import EntroQ.Eqmr.WholeRun

/-! # Runs that are cut short

A stored run is read from a source that may break off at any byte and with any error. The merge
takes an error that wraps the end of the input for the end of a run, while the reader of the run
takes only the end itself for a clean end. A run whose source breaks off with such an error is
dropped in silence. -/

namespace EntroQ.Eqmr
open Foundation

/-- The order of the fields' bytes. -/
def RunRecord.less (a b : RunRecord) : Bool :=
  if a.primary ≠ b.primary then decide (a.primary < b.primary)
  else if a.secondary ≠ b.secondary then decide (a.secondary < b.secondary)
  else decide (a.value < b.value)

section Cut
variable (sum64 : List UInt8 → UInt64)

structure StoredRun where
  records : List RunRecord
  bytes : List UInt8
  encoded : encodeIntermediateRun sum64 records = .ok bytes
  body : Source
  within : body.data <+: bytes

variable {sum64}

def StoredRun.openStored (run : StoredRun sum64) : Except RunError RunReader :=
  if run.records.length = 0 then
    .error (.read (.other
      "invalid object run reference: object and positive record count are required"))
  else newEncodedIntermediateReader sum64 run.body run.records.length

def openMerged (runs : List (StoredRun sum64)) :
    Except (MergeError RunError) (MergedIntermediate RunReader RunRecord) :=
  openMergedIntermediate (RunM.next sum64) RunError.isEOF StoredRun.openStored runs

variable (sum64) in
def mergedNext : EStateM RunError (MergedIntermediate RunReader RunRecord) RunRecord :=
  MergedIntermediate.next RunRecord.less (RunM.next sum64) RunError.isEOF (.read .eof)

/-- Whenever the merge reports the end, every footer was verified and every record given. -/
def NeverCutShort (runs : List (StoredRun sum64)) : Prop :=
  ∀ m out e m', openMerged runs = .ok m → Plays (mergedNext sum64) m out e m' → e.isEOF = true →
    (∀ r ∈ m'.readers, r.footer = true) ∧ out.Perm (runs.flatMap StoredRun.records)

/-- All of the run's bytes come from its source. -/
def StoredRun.Whole (run : StoredRun sum64) : Prop := run.body.data = run.bytes

/-- The merge takes the run to have ended, after all of it or after a part that has the header. -/
def StoredRun.EndsQuietly (run : StoredRun sum64) : Prop :=
  run.records ≠ [] ∧ run.body.fin.isEOF = true ∧
    (run.Whole ∨ run.body.fin ≠ .eof ∧ intermediateRunMagic.length ≤ run.body.data.length)

/-! ## One run -/

theorem size_le_of_encodeRecords {records : List RunRecord} {i : ℕ} {e e' : Encoding}
    (h : encodeRecords sum64 i e records = .ok e') :
    ∀ record ∈ records, record.size ≤ maxIntermediateRecordLen := by
  induction records generalizing i e with
  | nil => simp
  | cons record records ih =>
    unfold encodeRecords at h
    dsimp only at h
    split_ifs at h with hsize hfull
    · exact List.forall_mem_cons.mpr ⟨not_lt.mp hsize, ih h⟩
    · exact List.forall_mem_cons.mpr ⟨not_lt.mp hsize, ih h⟩

theorem StoredRun.blocks (run : StoredRun sum64) :
    ∃ blocks, blocks.flatten = run.records ∧ (∀ block ∈ blocks, BlockFits block) ∧
      run.bytes = encodedBytes sum64 blocks := by
  have hsize : ∀ record ∈ run.records, record.size ≤ maxIntermediateRecordLen := by
    have henc := run.encoded
    unfold encodeIntermediateRun at henc
    cases h : encodeRecords sum64 0 { out := intermediateRunMagic, prev := chainStart sum64 }
        run.records with
    | error t =>
      rw [h] at henc
      cases henc
    | ok e => exact size_le_of_encodeRecords h
  obtain ⟨blocks, hflat, hfits, henc⟩ := encodeIntermediateRun_blocks sum64 hsize
  exact ⟨blocks, hflat, hfits, Except.ok.inj (run.encoded.symm.trans henc)⟩

variable (sum64) in
structure StoredRun.Reads (run : StoredRun sum64) (t : Track RunError RunReader RunRecord) :
    Prop where
  opens : Opens (RunM.next sum64) StoredRun.openStored run t
  ends : t.last.isEOF = true ↔ run.EndsQuietly
  whole : run.Whole → t.rest = run.records ∧ t.left.footer = true
  cut : ¬run.Whole → t.left.footer = false

theorem isEOF_of_brokenOff {fin : ReadError} {e : RunError} (h : BrokenOff fin e) :
    e.isEOF = true ↔ fin ≠ .eof ∧ fin.isEOF = true := by
  unfold BrokenOff at h
  split_ifs at h with hfin
  · obtain ⟨t, rfl⟩ := h
    simp [hfin, RunError.isEOF]
  · obtain ⟨what, rfl⟩ := h
    simp [hfin, RunError.isEOF, ReadError.isEOF]

namespace StoredRun
variable (run : StoredRun sum64)

theorem openStored_error
    (h : run.records = [] ∨ run.body.data.length < intermediateRunMagic.length) :
    ∃ e, run.openStored = .error e := by
  unfold openStored
  split_ifs with hzero
  · exact ⟨_, rfl⟩
  · rcases h with hnil | hlen
    · exact absurd (by rw [hnil]; rfl) hzero
    · obtain ⟨blocks, -, -, hbytes⟩ := run.blocks
      have hwithin := run.within
      rw [hbytes, encodedBytes] at hwithin
      have hp := List.prefix_of_prefix_length_le hwithin (List.prefix_append _ _) hlen.le
      have hne : run.body.data ≠ intermediateRunMagic := fun heq => hlen.ne (congrArg _ heq)
      obtain ⟨e, he, -⟩ := newEncodedIntermediateReader_cut sum64 run.records.length hp hne
      exact ⟨e, he⟩

/-- A whole run gives its records, and how it ends is up to its source. -/
theorem reads_whole (hne : run.records ≠ []) (hwhole : run.Whole) : ∃ t, run.Reads sum64 t := by
  obtain ⟨blocks, hflat, hfits, hbytes⟩ := run.blocks
  have hzero : ¬run.records.length = 0 := fun h => hne (List.eq_nil_of_length_eq_zero h)
  obtain ⟨raw, hopen, hraw⟩ := newEncodedIntermediateReader_ok sum64 run.records.length
    (hwhole.trans hbytes)
  have hexp : (RunReader.atStart sum64 run.records.length raw).Expects
      (0 + blocks.flatten.length) := by
    rw [hflat, Nat.zero_add]
    exact .inr rfl
  obtain ⟨s, hfooter, hplays⟩ := plays_whole (RunReader.atStart_idle sum64 _ raw) hfits hexp hraw
  refine ⟨⟨_, _, s⟩, ⟨_, (if_neg hzero).trans hopen, hplays⟩, ?_, fun _ => ⟨hflat, hfooter⟩,
    fun hcut => absurd hwhole hcut⟩
  have heof : (RunError.read (if run.body.fin = .eof then .eof
      else .wrapping "check run end" run.body.fin)).isEOF = run.body.fin.isEOF := by
    split_ifs with hfin
    · rw [hfin]
      rfl
    · rfl
  rw [heof]
  exact ⟨fun h => ⟨hne, h, .inl hwhole⟩, fun h => h.2.1⟩

/-- A run that breaks off after its header is never verified. -/
theorem reads_cut (hne : run.records ≠ [])
    (hlen : intermediateRunMagic.length ≤ run.body.data.length) (hcut : ¬run.Whole) :
    ∃ t, run.Reads sum64 t := by
  obtain ⟨blocks, hflat, hfits, hbytes⟩ := run.blocks
  have hzero : ¬run.records.length = 0 := fun h => hne (List.eq_nil_of_length_eq_zero h)
  have hwithin := run.within
  have hbroken := hcut
  rw [Whole] at hbroken
  rw [hbytes, encodedBytes] at hwithin hbroken
  rcases cut_append hwithin hbroken with ⟨hp, hshort⟩ | ⟨cut, hdata, hp, hshort⟩
  · exact absurd (hp.eq_of_length_le hlen) hshort
  · obtain ⟨raw, hopen, hraw⟩ := newEncodedIntermediateReader_ok sum64 run.records.length hdata
    have hexp : (RunReader.atStart sum64 run.records.length raw).Expects
        (0 + blocks.flatten.length) := by
      rw [hflat, Nat.zero_add]
      exact .inr rfl
    obtain ⟨ys, e, s, -, hplays, hb, hs⟩ :=
      plays_cut (RunReader.atStart_idle sum64 _ raw) hfits hexp hp hshort hraw
    refine ⟨⟨ys, e, s⟩, ⟨_, (if_neg hzero).trans hopen, hplays⟩, ?_,
      fun hwhole => absurd hwhole hcut, fun _ => hs⟩
    rw [isEOF_of_brokenOff hb]
    constructor
    · rintro ⟨hfin, heof⟩
      exact ⟨hne, heof, .inr ⟨hfin, hlen⟩⟩
    · rintro ⟨-, heof, hwhole | ⟨hfin, -⟩⟩
      · exact absurd hwhole hcut
      · exact ⟨hfin, heof⟩

theorem opened_or_not :
    (¬run.EndsQuietly ∧ ∃ e, run.openStored = .error e) ∨ ∃ t, run.Reads sum64 t := by
  by_cases hne : run.records = []
  · exact .inl ⟨fun h => h.1 hne, run.openStored_error (.inl hne)⟩
  by_cases hwhole : run.Whole
  · exact .inr (run.reads_whole hne hwhole)
  by_cases hlen : intermediateRunMagic.length ≤ run.body.data.length
  · exact .inr (run.reads_cut hne hlen hwhole)
  · refine .inl ⟨?_, run.openStored_error (.inr (not_le.mp hlen))⟩
    rintro ⟨-, -, h | ⟨-, h⟩⟩
    · exact hwhole h
    · exact hlen h

end StoredRun

/-! ## All of them -/

section Runs
variable {runs : List (StoredRun sum64)}

/-- What the readers give, if all of the runs are opened. -/
theorem exists_tracks (hopen : ∀ run ∈ runs, ∀ e, run.openStored ≠ .error e) :
    ∃ ts, List.Forall₂ (Opens (RunM.next sum64) StoredRun.openStored) runs ts ∧
      (∀ run ∈ runs, ∃ t ∈ ts, run.Reads sum64 t) ∧ (∀ t ∈ ts, ∃ run ∈ runs, run.Reads sum64 t) ∧
      ((∀ run ∈ runs, run.Whole) → remaining ts = runs.flatMap StoredRun.records) := by
  have hreads (run : StoredRun sum64) (hrun : run ∈ runs) : ∃ t, run.Reads sum64 t := by
    rcases run.opened_or_not with ⟨-, e, herr⟩ | hreads
    · exact absurd herr (hopen run hrun e)
    · exact hreads
  induction runs with
  | nil => exact ⟨[], .nil, by simp, by simp, fun _ => rfl⟩
  | cons run runs ih =>
    rw [List.forall_mem_cons] at hopen hreads
    obtain ⟨t, ht⟩ := hreads.1
    obtain ⟨ts, hall, hruns, hts, hrest⟩ := ih hopen.2 hreads.2
    refine ⟨t :: ts, .cons ht.opens hall, ?_, ?_, ?_⟩
    · refine List.forall_mem_cons.mpr ⟨⟨t, List.mem_cons_self, ht⟩, fun run' hrun' => ?_⟩
      obtain ⟨t', ht', hr⟩ := hruns run' hrun'
      exact ⟨t', List.mem_cons_of_mem t ht', hr⟩
    · refine List.forall_mem_cons.mpr ⟨⟨run, List.mem_cons_self, ht⟩, fun t' ht' => ?_⟩
      obtain ⟨run', hrun', hr⟩ := hts t' ht'
      exact ⟨run', List.mem_cons_of_mem run hrun', hr⟩
    · intro hwhole
      rw [List.forall_mem_cons] at hwhole
      rw [remaining, List.map_cons, List.flatten_cons, (ht.whole hwhole.1).1, List.flatMap_cons,
        ← hrest hwhole.2, remaining]

/-- All of the runs are opened if the merge is. -/
theorem openStored_ne_error {m : MergedIntermediate RunReader RunRecord}
    (hm : openMerged runs = .ok m) : ∀ run ∈ runs, ∀ e, run.openStored ≠ .error e := by
  intro run hrun e herr
  obtain ⟨e', he'⟩ := openMergedFrom_error hrun herr ({} : MergedIntermediate RunReader RunRecord)
  cases hm.symm.trans he'

theorem StoredRun.EndsQuietly.openStored_ne_error {run : StoredRun sum64} (h : run.EndsQuietly)
    (e : RunError) : run.openStored ≠ .error e := by
  rcases run.opened_or_not with ⟨hnot, -⟩ | ⟨t, ⟨r, hok, -⟩, -, -, -⟩
  · exact absurd h hnot
  · rw [hok]
    nofun

theorem neverCutShort_of_whole
    (h : (∀ run ∈ runs, run.EndsQuietly) → ∀ run ∈ runs, run.Whole) : NeverCutShort runs := by
  intro m out e m' hm hplays heof
  obtain ⟨ts, hopen, hruns, hts, hrest⟩ := exists_tracks (openStored_ne_error hm)
  have hends : ∀ t ∈ ts, t.last.isEOF = true := by
    intro t ht
    by_contra hfails
    have hfail := openMergedIntermediate_failed hopen ht (Bool.eq_false_iff.mpr hfails) hm hplays
    rw [heof] at hfail
    cases hfail
  have hwhole : ∀ run ∈ runs, run.Whole := by
    apply h
    intro run hrun
    obtain ⟨t, ht, hr⟩ := hruns run hrun
    exact hr.ends.mp (hends t ht)
  obtain ⟨m₁, out₁, m₁', hm₁, -, hplays₁, hout, hreaders⟩ :=
    openMergedIntermediate_ended hopen hends
  cases hm.symm.trans hm₁
  obtain ⟨rfl, -, rfl⟩ := hplays.unique hplays₁
  rw [hrest hwhole] at hout
  refine ⟨?_, hout⟩
  intro r hr
  rw [hreaders] at hr
  obtain ⟨t, ht, rfl⟩ := List.mem_map.mp hr
  obtain ⟨run, hrun, hreads⟩ := hts t ht
  exact (hreads.whole (hwhole run hrun)).2

theorem whole_of_neverCutShort (h : NeverCutShort runs)
    (hquiet : ∀ run ∈ runs, run.EndsQuietly) : ∀ run ∈ runs, run.Whole := by
  obtain ⟨ts, hopen, hruns, hts, -⟩ :=
    exists_tracks fun run hrun => (hquiet run hrun).openStored_ne_error
  have hends : ∀ t ∈ ts, t.last.isEOF = true := by
    intro t ht
    obtain ⟨run, hrun, hreads⟩ := hts t ht
    exact hreads.ends.mpr (hquiet run hrun)
  obtain ⟨m, out, m', hm, -, hplays, -, hreaders⟩ := openMergedIntermediate_ended hopen hends
  obtain ⟨hfooter, -⟩ := h m out _ m' hm hplays rfl
  intro run hrun
  by_contra hcut
  obtain ⟨t, ht, hreads⟩ := hruns run hrun
  have htrue := hfooter t.left (by rw [hreaders]; exact List.mem_map_of_mem ht)
  rw [hreads.cut hcut] at htrue
  cases htrue

/-- A run is cut short in silence if and only if all of the runs end quietly and one is not
whole. -/
theorem neverCutShort_iff (runs : List (StoredRun sum64)) :
    NeverCutShort runs ↔ ((∀ run ∈ runs, run.EndsQuietly) → ∀ run ∈ runs, run.Whole) :=
  ⟨fun h => whole_of_neverCutShort h, neverCutShort_of_whole⟩

end Runs
end Cut

/-- One record, read from a source that breaks off after the header with an error that wraps the
end of the input. -/
def droppedConnection : StoredRun fun _ => 0 where
  records := [⟨[107], [], [118]⟩]
  bytes := encodedBytes (fun _ => 0) [[⟨[107], [], [118]⟩]]
  encoded := by decide +kernel
  body := { data := intermediateRunMagic, fin := .wrapping "read tcp" .eof, eager := false
            pace := fun _ => 0 }
  within := List.prefix_append _ _

theorem droppedConnection_endsQuietly : droppedConnection.EndsQuietly :=
  ⟨by decide, rfl, .inr ⟨by decide, le_rfl⟩⟩

theorem droppedConnection_cut : ¬droppedConnection.Whole := by
  unfold StoredRun.Whole
  decide

/-- Its only record is lost, and the merge reports the end. -/
theorem droppedConnection_cutShort : ¬NeverCutShort [droppedConnection] := by
  intro h
  apply droppedConnection_cut
  apply whole_of_neverCutShort h
  · exact List.forall_mem_singleton.mpr droppedConnection_endsQuietly
  · exact List.mem_singleton_self _
end EntroQ.Eqmr
