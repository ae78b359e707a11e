import EntroQ.Eqmr.RunRoundTrip

/-! # Whole runs

The encoder cuts the records into blocks that the reader takes, whatever their sizes. From such
blocks and the footer the reader gives the records in order and then the end; it fails if anything
is missing, and if anything follows. -/

namespace EntroQ.Eqmr
open Foundation

section Runs
variable (sum64 : List UInt8 → UInt64)

/-- The blocks one after the other, from the checksum before them. -/
def frames (prev : List UInt8) : List (List RunRecord) → List UInt8
  | [] => []
  | block :: blocks => blockBytes sum64 prev block ++ frames (blockSum sum64 prev block) blocks

/-- The checksum after the blocks. -/
def framesSum (prev : List UInt8) : List (List RunRecord) → List UInt8
  | [] => prev
  | block :: blocks => framesSum (blockSum sum64 prev block) blocks

def framesAndFooter (prev : List UInt8) (count : ℕ) (blocks : List (List RunRecord)) :
    List UInt8 :=
  frames sum64 prev blocks ++
    footerBytes sum64 (framesSum sum64 prev blocks) (count + blocks.flatten.length)

theorem framesAndFooter_cons (prev : List UInt8) (count : ℕ) (block : List RunRecord)
    (blocks : List (List RunRecord)) :
    framesAndFooter sum64 prev count (block :: blocks) = blockBytes sum64 prev block ++
      framesAndFooter sum64 (blockSum sum64 prev block) (count + block.length) blocks := by
  simp only [framesAndFooter, frames, framesSum, List.append_assoc, List.flatten_cons,
    List.length_append, Nat.add_assoc]

def encodedBytes (blocks : List (List RunRecord)) : List UInt8 :=
  intermediateRunMagic ++ framesAndFooter sum64 (chainStart sum64) 0 blocks

/-! ## The encoder's blocks -/

theorem payloadOf_append (records records' : List RunRecord) :
    payloadOf (records ++ records') = payloadOf records ++ payloadOf records' :=
  List.flatMap_append

theorem payloadOf_concat (records : List RunRecord) (record : RunRecord) :
    payloadOf (records ++ [record]) = appendIntermediateRecord (payloadOf records) record := by
  rw [payloadOf_append, payloadOf, payloadOf, List.flatMap_singleton]
  rfl

theorem recordBytes_length_le {record : RunRecord}
    (h : record.size ≤ maxIntermediateRecordLen) :
    (recordBytes record).length ≤ maxIntermediateRecordLen + 3 * maxVarintLen64 := by
  have hmax : maxIntermediateRecordLen < 2 ^ 64 := by decide
  simp only [RunRecord.size] at h
  have hp := uvarint_length_le (.start (show record.primary.length < 2 ^ 64 by omega))
  have hs := uvarint_length_le (.start (show record.secondary.length < 2 ^ 64 by omega))
  have hv := uvarint_length_le (.start (show record.value.length < 2 ^ 64 by omega))
  simp only [recordBytes, RunRecord.fields, List.flatMap_cons, List.flatMap_nil, List.length_append,
    List.flatten_cons, List.flatten_nil, List.length_nil]
  omega

structure Encoding.Pending (e : Encoding) (records : List RunRecord) : Prop where
  payload : e.payload = payloadOf records
  count : e.count = records.length
  sizes : ∀ record ∈ records, record.size ≤ maxIntermediateRecordLen
  short : (payloadOf records).length < intermediateBlockBytes

theorem BlockFits.concat {e : Encoding} {records : List RunRecord} (h : e.Pending records)
    {record : RunRecord} (hsize : record.size ≤ maxIntermediateRecordLen) :
    BlockFits (records ++ [record]) where
  nonempty := by simp
  sizes := by
    intro x hx
    rcases List.mem_append.mp hx with hx | hx
    · exact h.sizes x hx
    · rwa [List.mem_singleton.mp hx]
  length := by
    have hshort := h.short
    have hrecord := recordBytes_length_le hsize
    rw [payloadOf_concat, appendIntermediateRecord, List.length_append]
    rw [recordBytes] at hrecord
    unfold maxIntermediateBlockLen
    omega

theorem Encoding.flush_eq {e : Encoding} {block : List RunRecord}
    (hpayload : e.payload = payloadOf block) (hcount : e.count = block.length) (hne : block ≠ []) :
    e.flush sum64 = { out := e.out ++ blockBytes sum64 e.prev block
                      prev := blockSum sum64 e.prev block } := by
  have hpos : ¬e.count = 0 := by
    rw [hcount, List.length_eq_zero_iff]
    exact hne
  unfold flush
  rw [if_neg hpos, hpayload, hcount]
  rfl

def Encoding.finish (e : Encoding) (count : ℕ) : List UInt8 :=
  (e.flush sum64).out ++ footerBytes sum64 (e.flush sum64).prev count

theorem Encoding.Pending.finish {e : Encoding} {records : List RunRecord} (h : e.Pending records)
    (count : ℕ) : ∃ blocks, blocks.flatten = records ∧ (∀ block ∈ blocks, BlockFits block) ∧
      e.finish sum64 (count + records.length) =
        e.out ++ framesAndFooter sum64 e.prev count blocks := by
  by_cases hne : records = []
  · subst hne
    refine ⟨[], rfl, by simp, ?_⟩
    have hzero : e.flush sum64 = e := if_pos h.count
    rw [Encoding.finish, hzero]
    rfl
  · have hle : intermediateBlockBytes ≤ maxIntermediateBlockLen := by decide
    have hfits : BlockFits records := ⟨hne, h.sizes, h.short.le.trans hle⟩
    refine ⟨[records], by simp, by simpa using hfits, ?_⟩
    rw [Encoding.finish, Encoding.flush_eq sum64 h.payload h.count hne]
    simp [framesAndFooter, frames, framesSum]

theorem encodeRecords_blocks {records : List RunRecord}
    (hsize : ∀ record ∈ records, record.size ≤ maxIntermediateRecordLen) (i : ℕ) {e : Encoding}
    {pending : List RunRecord} (h : e.Pending pending) (count : ℕ) :
    ∃ e' blocks, encodeRecords sum64 i e records = .ok e' ∧
      blocks.flatten = pending ++ records ∧ (∀ block ∈ blocks, BlockFits block) ∧
      e'.finish sum64 (count + (pending ++ records).length) =
        e.out ++ framesAndFooter sum64 e.prev count blocks := by
  induction records generalizing i e pending count with
  | nil =>
    obtain ⟨blocks, hflat, hfits, hfinish⟩ := h.finish sum64 count
    rw [List.append_nil]
    exact ⟨e, blocks, rfl, hflat, hfits, hfinish⟩
  | cons record records ih =>
    obtain ⟨hrecord, hrest⟩ := List.forall_mem_cons.mp hsize
    have hfits := BlockFits.concat h hrecord
    have hpayload : appendIntermediateRecord e.payload record = payloadOf (pending ++ [record]) := by
      rw [h.payload, payloadOf_concat]
    have hcount : e.count + 1 = (pending ++ [record]).length := by
      rw [h.count, List.length_append, List.length_singleton]
    have hwithin : ¬record.primary.length + record.secondary.length + record.value.length >
        maxIntermediateRecordLen := not_lt.mpr hrecord
    have happ : pending ++ record :: records = (pending ++ [record]) ++ records := by simp
    rw [happ]
    unfold encodeRecords
    dsimp only
    rw [if_neg hwithin, hpayload]
    split_ifs with hfull
    · -- the block is full, so that the next one starts from nothing
      rw [Encoding.flush_eq sum64 rfl hcount hfits.nonempty]
      have hnone : Encoding.Pending { out := e.out ++ blockBytes sum64 e.prev (pending ++ [record])
                                      prev := blockSum sum64 e.prev (pending ++ [record]) } [] :=
        ⟨rfl, rfl, by simp, by decide⟩
      obtain ⟨e', blocks, henc, hflat, hall, hfinish⟩ :=
        ih hrest (i + 1) hnone (count + (pending ++ [record]).length)
      refine ⟨e', (pending ++ [record]) :: blocks, henc, ?_, ?_, ?_⟩
      · rw [List.flatten_cons, hflat, List.nil_append]
      · exact List.forall_mem_cons.mpr ⟨hfits, hall⟩
      · rw [List.nil_append, Nat.add_assoc, ← List.length_append] at hfinish
        rw [hfinish, framesAndFooter_cons, List.append_assoc]
    · exact ih hrest (i + 1) ⟨rfl, hcount, hfits.sizes, not_le.mp hfull⟩ count

theorem encodeIntermediateRun_blocks {records : List RunRecord}
    (hsize : ∀ record ∈ records, record.size ≤ maxIntermediateRecordLen) :
    ∃ blocks, blocks.flatten = records ∧ (∀ block ∈ blocks, BlockFits block) ∧
      encodeIntermediateRun sum64 records = .ok (encodedBytes sum64 blocks) := by
  have hnone : Encoding.Pending
      { out := intermediateRunMagic, prev := chainStart sum64 } [] := ⟨rfl, rfl, by simp, by decide⟩
  obtain ⟨e', blocks, henc, hflat, hall, hfinish⟩ :=
    encodeRecords_blocks sum64 hsize 0 hnone 0
  rw [List.nil_append, Nat.zero_add] at hfinish
  refine ⟨blocks, hflat, hall, ?_⟩
  rw [encodedBytes, ← hfinish]
  simp only [encodeIntermediateRun, henc]
  rfl

/-! ## Reading the blocks -/

/-- Between two blocks. -/
structure RunReader.Idle (r : RunReader) : Prop where
  block : r.block = []
  blockLeft : r.blockLeft = 0
  done : r.done = false

def RunReader.afterBlocks (r : RunReader) (raw : Reader) (blocks : List (List RunRecord)) :
    RunReader :=
  { r with raw, prev := framesSum sum64 r.prev blocks
           readCount := r.readCount + blocks.flatten.length }

theorem RunReader.Idle.afterBlocks {r : RunReader} (h : r.Idle) (raw : Reader)
    (blocks : List (List RunRecord)) : (r.afterBlocks sum64 raw blocks).Idle :=
  ⟨h.block, h.blockLeft, h.done⟩

/-- The number a run is to have, if one is known, is that of the records in it. -/
def RunReader.Expects (r : RunReader) (count : ℕ) : Prop :=
  r.expectedCount < 0 ∨ uint64 r.expectedCount = uint64 count

section Reading
variable {sum64} {ys : List RunRecord} {e : RunError} {s : RunReader}

/-- The records of a block that has been read come before anything else. -/
theorem plays_pending {records : List RunRecord}
    (hsize : ∀ record ∈ records, record.size ≤ maxIntermediateRecordLen) {r : RunReader}
    (hb : r.block = payloadOf records) (hleft : r.blockLeft = records.length)
    (h : Plays (RunM.next sum64)
      { r with block := [], blockLeft := 0, readCount := r.readCount + records.length } ys e s) :
    Plays (RunM.next sum64) r (records ++ ys) e s := by
  induction records generalizing r with
  | nil =>
    obtain ⟨raw, prev, expectedCount, readCount, block, blockLeft, done, footer⟩ := r
    subst hb hleft
    exact h
  | cons record records ih =>
    obtain ⟨hrecord, hrest⟩ := List.forall_mem_cons.mp hsize
    apply Plays.item (RunM.next_record sum64 hrecord hb hleft)
    apply ih hrest rfl rfl
    rwa [List.length_cons, Nat.add_comm records.length 1, ← Nat.add_assoc] at h

theorem plays_block {r : RunReader} (hr : r.Idle) {block : List RunRecord} (hfits : BlockFits block)
    {raw : Reader} {fin : ReadError} {rest : List UInt8}
    (h : raw.Holds (blockBytes sum64 r.prev block ++ rest) fin) :
    ∃ raw' : Reader, raw'.Holds rest fin ∧ ∀ ys e s,
      Plays (RunM.next sum64) (r.afterBlocks sum64 raw' [block]) ys e s →
      Plays (RunM.next sum64) { r with raw } (block ++ ys) e s := by
  obtain ⟨raw', hframe, hraw'⟩ := (Parses.readFrame_block sum64 r hfits).reads raw fin rest h
  refine ⟨raw', hraw', ?_⟩
  intro ys e s hplays
  have hnext := RunM.next_of_block sum64 (r := { r with raw }) hr.blockLeft hr.done hframe
    (Nat.ne_of_gt (List.length_pos_of_ne_nil hfits.nonempty))
  apply Plays.congr hnext.symm
  apply plays_pending hfits.sizes rfl rfl
  have hafter : r.afterBlocks sum64 raw' [block] =
      { r with raw := raw', prev := blockSum sum64 r.prev block, block := [], blockLeft := 0
               readCount := r.readCount + block.length } := by
    rw [RunReader.afterBlocks, List.flatten_singleton]
    simp only [framesSum, hr.block, hr.blockLeft]
  rwa [hafter] at hplays

/-- So do all of them, one after the other. -/
theorem plays_blocks {r : RunReader} (hr : r.Idle) {blocks : List (List RunRecord)}
    (hfits : ∀ block ∈ blocks, BlockFits block) {raw : Reader} {fin : ReadError}
    {rest : List UInt8} (h : raw.Holds (frames sum64 r.prev blocks ++ rest) fin) :
    ∃ raw' : Reader, raw'.Holds rest fin ∧ ∀ ys e s,
      Plays (RunM.next sum64) (r.afterBlocks sum64 raw' blocks) ys e s →
      Plays (RunM.next sum64) { r with raw } (blocks.flatten ++ ys) e s := by
  induction blocks generalizing r raw with
  | nil => exact ⟨raw, h, fun _ _ _ hplays => hplays⟩
  | cons block blocks ih =>
    obtain ⟨hblock, hrest⟩ := List.forall_mem_cons.mp hfits
    rw [frames, List.append_assoc] at h
    obtain ⟨raw₁, hraw₁, hfirst⟩ := plays_block hr hblock h
    obtain ⟨raw₂, hraw₂, hothers⟩ := ih (hr.afterBlocks sum64 raw₁ [block]) hrest hraw₁
    refine ⟨raw₂, hraw₂, ?_⟩
    intro ys e s hplays
    rw [List.flatten_cons, List.append_assoc]
    apply hfirst
    apply hothers
    have hcount : r.readCount + [block].flatten.length + blocks.flatten.length =
        r.readCount + (block :: blocks).flatten.length := by
      simp only [List.flatten_cons, List.flatten_nil, List.append_nil, List.length_append,
        Nat.add_assoc]
    rw [RunReader.afterBlocks, ← hcount] at hplays
    exact hplays

/-! ## The end of a run -/

variable {r : RunReader} (hr : r.Idle) {blocks : List (List RunRecord)}
  (hfits : ∀ block ∈ blocks, BlockFits block) {raw : Reader} {fin : ReadError}
include hr hfits

/-- A whole run gives all of its records, and the end if its source ends cleanly. -/
theorem plays_whole (hexp : r.Expects (r.readCount + blocks.flatten.length))
    (h : raw.Holds (framesAndFooter sum64 r.prev r.readCount blocks) fin) :
    ∃ s, s.footer = true ∧ Plays (RunM.next sum64) { r with raw } blocks.flatten
      (.read (if fin = .eof then .eof else .wrapping "check run end" fin)) s := by
  obtain ⟨raw', hraw', hall⟩ := plays_blocks hr hfits h
  have hidle := hr.afterBlocks sum64 raw' blocks
  obtain ⟨s, hfooter, hs, hend⟩ := RunM.readFrame_end sum64 (r.afterBlocks sum64 raw' blocks) hexp hraw'
  refine ⟨s, hfooter, ?_⟩
  rw [← List.append_nil blocks.flatten]
  apply hall
  apply Plays.stop
  by_cases hfin : fin = .eof
  · rw [if_pos hfin] at hend ⊢
    exact RunM.next_of_end sum64 hidle.blockLeft hidle.done hend.1 (hs.trans hidle.blockLeft) hend.2
  · rw [if_neg hfin] at hend ⊢
    exact RunM.next_of_error sum64 hidle.blockLeft hidle.done hend

theorem plays_dataAfter (hexp : r.Expects (r.readCount + blocks.flatten.length)) {b : UInt8}
    {rest : List UInt8}
    (h : raw.Holds (framesAndFooter sum64 r.prev r.readCount blocks ++ b :: rest) fin) :
    ∃ t s, Plays (RunM.next sum64) { r with raw } blocks.flatten (.corrupt t) s := by
  rw [framesAndFooter, List.append_assoc] at h
  obtain ⟨raw', hraw', hall⟩ := plays_blocks hr hfits h
  have hidle := hr.afterBlocks sum64 raw' blocks
  obtain ⟨s, t, herr⟩ :=
    RunM.readFrame_dataAfter sum64 (r.afterBlocks sum64 raw' blocks) hexp hraw'
  refine ⟨t, s, ?_⟩
  rw [← List.append_nil blocks.flatten]
  apply hall
  apply Plays.stop
  exact RunM.next_of_error sum64 hidle.blockLeft hidle.done herr

omit hr hfits in
theorem plays_of_breaks (hr : r.Idle)
    (h : ∃ e s, RunM.readFrame sum64 { r with raw } = .error e s ∧ BrokenOff fin e ∧
      s.footer = r.footer) (records : List RunRecord) :
    ∃ ys e s, ys <+: records ∧ Plays (RunM.next sum64) { r with raw } ys e s ∧ BrokenOff fin e ∧
      s.footer = r.footer := by
  obtain ⟨e, s, herr, hb, hs⟩ := h
  refine ⟨[], e, s, List.nil_prefix, ?_, hb, hs⟩
  apply Plays.stop
  exact RunM.next_of_error sum64 (r := { r with raw }) hr.blockLeft hr.done herr

/-- A run that breaks off gives some of its records, and its footer is not verified. -/
theorem plays_cut (hexp : r.Expects (r.readCount + blocks.flatten.length)) {cut : List UInt8}
    (hp : cut <+: framesAndFooter sum64 r.prev r.readCount blocks)
    (hne : cut ≠ framesAndFooter sum64 r.prev r.readCount blocks) (h : raw.Holds cut fin) :
    ∃ ys e s, ys <+: blocks.flatten ∧ Plays (RunM.next sum64) { r with raw } ys e s ∧
      BrokenOff fin e ∧ s.footer = r.footer := by
  induction blocks generalizing r raw cut with
  | nil => exact plays_of_breaks hr (RunM.readFrame_cutFooter sum64 r hexp hp hne h) _
  | cons block blocks ih =>
    obtain ⟨hblock, hrest⟩ := List.forall_mem_cons.mp hfits
    rw [framesAndFooter_cons] at hp hne
    rcases cut_append hp hne with ⟨hp, hne⟩ | ⟨cut, rfl, hp, hne⟩
    · exact plays_of_breaks hr ((Parses.readFrame_block sum64 r hblock).breaks raw fin cut hp hne h) _
    · obtain ⟨raw', hraw', hall⟩ := plays_block hr hblock h
      have hread : r.readCount + block.length = (r.afterBlocks sum64 raw' [block]).readCount := by
        rw [RunReader.afterBlocks, List.flatten_singleton]
      rw [List.flatten_cons, List.length_append, ← Nat.add_assoc, hread] at hexp
      rw [hread] at hp hne
      obtain ⟨ys, e, s, hys, hplays, hb, hs⟩ :=
        ih (hr.afterBlocks sum64 raw' [block]) hrest hexp hp hne hraw'
      exact ⟨block ++ ys, e, s, (List.prefix_append_right_inj block).mpr hys, hall _ _ _ hplays, hb, hs⟩

end Reading

/-! ## From the header on -/

theorem Parses.readHeader (r : RunReader) :
    Parses RunM.readHeader r intermediateRunMagic () r := by
  have hfull := Parses.rawFull r intermediateRunMagic "read header"
  unfold RunM.readHeader
  apply hfull.bind_last
  rw [if_neg (fun h => h rfl)]
  exact Parses.pure_nil _ r

variable {body : Source} (expectedCount : ℤ)

def RunReader.atStart (raw : Reader) : RunReader :=
  { raw, prev := chainStart sum64, expectedCount }

theorem RunReader.atStart_idle (raw : Reader) : (RunReader.atStart sum64 expectedCount raw).Idle :=
  ⟨rfl, rfl, rfl⟩

theorem newEncodedIntermediateReader_ok {rest : List UInt8}
    (h : body.data = intermediateRunMagic ++ rest) :
    ∃ raw, newEncodedIntermediateReader sum64 body expectedCount =
      .ok (RunReader.atStart sum64 expectedCount raw) ∧ raw.Holds rest body.fin := by
  have hfresh : Reader.Holds { src := body } (intermediateRunMagic ++ rest) body.fin :=
    ⟨h, rfl, nofun⟩
  obtain ⟨raw, hread, hraw⟩ :=
    (Parses.readHeader { raw := { src := body }, prev := chainStart sum64, expectedCount }).reads
      _ _ _ hfresh
  refine ⟨raw, ?_, hraw⟩
  unfold newEncodedIntermediateReader
  rw [hread]
  rfl

/-- A run that breaks off in its header is not opened. -/
theorem newEncodedIntermediateReader_cut (hp : body.data <+: intermediateRunMagic)
    (hne : body.data ≠ intermediateRunMagic) :
    ∃ e, newEncodedIntermediateReader sum64 body expectedCount = .error e ∧ BrokenOff body.fin e := by
  have hfresh : Reader.Holds { src := body } body.data body.fin := ⟨rfl, rfl, nofun⟩
  obtain ⟨e, s, herr, hb, -⟩ :=
    (Parses.readHeader { raw := { src := body }, prev := chainStart sum64, expectedCount }).breaks
      _ _ _ hp hne hfresh
  refine ⟨e, ?_, hb⟩
  unfold newEncodedIntermediateReader
  rw [herr]

/-- What a reader of a run gives until it fails, if that is within so many records. -/
def readEncoded (body : Source) (n : ℕ) : Option (List RunRecord × RunError) :=
  match newEncodedIntermediateReader sum64 body expectedCount with
  | .error e => some ([], e)
  | .ok r => (drain (RunM.next sum64) n r).map fun (xs, e, _) => (xs, e)

theorem readEncoded_of_plays {r s : RunReader} {xs : List RunRecord} {e : RunError}
    (hopen : newEncodedIntermediateReader sum64 body expectedCount = .ok r)
    (h : Plays (RunM.next sum64) r xs e s) {n : ℕ} (hn : xs.length < n) :
    readEncoded sum64 expectedCount body n = some (xs, e) := by
  rw [readEncoded, hopen]
  dsimp only
  rw [h n hn]
  rfl

/-- What the encoder writes is read back, and nothing less or more than that is taken for it. -/
theorem readEncoded_encodeIntermediateRun (records : List RunRecord)
    (hsize : ∀ record ∈ records, record.size ≤ maxIntermediateRecordLen)
    (hexp : expectedCount < 0 ∨ expectedCount = records.length) :
    ∃ bytes, encodeIntermediateRun sum64 records = .ok bytes ∧
      ∀ body : Source, body.fin = .eof →
        (body.data = bytes → ∀ n, records.length < n →
          readEncoded sum64 expectedCount body n = some (records, .read .eof)) ∧
        ((body.data <+: bytes ∨ bytes <+: body.data) → body.data ≠ bytes →
          ∃ xs t, xs <+: records ∧ ∀ n, xs.length < n →
            readEncoded sum64 expectedCount body n = some (xs, .corrupt t)) := by
  obtain ⟨blocks, rfl, hfits, henc⟩ := encodeIntermediateRun_blocks sum64 hsize
  have hexp (raw : Reader) : (RunReader.atStart sum64 expectedCount raw).Expects
      ((RunReader.atStart sum64 expectedCount raw).readCount + blocks.flatten.length) := by
    rcases hexp with hneg | heq
    · exact .inl hneg
    · refine .inr ?_
      rw [RunReader.atStart, Nat.zero_add, heq]
  have hidle (raw : Reader) := RunReader.atStart_idle sum64 expectedCount raw
  refine ⟨_, henc, ?_⟩
  intro body hfin
  constructor
  · intro hdata n hn
    obtain ⟨raw, hopen, hraw⟩ := newEncodedIntermediateReader_ok sum64 expectedCount hdata
    obtain ⟨s, -, hplays⟩ := plays_whole (hidle raw) hfits (hexp raw) hraw
    rw [if_pos hfin] at hplays
    exact readEncoded_of_plays sum64 expectedCount hopen hplays hn
  · rintro (hp | ⟨rest, hdata⟩) hne
    · rcases cut_append hp hne with ⟨hp, hne⟩ | ⟨cut, hdata, hp, hne⟩
      · obtain ⟨e, hopen, hb⟩ := newEncodedIntermediateReader_cut sum64 expectedCount hp hne
        rw [BrokenOff, if_pos hfin] at hb
        obtain ⟨t, rfl⟩ := hb
        refine ⟨[], t, List.nil_prefix, fun n _ => ?_⟩
        rw [readEncoded, hopen]
      · obtain ⟨raw, hopen, hraw⟩ := newEncodedIntermediateReader_ok sum64 expectedCount hdata
        obtain ⟨ys, e, s, hys, hplays, hb, -⟩ := plays_cut (hidle raw) hfits (hexp raw) hp hne hraw
        rw [BrokenOff, if_pos hfin] at hb
        obtain ⟨t, rfl⟩ := hb
        exact ⟨ys, t, hys, fun n hn => readEncoded_of_plays sum64 expectedCount hopen hplays hn⟩
    · obtain ⟨b, rest, rfl⟩ : ∃ b bs, rest = b :: bs := by
        cases rest with
        | nil => exact absurd (hdata.symm.trans (List.append_nil _)) hne
        | cons b bs => exact ⟨b, bs, rfl⟩
      rw [encodedBytes, List.append_assoc] at hdata
      obtain ⟨raw, hopen, hraw⟩ := newEncodedIntermediateReader_ok sum64 expectedCount hdata.symm
      obtain ⟨t, s, hplays⟩ := plays_dataAfter (hidle raw) hfits (hexp raw) hraw
      exact ⟨_, t, List.prefix_rfl,
        fun n hn => readEncoded_of_plays sum64 expectedCount hopen hplays hn⟩

/-- A run of one record, read without a number to expect. -/
theorem readEncoded_encodeIntermediateRun_one :
    ∃ bytes, encodeIntermediateRun (fun _ => 0) [⟨[107], [], [118]⟩] = .ok bytes ∧
      ∀ body : Source, body.fin = .eof →
        (body.data = bytes → ∀ n, 1 < n →
          readEncoded (fun _ => 0) (-1) body n = some ([⟨[107], [], [118]⟩], .read .eof)) ∧
        ((body.data <+: bytes ∨ bytes <+: body.data) → body.data ≠ bytes →
          ∃ xs t, xs <+: [⟨[107], [], [118]⟩] ∧ ∀ n, xs.length < n →
            readEncoded (fun _ => 0) (-1) body n = some (xs, .corrupt t)) :=
  readEncoded_encodeIntermediateRun (fun _ => 0) (-1) [⟨[107], [], [118]⟩] (by decide) (.inl (by decide))

end Runs
end EntroQ.Eqmr
