import EntroQ.Eqmr.RunCodec
import EntroQ.Foundation.Playback

/-! # Reading a run back

`Parses` says which bytes a step of the reader takes and what it makes of them, and that it fails
if the bytes break off before. Steps put together parse their bytes one after the other, so that
the whole run is read back, and no cut of it goes unnoticed. -/

namespace EntroQ.Eqmr
open Foundation

/-- The failure of a run that breaks off: it is corrupt if its source ended cleanly, and else its
source's error is passed on. -/
def BrokenOff (fin : ReadError) (e : RunError) : Prop :=
  if fin = .eof then ∃ t, e = .corrupt t else ∃ what, e = .read (.wrapping what fin)

theorem brokenOff_short (r : RunReader) {raw : Reader} {fin err : ReadError} (h : raw.Over fin)
    (herr : err = fin ∨ (fin = .eof ∧ err = .unexpectedEOF)) (what : String) :
    BrokenOff fin (RunReader.short { r with raw } err what) := by
  have hended : RunReader.ended { r with raw } = (fin == .eof) := by
    simp [RunReader.ended, h.ends, h.reported]
  unfold BrokenOff RunReader.short
  rw [hended]
  by_cases hfin : fin = .eof
  · subst hfin
    rcases herr with rfl | ⟨-, rfl⟩
    · exact ⟨_, rfl⟩
    · exact ⟨_, rfl⟩
  · rcases herr with rfl | ⟨hf, -⟩
    · simp [hfin]
    · exact absurd hf hfin

/-- From a state the step takes the bytes, gives a value and leaves another state, whatever
follows the bytes; if the source breaks off before their end it fails. -/
structure Parses {α : Type} (m : RunM α) (r : RunReader) (w : List UInt8) (a : α) (r' : RunReader) :
    Prop where
  reads : ∀ raw fin rest, raw.Holds (w ++ rest) fin →
    ∃ raw' : Reader, m { r with raw } = .ok a { r' with raw := raw' } ∧ raw'.Holds rest fin
  breaks : ∀ raw fin cut, cut <+: w → cut ≠ w → raw.Holds cut fin →
    ∃ e s, m { r with raw } = .error e s ∧ BrokenOff fin e ∧ s.footer = r.footer
  keeps : r'.footer = r.footer

theorem cut_append {cut w w' : List UInt8} (h : cut <+: w ++ w') (hne : cut ≠ w ++ w') :
    (cut <+: w ∧ cut ≠ w) ∨ ∃ cut', cut = w ++ cut' ∧ cut' <+: w' ∧ cut' ≠ w' := by
  rcases List.prefix_or_prefix_of_prefix h (List.prefix_append w w') with hw | ⟨cut', rfl⟩
  · by_cases heq : cut = w
    · subst heq
      refine .inr ⟨[], (List.append_nil cut).symm, List.nil_prefix, ?_⟩
      rintro rfl
      exact hne (List.append_nil cut).symm
    · exact .inl ⟨hw, heq⟩
  · refine .inr ⟨cut', rfl, (List.prefix_append_right_inj w).mp h, ?_⟩
    rintro rfl
    exact hne rfl

namespace Parses
variable {α β : Type} {r r' r'' : RunReader} {w w' : List UInt8} {a : α} {b : β}

theorem pure_nil (a : α) (r : RunReader) : Parses (pure a) r [] a r where
  reads raw _ _ h := ⟨raw, rfl, h⟩
  breaks _ _ _ hp hne _ := absurd (List.prefix_nil.mp hp) hne
  keeps := rfl

theorem bind {m : RunM α} {f : α → RunM β} (hm : Parses m r w a r')
    (hf : Parses (f a) r' w' b r'') : Parses (m >>= f) r (w ++ w') b r'' where
  reads raw fin rest h := by
    rw [List.append_assoc] at h
    obtain ⟨raw', hm, h'⟩ := hm.reads raw fin _ h
    obtain ⟨raw'', hf, h''⟩ := hf.reads raw' fin _ h'
    refine ⟨raw'', ?_, h''⟩
    change EStateM.bind m f _ = _
    rw [EStateM.bind, hm]
    exact hf
  breaks raw fin cut hp hne h := by
    rcases cut_append hp hne with ⟨hp, hne⟩ | ⟨cut, rfl, hp, hne⟩
    · obtain ⟨e, s, he, hb, hs⟩ := hm.breaks raw fin cut hp hne h
      refine ⟨e, s, ?_, hb, hs⟩
      change EStateM.bind m f _ = _
      rw [EStateM.bind, he]
    · obtain ⟨raw', hm', h'⟩ := hm.reads raw fin cut h
      obtain ⟨e, s, he, hb, hs⟩ := hf.breaks raw' fin cut hp hne h'
      refine ⟨e, s, ?_, hb, hs.trans hm.keeps⟩
      change EStateM.bind m f _ = _
      rw [EStateM.bind, hm']
      exact he
  keeps := hf.keeps.trans hm.keeps

theorem gets {f : RunReader → α} (hf : ∀ raw : Reader, f { r with raw } = f r) :
    Parses (RunM.gets f) r [] (f r) r where
  reads raw _ _ h := ⟨raw, by rw [RunM.gets, hf], h⟩
  breaks _ _ _ hp hne _ := absurd (List.prefix_nil.mp hp) hne
  keeps := rfl

theorem update {g : RunReader → RunReader}
    (hg : ∀ raw : Reader, g { r with raw } = { g r with raw }) (hkeeps : (g r).footer = r.footer) :
    Parses (modify g) r [] ⟨⟩ (g r) where
  reads raw _ _ h := by
    refine ⟨raw, ?_, h⟩
    change EStateM.Result.ok PUnit.unit (g { r with raw }) = _
    rw [hg]
  breaks _ _ _ hp hne _ := absurd (List.prefix_nil.mp hp) hne
  keeps := hkeeps

theorem rawByte (r : RunReader) (b : UInt8) (what : String) :
    Parses (RunM.rawByte what) r [b] b r where
  reads raw fin rest h := by
    obtain ⟨raw', hread, h'⟩ := Reader.readByte_cons h
    exact ⟨raw', by simp only [RunM.rawByte, hread], h'⟩
  breaks raw fin cut hp hne h := by
    have hnil : cut = [] := by
      rcases List.prefix_cons_iff.mp hp with hnil | ⟨t, rfl, ht⟩
      · exact hnil
      · exact absurd (by rw [List.prefix_nil.mp ht]) hne
    subst hnil
    obtain ⟨raw', hread, hover⟩ := Reader.readByte_nil h
    exact ⟨_, { r with raw := raw' }, by simp only [RunM.rawByte, hread],
      brokenOff_short r hover (.inl rfl) what, rfl⟩
  keeps := rfl

theorem rawFull (r : RunReader) (w : List UInt8) (what : String) :
    Parses (RunM.rawFull w.length what) r w w r where
  reads raw fin rest h := by
    obtain ⟨raw', hread, h'⟩ := Reader.readFull_ok h []
    exact ⟨raw', by simp only [RunM.rawFull, hread, List.nil_append], h'⟩
  breaks raw fin cut hp hne h := by
    have hlen : cut.length < w.length :=
      lt_of_le_of_ne hp.length_le fun hl => hne (hp.eq_of_length hl)
    obtain ⟨raw', hread, hover⟩ := Reader.readFull_short h hlen []
    have herr : Reader.fullError ([] ++ cut) fin = fin ∨
        (fin = .eof ∧ Reader.fullError ([] ++ cut) fin = .unexpectedEOF) := by
      unfold Reader.fullError
      split_ifs with hc
      · exact .inr ⟨hc.2, rfl⟩
      · exact .inl rfl
    exact ⟨_, { r with raw := raw' }, by simp only [RunM.rawFull, hread],
      brokenOff_short r hover herr what, rfl⟩
  keeps := rfl

theorem readUvarintFrom (r : RunReader) (what : String) {i n : ℕ} (h : UvarintRest i n) (m : ℕ)
    (buf : List UInt8) {left : ℕ} (hleft : i + left = maxVarintLen64) :
    Parses (RunM.readUvarintFrom what left i m buf) r (uvarint n)
      (m + n * 128 ^ i, buf ++ uvarint n) r := by
  induction n using Nat.strong_induction_on generalizing i m buf left with
  | _ n ih =>
    have hi := h.place_lt
    obtain ⟨k, rfl⟩ := Nat.exists_eq_add_one_of_ne_zero (show left ≠ 0 by omega)
    have hbyte (b : UInt8) := rawByte r b ("read " ++ what)
    rcases uvarint_step h m with ⟨-, b, hu, hstep⟩ | ⟨hn, b, hu, hstep⟩
    · rw [hu, RunM.readUvarintFrom]
      apply (hbyte b).bind
      simp only [hstep]
      exact pure_nil _ r
    · rw [hu, RunM.readUvarintFrom]
      have hrest := ih (n / 128) (by omega) (h.next hn) (m + n % 128 * 128 ^ i) (buf ++ [b])
        (show i + 1 + k = maxVarintLen64 by omega)
      rw [uvarint_sum, List.append_assoc, List.singleton_append] at hrest
      apply (hbyte b).bind
      simp only [hstep]
      exact hrest

theorem readUvarint (r : RunReader) {n : ℕ} (h : n < 2 ^ 64) (buf : List UInt8) (what : String) :
    Parses (RunM.readUvarint buf what) r (uvarint n) (n, buf ++ uvarint n) r := by
  have hall := readUvarintFrom r what (.start h) 0 buf (Nat.zero_add maxVarintLen64)
  rw [Nat.zero_add, pow_zero, Nat.mul_one] at hall
  exact hall

/-- A step that takes no bytes, before one that does. -/
theorem bind_nil {m : RunM α} {f : α → RunM β} (hm : Parses m r [] a r')
    (hf : Parses (f a) r' w b r'') : Parses (m >>= f) r w b r'' :=
  hm.bind hf

/-- A step that takes no bytes, after one that does. -/
theorem bind_last {m : RunM α} {f : α → RunM β} (hm : Parses m r w a r')
    (hf : Parses (f a) r' [] b r'') : Parses (m >>= f) r w b r'' := by
  have h := hm.bind hf
  rwa [List.append_nil] at h

end Parses

/-! ## Frames -/

def RunRecord.size (record : RunRecord) : ℕ :=
  record.primary.length + record.secondary.length + record.value.length

def recordBytes (record : RunRecord) : List UInt8 :=
  record.fields.flatMap (fun field => uvarint field.length) ++ record.fields.flatten

def payloadOf (records : List RunRecord) : List UInt8 := records.flatMap recordBytes

structure BlockFits (records : List RunRecord) : Prop where
  nonempty : records ≠ []
  sizes : ∀ record ∈ records, record.size ≤ maxIntermediateRecordLen
  length : (payloadOf records).length ≤ maxIntermediateBlockLen

theorem uint64_natCast (n : ℕ) : uint64 n = n % 2 ^ 64 := by
  unfold uint64
  omega

theorem uint64_lt (n : ℤ) : uint64 n < 2 ^ 64 := by
  unfold uint64
  omega

theorem recordBytes_length (record : RunRecord) : 3 ≤ (recordBytes record).length := by
  have hp := uvarint_length_pos record.primary.length
  have hs := uvarint_length_pos record.secondary.length
  have hv := uvarint_length_pos record.value.length
  simp only [recordBytes, RunRecord.fields, List.flatMap_cons, List.flatMap_nil, List.length_append]
  omega

/-- Every record takes at least three bytes. -/
theorem payloadOf_length (records : List RunRecord) :
    3 * records.length ≤ (payloadOf records).length := by
  induction records with
  | nil => simp
  | cons record records ih =>
    have h := recordBytes_length record
    rw [payloadOf, List.flatMap_cons, List.length_append, List.length_cons]
    rw [payloadOf] at ih
    omega

section Frames
variable (sum64 : List UInt8 → UInt64)

def blockSum (prev : List UInt8) (records : List RunRecord) : List UInt8 :=
  chainSum sum64 prev [blockHead records.length (payloadOf records).length, payloadOf records]

def blockBytes (prev : List UInt8) (records : List RunRecord) : List UInt8 :=
  blockHead records.length (payloadOf records).length ++
    (payloadOf records ++ blockSum sum64 prev records)

def footerBytes (prev : List UInt8) (count : ℕ) : List UInt8 :=
  footerHead count ++ chainSum sum64 prev [footerHead count]

namespace Parses

theorem chainSum_length (prev : List UInt8) (parts : List (List UInt8)) :
    (chainSum sum64 prev parts).length = 8 := rfl

/-- The checksum that is written is the one that is wanted. -/
theorem verify (r : RunReader) (parts : List (List UInt8)) :
    Parses (RunM.verify sum64 parts) r (chainSum sum64 r.prev parts) ()
      { r with prev := chainSum sum64 r.prev parts } := by
  have hfull := rawFull r (chainSum sum64 r.prev parts) "read checksum"
  rw [chainSum_length] at hfull
  unfold RunM.verify
  apply hfull.bind_last
  apply bind_nil (gets fun _ => rfl)
  apply bind_nil (gets fun _ => rfl)
  rw [if_neg (fun h => h rfl)]
  exact update (fun _ => rfl) rfl

theorem readBlock (r : RunReader) {records : List RunRecord} (h : BlockFits records) :
    Parses (RunM.readBlock sum64) r
      (uvarint (uint64 records.length) ++ (uvarint (uint64 (payloadOf records).length) ++
        (payloadOf records ++ blockSum sum64 r.prev records))) ()
      { r with prev := blockSum sum64 r.prev records, block := payloadOf records
               blockLeft := records.length } := by
  have hlen := payloadOf_length records
  have hmax : maxIntermediateBlockLen < 2 ^ 64 := by decide
  have hcount : uint64 records.length = records.length := by
    rw [uint64_natCast, Nat.mod_eq_of_lt (by have := h.length; omega)]
  have hlength : uint64 (payloadOf records).length = (payloadOf records).length := by
    rw [uint64_natCast, Nat.mod_eq_of_lt (by have := h.length; omega)]
  have hguard : ¬(uint64 records.length = 0 ∨
      uint64 (payloadOf records).length > maxIntermediateBlockLen ∨
      uint64 records.length > uint64 (payloadOf records).length / 3) := by
    have hpos := List.length_pos_of_ne_nil h.nonempty
    have := h.length
    rw [hcount, hlength]
    omega
  unfold RunM.readBlock
  apply (readUvarint r (uint64_lt _) _ _).bind
  apply (readUvarint r (uint64_lt _) _ _).bind
  dsimp only
  have hhead : [intermediateBlockTag] ++ uvarint (uint64 records.length) ++
      uvarint (uint64 (payloadOf records).length) =
        blockHead records.length (payloadOf records).length := by
    simp [blockHead]
  have hfull := rawFull r (payloadOf records) "read block"
  rw [if_neg hguard, hhead, hcount, hlength]
  apply hfull.bind
  exact (verify sum64 r _).bind_last (update (fun _ => rfl) rfl)

theorem readFrame_block (r : RunReader) {records : List RunRecord} (h : BlockFits records) :
    Parses (RunM.readFrame sum64) r (blockBytes sum64 r.prev records) ()
      { r with prev := blockSum sum64 r.prev records, block := payloadOf records
               blockLeft := records.length } := by
  have hblock := readBlock sum64 r h
  rw [← List.append_assoc] at hblock
  unfold RunM.readFrame
  apply bind_nil (gets fun _ => rfl)
  apply (rawByte r intermediateBlockTag _).bind
  rw [if_pos rfl]
  exact hblock

/-- The footer that is written has the number of the records. -/
theorem verifyFooter (r : RunReader)
    (h : r.expectedCount < 0 ∨ uint64 r.expectedCount = uint64 r.readCount) :
    Parses (RunM.verifyFooter sum64) r
      (uvarint (uint64 r.readCount) ++ chainSum sum64 r.prev [footerHead r.readCount]) ()
      { r with prev := chainSum sum64 r.prev [footerHead r.readCount] } := by
  have hguard : ¬(0 ≤ r.expectedCount ∧ uint64 r.readCount ≠ uint64 r.expectedCount) := by
    rintro ⟨hle, hne⟩
    rcases h with h | h
    · exact absurd hle (not_le.mpr h)
    · exact hne h.symm
  have hhead : [intermediateFooterTag] ++ uvarint (uint64 r.readCount) = footerHead r.readCount := rfl
  unfold RunM.verifyFooter
  apply (readUvarint r (uint64_lt _) _ _).bind
  dsimp only
  rw [hhead]
  apply (verify sum64 r _).bind_last
  apply bind_nil (gets fun _ => rfl)
  apply bind_nil (gets fun _ => rfl)
  dsimp only
  rw [if_neg (fun h => h rfl), if_neg hguard]
  exact pure_nil _ _

end Parses

namespace RunM
variable {α β : Type} {m : RunM α} {f : α → RunM β} {s s' : RunReader} {a : α} {e : RunError}

theorem bind_ok (h : m s = .ok a s') : (m >>= f) s = f a s' := by
  change EStateM.bind m f s = _
  rw [EStateM.bind, h]

theorem bind_error (h : m s = .error e s') : (m >>= f) s = .error e s' := by
  change EStateM.bind m f s = _
  rw [EStateM.bind, h]

theorem readFrame_tag {r : RunReader} {raw raw' : Reader}
    (h : rawByte ("read frame tag after " ++ toString r.readCount ++ " records") { r with raw } =
      .ok intermediateFooterTag { r with raw := raw' }) :
    readFrame sum64 { r with raw } = readFooter sum64 { r with raw := raw' } := by
  unfold readFrame
  have hgets : gets RunReader.readCount { r with raw } = .ok r.readCount { r with raw } := rfl
  rw [bind_ok hgets, bind_ok h, if_neg (by decide), if_pos rfl]

section Footer
variable (r : RunReader) (hexp : r.expectedCount < 0 ∨ uint64 r.expectedCount = uint64 r.readCount)
  {raw : Reader} {fin : ReadError}
include hexp

theorem readFrame_verified {rest : List UInt8}
    (h : raw.Holds (footerBytes sum64 r.prev r.readCount ++ rest) fin) :
    ∃ raw' : Reader, readFrame sum64 { r with raw } =
        checkEnd { r with raw := raw', prev := chainSum sum64 r.prev [footerHead r.readCount]
                          footer := true } ∧ raw'.Holds rest fin := by
  have htag := Parses.rawByte r intermediateFooterTag
    ("read frame tag after " ++ toString r.readCount ++ " records")
  rw [footerBytes, footerHead, List.cons_append, List.cons_append] at h
  obtain ⟨raw₁, h1, hraw₁⟩ := htag.reads raw fin _ h
  obtain ⟨raw₂, h2, hraw₂⟩ := (Parses.verifyFooter sum64 r hexp).reads raw₁ fin _ hraw₁
  refine ⟨raw₂, ?_, hraw₂⟩
  rw [readFrame_tag sum64 h1, readFooter, bind_ok h2]
  rfl

theorem readFrame_end (h : raw.Holds (footerBytes sum64 r.prev r.readCount) fin) :
    ∃ s, s.footer = true ∧ s.blockLeft = r.blockLeft ∧
      if fin = .eof then readFrame sum64 { r with raw } = .ok () s ∧ s.done = true
      else readFrame sum64 { r with raw } = .error (.read (.wrapping "check run end" fin)) s := by
  rw [← List.append_nil (footerBytes _ _ _)] at h
  obtain ⟨raw', hframe, hraw'⟩ := readFrame_verified sum64 r hexp h
  obtain ⟨raw'', hbyte, -⟩ := Reader.readByte_nil hraw'
  have hcheck := hframe.trans (by simp only [checkEnd, hbyte]; rfl)
  by_cases hfin : fin = .eof
  · simp only [hfin, ne_eq, not_true, if_true, if_false] at hcheck ⊢
    refine ⟨_, ?_, ?_, hcheck, ?_⟩ <;> rfl
  · simp only [hfin, ne_eq, not_false_eq_true, if_true, if_false] at hcheck ⊢
    refine ⟨_, ?_, ?_, hcheck⟩ <;> rfl

theorem readFrame_dataAfter {b : UInt8} {rest : List UInt8}
    (h : raw.Holds (footerBytes sum64 r.prev r.readCount ++ b :: rest) fin) :
    ∃ s t, readFrame sum64 { r with raw } = .error (.corrupt t) s := by
  obtain ⟨raw', hframe, hraw'⟩ := readFrame_verified sum64 r hexp h
  obtain ⟨raw'', hbyte, -⟩ := Reader.readByte_cons hraw'
  rw [hframe]
  simp only [checkEnd, hbyte]
  exact ⟨_, _, rfl⟩

theorem readFrame_cutFooter {cut : List UInt8}
    (hp : cut <+: footerBytes sum64 r.prev r.readCount)
    (hne : cut ≠ footerBytes sum64 r.prev r.readCount) (h : raw.Holds cut fin) :
    ∃ e s, readFrame sum64 { r with raw } = .error e s ∧ BrokenOff fin e ∧ s.footer = r.footer := by
  have htag := Parses.rawByte r intermediateFooterTag
    ("read frame tag after " ++ toString r.readCount ++ " records")
  have hsplit : footerBytes sum64 r.prev r.readCount = [intermediateFooterTag] ++
      (uvarint (uint64 r.readCount) ++ chainSum sum64 r.prev [footerHead r.readCount]) := rfl
  rw [hsplit] at hp hne
  rcases cut_append hp hne with ⟨hp, hne⟩ | ⟨cut, rfl, hp, hne⟩
  · obtain ⟨e, s, he, hb, hs⟩ := htag.breaks raw fin cut hp hne h
    refine ⟨e, s, ?_, hb, hs⟩
    have hgets : gets RunReader.readCount { r with raw } = .ok r.readCount { r with raw } := rfl
    unfold readFrame
    rw [bind_ok hgets, bind_error he]
  · obtain ⟨raw₁, h1, hraw₁⟩ := htag.reads raw fin cut h
    obtain ⟨e, s, he, hb, hs⟩ :=
      (Parses.verifyFooter sum64 r hexp).breaks raw₁ fin cut hp hne hraw₁
    refine ⟨e, s, ?_, hb, hs⟩
    rw [readFrame_tag sum64 h1, readFooter, bind_error he]

end Footer
/-! ## Records -/

theorem takeLength_uvarint {r : RunReader} {n : ℕ} (h : n < 2 ^ 64) {rest : List UInt8}
    (hb : r.block = uvarint n ++ rest) (i : ℕ) :
    takeLength i r = .ok n { r with block := rest } := by
  simp only [takeLength, hb, decodeUvarint_uvarint h]

theorem takeField_append {r : RunReader} {field rest : List UInt8} (hb : r.block = field ++ rest)
    (i : ℕ) : takeField i field.length r = .ok field { r with block := rest } := by
  have hle : ¬field.length > (field ++ rest).length := by
    rw [List.length_append]
    omega
  simp only [takeField, hb, if_neg hle, List.take_left, List.drop_left]

/-- A record is taken from the bytes it is written as. -/
theorem decodeRecord_recordBytes {r : RunReader} {record : RunRecord}
    (hsize : record.size ≤ maxIntermediateRecordLen) {rest : List UInt8} {k : ℕ}
    (hb : r.block = recordBytes record ++ rest) (hleft : r.blockLeft = k + 1)
    (hlast : k = 0 → rest = []) :
    decodeRecord r = .ok record { r with block := rest, blockLeft := k } := by
  have hmax : maxIntermediateRecordLen < 2 ^ 64 := by decide
  obtain ⟨p, q, v⟩ := record
  simp only [RunRecord.size] at hsize
  simp only [recordBytes, RunRecord.fields, List.flatMap_cons, List.flatMap_nil, List.flatten_cons,
    List.flatten_nil, List.append_nil, List.append_assoc] at hb
  let holding (block : List UInt8) : RunReader := { r with block }
  have h0 : takeLength 0 r = .ok p.length
      (holding (uvarint q.length ++ (uvarint v.length ++ (p ++ (q ++ (v ++ rest)))))) :=
    takeLength_uvarint (by omega) hb 0
  have h1 : takeLength 1 _ = .ok q.length
      (holding (uvarint v.length ++ (p ++ (q ++ (v ++ rest))))) :=
    takeLength_uvarint (r := holding _) (by omega) rfl 1
  have h2 : takeLength 2 _ = .ok v.length (holding (p ++ (q ++ (v ++ rest)))) :=
    takeLength_uvarint (r := holding _) (by omega) rfl 2
  have h3 : takeField 0 p.length _ = .ok p (holding (q ++ (v ++ rest))) :=
    takeField_append (r := holding _) rfl 0
  have h4 : takeField 1 q.length _ = .ok q (holding (v ++ rest)) :=
    takeField_append (r := holding _) rfl 1
  have h5 : takeField 2 v.length _ = .ok v (holding rest) :=
    takeField_append (r := holding _) rfl 2
  unfold decodeRecord
  rw [bind_ok h0, bind_ok h1, bind_ok h2, bind_ok h3, bind_ok h4, bind_ok h5]
  have hguard : ¬(k = 0 ∧ rest.length ≠ 0) := by
    rintro ⟨hk, hrest⟩
    exact hrest (by rw [hlast hk]; rfl)
  have hmodify (s : RunReader) : (modify fun r => { r with blockLeft := r.blockLeft - 1 } :
      RunM PUnit) s = .ok ⟨⟩ { s with blockLeft := s.blockLeft - 1 } := rfl
  have hget (s : RunReader) : (get : RunM RunReader) s = .ok s s := rfl
  rw [bind_ok (hmodify _), bind_ok (hget _)]
  dsimp only
  rw [hleft, Nat.add_sub_cancel, if_neg hguard]
  rfl

section Next
variable {r r₁ s : RunReader} {e : RunError}

theorem nextFrame_block (h : r.blockLeft ≠ 0) : nextFrame sum64 r = .ok ⟨⟩ r := by
  have hgets : gets RunReader.blockLeft r = .ok r.blockLeft r := rfl
  unfold nextFrame
  rw [bind_ok hgets, if_neg h]
  rfl

theorem nextFrame_frame (h : r.blockLeft = 0) (hd : r.done = false) :
    nextFrame sum64 r = readFrame sum64 r := by
  have hgets : gets RunReader.blockLeft r = .ok r.blockLeft r := rfl
  have hdone : gets RunReader.done r = .ok r.done r := rfl
  unfold nextFrame
  rw [bind_ok hgets, if_pos h, bind_ok hdone, hd]
  rfl

theorem nextFrame_done (h : r.blockLeft = 0) (hd : r.done = true) :
    nextFrame sum64 r = .error (.read .eof) r := by
  have hgets : gets RunReader.blockLeft r = .ok r.blockLeft r := rfl
  have hdone : gets RunReader.done r = .ok r.done r := rfl
  unfold nextFrame
  rw [bind_ok hgets, if_pos h, bind_ok hdone, hd]
  rfl

theorem next_of_block (h : r.blockLeft = 0) (hd : r.done = false)
    (hf : readFrame sum64 r = .ok () r₁) (h₁ : r₁.blockLeft ≠ 0) : next sum64 r = next sum64 r₁ := by
  have hr := (nextFrame_frame sum64 h hd).trans hf
  have hr₁ := nextFrame_block sum64 h₁
  unfold next
  rw [bind_ok hr, bind_ok hr₁, bind_ok hr₁, bind_ok hr₁]

theorem next_of_error (h : r.blockLeft = 0) (hd : r.done = false)
    (hf : readFrame sum64 r = .error e s) : next sum64 r = .error e s := by
  unfold next
  rw [bind_error ((nextFrame_frame sum64 h hd).trans hf)]

theorem next_of_end (h : r.blockLeft = 0) (hd : r.done = false)
    (hf : readFrame sum64 r = .ok () s) (hs : s.blockLeft = 0) (hdone : s.done = true) :
    next sum64 r = .error (.read .eof) s := by
  unfold next
  rw [bind_ok ((nextFrame_frame sum64 h hd).trans hf), bind_error (nextFrame_done sum64 hs hdone)]

theorem next_record {record : RunRecord} {records : List RunRecord}
    (hsize : record.size ≤ maxIntermediateRecordLen)
    (hb : r.block = payloadOf (record :: records)) (hleft : r.blockLeft = (record :: records).length) :
    next sum64 r = .ok record
      { r with block := payloadOf records, blockLeft := records.length
               readCount := r.readCount + 1 } := by
  have hne : r.blockLeft ≠ 0 := by rw [hleft]; exact Nat.succ_ne_zero _
  have hlast (hk : records.length = 0) : payloadOf records = [] := by
    rw [List.eq_nil_of_length_eq_zero hk]
    rfl
  have hdec := decodeRecord_recordBytes hsize hb hleft hlast
  have hr := nextFrame_block sum64 hne
  unfold next
  rw [bind_ok hr, bind_ok hr, bind_ok hdec]
  rfl

end Next

end RunM
end Frames
end EntroQ.Eqmr
