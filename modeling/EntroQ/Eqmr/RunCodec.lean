import EntroQ.Foundation.BufferedReader
import EntroQ.Foundation.Uvarint

/-! # The codec of intermediate runs

A run is written as blocks of records and a footer with their number. Every block and the footer
end with a checksum that covers the one before, and the reader checks a block before it yields any
of its records. The checksum is any function from bytes to 64 bits. -/

namespace EntroQ.Eqmr
open Foundation

/-- A record, whose fields are byte strings. -/
structure RunRecord where
  primary : List UInt8
  secondary : List UInt8
  value : List UInt8
  deriving DecidableEq

def RunRecord.fields (record : RunRecord) : List (List UInt8) :=
  [record.primary, record.secondary, record.value]

def intermediateRunMagic : List UInt8 := [0x45, 0x51, 0x4d, 0x52, 0x52, 0x55, 0x4e, 2]

def intermediateBlockTag : UInt8 := 1
def intermediateFooterTag : UInt8 := 0

def maxIntermediateRecordLen : ℕ := 64 * 2 ^ 20
def intermediateBlockBytes : ℕ := 64 * 2 ^ 10

def maxIntermediateBlockLen : ℕ :=
  intermediateBlockBytes + maxIntermediateRecordLen + 3 * maxVarintLen64

inductive TextArg
  | num (n : ℤ)
  | str (s : String)
  | bytes (bs : List UInt8)
  deriving DecidableEq

structure Text where
  format : String
  args : List TextArg := []
  deriving DecidableEq

/-- A length as 64 bits hold it. -/
def uint64 (n : ℤ) : ℕ := (n % 2 ^ 64).toNat

def bigEndian (n : UInt64) : List UInt8 :=
  [(n >>> 56).toUInt8, (n >>> 48).toUInt8, (n >>> 40).toUInt8, (n >>> 32).toUInt8,
    (n >>> 24).toUInt8, (n >>> 16).toUInt8, (n >>> 8).toUInt8, n.toUInt8]

section Codec
variable (sum64 : List UInt8 → UInt64)

def chainStart : List UInt8 := bigEndian (sum64 intermediateRunMagic)

def chainSum (prev : List UInt8) (parts : List (List UInt8)) : List UInt8 :=
  bigEndian (sum64 (prev ++ parts.flatten))

/-! ## Writing -/

def appendIntermediateRecord (b : List UInt8) (record : RunRecord) : List UInt8 :=
  b ++ (record.fields.flatMap (fun field => uvarint field.length) ++ record.fields.flatten)

/-- The bytes written, the checksum of the last block, and the block to come. -/
structure Encoding where
  out : List UInt8
  prev : List UInt8
  payload : List UInt8 := []
  count : ℕ := 0

def blockHead (count length : ℕ) : List UInt8 :=
  intermediateBlockTag :: (uvarint (uint64 count) ++ uvarint (uint64 length))

def Encoding.flush (e : Encoding) : Encoding :=
  if e.count = 0 then e
  else
    let head := blockHead e.count e.payload.length
    let prev := chainSum sum64 e.prev [head, e.payload]
    { out := e.out ++ (head ++ (e.payload ++ prev)), prev }

def encodeRecords (i : ℕ) (e : Encoding) : List RunRecord → Except Text Encoding
  | [] => .ok e
  | record :: records =>
    let total := record.primary.length + record.secondary.length + record.value.length
    if total > maxIntermediateRecordLen then
      .error { format := "record %d is %d bytes, limit is %d"
               args := [.num i, .num total, .num maxIntermediateRecordLen] }
    else
      let e := { e with payload := appendIntermediateRecord e.payload record, count := e.count + 1 }
      encodeRecords (i + 1) (if e.payload.length ≥ intermediateBlockBytes then e.flush sum64 else e)
        records

def footerHead (count : ℕ) : List UInt8 := intermediateFooterTag :: uvarint (uint64 count)

def encodeIntermediateRun (records : List RunRecord) : Except Text (List UInt8) := do
  let e ← encodeRecords sum64 0 { out := intermediateRunMagic, prev := chainStart sum64 } records
  let e := e.flush sum64
  let footer := footerHead records.length
  return e.out ++ (footer ++ chainSum sum64 e.prev [footer])

end Codec

/-! ## Reading -/

/-- Why a run is not read: its bytes are wrong, or they could not be read. -/
inductive RunError
  | corrupt (t : Text)
  | read (e : ReadError)
  deriving DecidableEq

def RunError.isEOF : RunError → Bool
  | .corrupt _ => false
  | .read e => e.isEOF

structure RunReader where
  raw : Reader
  prev : List UInt8
  expectedCount : ℤ
  readCount : ℕ := 0
  /-- The rest of the block that was read last, with the number of records in it. -/
  block : List UInt8 := []
  blockLeft : ℕ := 0
  done : Bool := false
  /-- That the footer has been read and verified, which the program does not keep. -/
  footer : Bool := false

/-- The source has ended cleanly. -/
def RunReader.ended (r : RunReader) : Bool := r.raw.src.reported && r.raw.src.fin == .eof

def RunReader.short (r : RunReader) (err : ReadError) (what : String) : RunError :=
  if r.ended && (err.isEOF || err.isUnexpectedEOF) then
    .corrupt { format := "%s: run ends early", args := [.str what] }
  else .read (.wrapping what err)

abbrev RunM := EStateM RunError RunReader

namespace RunM

def corruptf {α : Type} (format : String) (args : List TextArg) : RunM α :=
  throw (.corrupt { format, args })

def gets {α : Type} (f : RunReader → α) : RunM α := fun r => .ok (f r) r

def rawByte (what : String) : RunM UInt8 := fun r =>
  match r.raw.readByte with
  | (.ok b, raw) => .ok b { r with raw }
  | (.error e, raw) => .error (RunReader.short { r with raw } e what) { r with raw }

def rawFull (n : ℕ) (what : String) : RunM (List UInt8) := fun r =>
  match Reader.readFull n r.raw [] with
  | (.ok bs, raw) => .ok bs { r with raw }
  | (.error e, raw) => .error (RunReader.short { r with raw } e what) { r with raw }

/-- The number, and the bytes it was read from after those there already. -/
def readUvarintFrom (what : String) (left i n : ℕ) (buf : List UInt8) : RunM (ℕ × List UInt8) :=
  match left with
  | 0 => corruptf "%s overflows 64 bits" [.str what]
  | left + 1 => do
    let b ← rawByte ("read " ++ what)
    match uvarintStep i n b with
    | .value n => return (n, buf ++ [b])
    | .more n => readUvarintFrom what left (i + 1) n (buf ++ [b])
    | .overflow => corruptf "%s overflows 64 bits" [.str what]

def readUvarint (buf : List UInt8) (what : String) : RunM (ℕ × List UInt8) :=
  readUvarintFrom what maxVarintLen64 0 0 buf

section Frames
variable (sum64 : List UInt8 → UInt64)

def verify (parts : List (List UInt8)) : RunM Unit := do
  let got ← rawFull 8 "read checksum"
  let want ← gets fun r => chainSum sum64 r.prev parts
  let readCount ← gets RunReader.readCount
  if got ≠ want then
    corruptf "checksum is %x, want %x, after %d records" [.bytes got, .bytes want, .num readCount]
  modify fun r => { r with prev := got }

def readBlock : RunM Unit := do
  let (count, head) ← readUvarint [intermediateBlockTag] "block record count"
  let (length, head) ← readUvarint head "block length"
  if count = 0 ∨ length > maxIntermediateBlockLen ∨ count > length / 3 then
    corruptf "block of %d records in %d bytes" [.num count, .num length]
  let payload ← rawFull length "read block"
  verify sum64 [head, payload]
  modify fun r => { r with block := payload, blockLeft := count }

def verifyFooter : RunM Unit := do
  let (count, footer) ← readUvarint [intermediateFooterTag] "footer count"
  verify sum64 [footer]
  let readCount ← gets RunReader.readCount
  let expectedCount ← gets RunReader.expectedCount
  if count ≠ uint64 readCount then
    corruptf "run footer count is %d, read %d" [.num count, .num readCount]
  if 0 ≤ expectedCount ∧ count ≠ uint64 expectedCount then
    corruptf "run footer count is %d, pointer requires %d" [.num count, .num expectedCount]

/-- Nothing may follow the footer. -/
def checkEnd : RunM Unit := fun r =>
  match r.raw.readByte with
  | (.ok _, raw) => .error (.corrupt { format := "run has data after footer" }) { r with raw }
  | (.error e, raw) =>
    if e ≠ .eof then .error (.read (.wrapping "check run end" e)) { r with raw }
    else .ok () { r with raw, done := true }

def readFooter : RunM Unit := do
  verifyFooter sum64
  modify fun r => { r with footer := true }
  checkEnd

def readFrame : RunM Unit := do
  let readCount ← gets RunReader.readCount
  let tag ← rawByte ("read frame tag after " ++ toString readCount ++ " records")
  if tag = intermediateBlockTag then readBlock sum64
  else if tag = intermediateFooterTag then readFooter sum64
  else corruptf "unknown frame tag %d after %d records" [.num tag.toNat, .num readCount]

end Frames

def takeLength (i : ℕ) : RunM ℕ := fun r =>
  match decodeUvarint r.block with
  | some (n, rest) => .ok n { r with block := rest }
  | none =>
    .error (.corrupt { format := "record %d: bad field %d length"
                       args := [.num r.readCount, .num i] }) r

def takeField (i n : ℕ) : RunM (List UInt8) := fun r =>
  if n > r.block.length then
    .error (.corrupt { format := "record %d: field %d overruns its block"
                       args := [.num r.readCount, .num i] }) r
  else .ok (r.block.take n) { r with block := r.block.drop n }

def decodeRecord : RunM RunRecord := do
  let n0 ← takeLength 0
  let n1 ← takeLength 1
  let n2 ← takeLength 2
  let primary ← takeField 0 n0
  let secondary ← takeField 1 n1
  let value ← takeField 2 n2
  modify fun r => { r with blockLeft := r.blockLeft - 1 }
  let r ← get
  if r.blockLeft = 0 ∧ r.block.length ≠ 0 then
    corruptf "block ending at record %d has %d bytes left over"
      [.num r.readCount, .num r.block.length]
  return { primary, secondary, value }

section Next
variable (sum64 : List UInt8 → UInt64)

/-- Go on to the next block, if the last one is used up. -/
def nextFrame : RunM Unit := do
  if (← gets RunReader.blockLeft) = 0 then
    if ← gets RunReader.done then throw (.read .eof)
    readFrame sum64

/-- A frame holds records or is the last one, so that the loop over frames goes round twice at
most. -/
def next : RunM RunRecord := do
  nextFrame sum64
  nextFrame sum64
  let record ← decodeRecord
  modify fun r => { r with readCount := r.readCount + 1 }
  return record

end Next

def readHeader : RunM Unit := do
  let magic ← rawFull 8 "read header"
  if magic ≠ intermediateRunMagic then corruptf "unknown run format %q" [.bytes magic]

end RunM

def newEncodedIntermediateReader (sum64 : List UInt8 → UInt64) (body : Source)
    (expectedCount : ℤ) : Except RunError RunReader :=
  match RunM.readHeader { raw := { src := body }, prev := chainStart sum64, expectedCount } with
  | .ok () r => .ok r
  | .error e _ => .error e

end EntroQ.Eqmr
