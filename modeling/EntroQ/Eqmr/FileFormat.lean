import EntroQ.Foundation.Playback
import EntroQ.Shardname.Expand

/-! # Files of records

A file sink writes a line for each record, and a file source of the same format reads them back. The
format refuses what would not come back. Each shard has a file of its own. -/

namespace EntroQ.Eqmr
open Foundation Utf8 Queues Shardname

structure FileRecord where
  key : GoString
  value : GoString
  deriving DecidableEq

/-- How a record is made of a line of a file, given its path and number, and a line of a record. -/
structure FileFormat where
  name : String
  parse : GoString → ℕ → GoString → Except Text FileRecord
  line : GoString → GoString → Except Text GoString

def newline : UInt8 := octet '\n'
def carriageReturn : UInt8 := octet '\r'
def tab : UInt8 := octet '\t'

/-- What is wrong with a text that would not come back. -/
def oneLine (what : String) (key line : GoString) : Option Text :=
  if newline ∈ line ∨ line.getLast? = some carriageReturn then
    some ⟨"%s for key %q does not fit on one line", [.str what, .bytes key]⟩
  else none

def FileFormat.lines : FileFormat where
  name := "lines"
  parse path line text := .ok ⟨path ++ octet ':' :: itoa line, text⟩
  line key value :=
    match oneLine "value" key value with
    | some e => .error e
    | none => .ok value

def FileFormat.tsv : FileFormat where
  name := "tsv"
  parse path line text :=
    match cut text tab with
    | none => .error ⟨"%s:%d has no tab", [.bytes path, .num line]⟩
    | some (key, value) => .ok ⟨key, value⟩
  line key value :=
    if tab ∈ key then .error ⟨"key %q has a tab", [.bytes key]⟩
    else
      match (oneLine "key" key key).or (oneLine "value" key value) with
      | some e => .error e
      | none => .ok (key ++ tab :: value)

def maxSourceLineBytes : ℕ := maxIntermediateRecordLen

/-! ## Writing -/

structure FileSinkWriter where
  out : GoString := []
  records : ℕ := 0
  bytes : ℕ := 0

def FileSinkWriter.write (format : FileFormat) (w : FileSinkWriter) (r : FileRecord) :
    Except Text FileSinkWriter :=
  match format.line r.key r.value with
  | .error e => .error e
  | .ok line =>
    .ok { out := w.out ++ (line ++ [newline])
          records := w.records + 1
          bytes := w.bytes + (line ++ [newline]).length }

def FileSinkWriter.writeAll (format : FileFormat) (records : List FileRecord) :
    Except Text FileSinkWriter :=
  records.foldlM (FileSinkWriter.write format) {}

def FileFormat.Accepts (format : FileFormat) (records : List FileRecord) : Prop :=
  ∀ r ∈ records, ∃ line, format.line r.key r.value = .ok line ∧
    (line ++ [newline]).length ≤ maxSourceLineBytes

/-! ## Reading -/

/-- A file as a buffered reader has it, and the room beyond one byte for each of its next slices. -/
structure Input where
  bytes : GoString
  fin : ReadError := .eof
  room : ℕ → ℕ

/-- How a slice ends: with the delimiter, with the buffer, or with the file. -/
inductive SliceEnd
  | found
  | full
  | ended (e : ReadError)

def Input.readSlice (delim : UInt8) (r : Input) : GoString × SliceEnd × Input :=
  let next := { r with room := fun i => r.room (i + 1) }
  let line := r.bytes.takeWhile (· ≠ delim)
  if r.room 0 < line.length then
    (line.take (r.room 0 + 1), .full, { next with bytes := r.bytes.drop (r.room 0 + 1) })
  else
    match r.bytes.drop line.length with
    | [] => (line, .ended r.fin, { next with bytes := [] })
    | _ :: rest => (line ++ [delim], .found, { next with bytes := rest })

theorem Input.readSlice_full {delim : UInt8} {r r' : Input} {chunk : GoString}
    (h : r.readSlice delim = (chunk, .full, r')) : r'.bytes.length < r.bytes.length := by
  unfold readSlice at h
  dsimp only at h
  split_ifs at h with hroom
  · cases h
    have hle := (List.takeWhile_prefix (l := r.bytes) (· ≠ delim)).length_le
    simp only [List.length_drop]
    omega
  · split at h <;> cases h

inductive NextError
  | eof
  | move (t : Text)
  | read (path : GoString) (e : ReadError)

/-- The text of the line with that number, after the part of it that is there already. -/
def nextText (path : GoString) (line : ℕ) (r : Input) (text : GoString) :
    Except NextError GoString × Input :=
  match _h : r.readSlice newline with
  | (chunk, stop, r') =>
    if maxSourceLineBytes < (text ++ chunk).length then
      (.error (.move ⟨"%s:%d is longer than %d bytes",
        [.bytes path, .num line, .num maxSourceLineBytes]⟩), r')
    else
      match stop with
      | .full => nextText path line r' (text ++ chunk)
      | .ended .eof => if text ++ chunk = [] then (.error .eof, r') else (.ok (text ++ chunk), r')
      | .ended e => (.error (.read path e), r')
      | .found => (.ok (text ++ chunk), r')
termination_by r.bytes.length
decreasing_by
  exact Input.readSlice_full _h

structure FileRecords where
  input : Input
  line : ℕ := 0

def FileRecords.next (path : GoString) (format : FileFormat) :
    EStateM NextError FileRecords FileRecord := fun s =>
  match nextText path (s.line + 1) s.input [] with
  | (.error e, input) => .error e { s with input }
  | (.ok text, input) =>
    let s := { input, line := s.line + 1 }
    let text :=
      if text.getLast? = some newline then
        let text := text.dropLast
        if text.getLast? = some carriageReturn then text.dropLast else text
      else text
    match format.parse path s.line text with
    | .ok record => .ok record s
    | .error e => .error (.move e) s

/-! ## Reading what was written -/

/-- A line that comes back as it is written. -/
structure OneLine (line : GoString) : Prop where
  whole : newline ∉ line
  kept : line.getLast? ≠ some carriageReturn
  fits : (line ++ [newline]).length ≤ maxSourceLineBytes

theorem nextText_line (path : GoString) (n : ℕ) {line : GoString} (hline : newline ∉ line)
    (rest : GoString) (room : ℕ → ℕ) (text : GoString)
    (hfits : (text ++ (line ++ [newline])).length ≤ maxSourceLineBytes) :
    ∃ room', nextText path n ⟨line ++ newline :: rest, .eof, room⟩ text =
      (.ok (text ++ (line ++ [newline])), ⟨rest, .eof, room'⟩) := by
  have htake : ∀ l : GoString, newline ∉ l →
      (l ++ newline :: rest).takeWhile (· ≠ newline) = l := by
    intro l hl
    rw [List.takeWhile_append_of_pos fun b hb => by simpa using ne_of_mem_of_not_mem hb hl]
    simp
  induction hk : line.length using Nat.strong_induction_on generalizing line text room with
  | _ k ih =>
    rw [nextText]
    split
    next chunk stop r' h =>
    by_cases hroom : room 0 < line.length
    · have hslice : Input.readSlice newline ⟨line ++ newline :: rest, .eof, room⟩ =
          (line.take (room 0 + 1), .full,
            ⟨line.drop (room 0 + 1) ++ newline :: rest, .eof, fun i => room (i + 1)⟩) := by
        simp only [Input.readSlice, htake line hline, if_pos hroom]
        rw [List.drop_append_of_le_length hroom]
      rw [hslice] at h
      cases h
      obtain ⟨room', hnext⟩ := ih (line.drop (room 0 + 1)).length (by rw [List.length_drop]; omega)
        (fun hm => hline (List.mem_of_mem_drop hm)) (fun i => room (i + 1))
        (text ++ line.take (room 0 + 1)) (by
          rw [List.append_assoc, ← List.append_assoc (line.take _), List.take_append_drop]
          exact hfits) rfl
      refine ⟨room', ?_⟩
      rw [if_neg (by simp at hfits ⊢; omega)]
      rw [List.append_assoc, ← List.append_assoc (line.take _), List.take_append_drop] at hnext
      exact hnext
    · have hslice : Input.readSlice newline ⟨line ++ newline :: rest, .eof, room⟩ =
          (line ++ [newline], .found, ⟨rest, .eof, fun i => room (i + 1)⟩) := by
        simp only [Input.readSlice, htake line hline, if_neg hroom, List.drop_left]
      rw [hslice] at h
      cases h
      exact ⟨_, if_neg (Nat.not_lt.mpr hfits)⟩

theorem nextText_end (path : GoString) (n : ℕ) (room : ℕ → ℕ) :
    ∃ r, nextText path n ⟨[], .eof, room⟩ [] = (.error .eof, r) := by
  rw [nextText]
  split
  next chunk stop r' h =>
  simp only [Input.readSlice] at h
  cases h
  exact ⟨_, rfl⟩

theorem next_line {format : FileFormat} {path line : GoString} (hline : OneLine line) {n : ℕ}
    {record : FileRecord} (hparse : format.parse path (n + 1) line = .ok record) (rest : GoString)
    (room : ℕ → ℕ) :
    ∃ room', FileRecords.next path format ⟨⟨line ++ newline :: rest, .eof, room⟩, n⟩ =
      .ok record ⟨⟨rest, .eof, room'⟩, n + 1⟩ := by
  obtain ⟨room', hnext⟩ := nextText_line path (n + 1) hline.whole rest room [] hline.fits
  refine ⟨room', ?_⟩
  simp only [FileRecords.next, hnext, List.nil_append, List.getLast?_append, List.getLast?_singleton,
    Option.some_or, if_true, List.dropLast_concat, if_neg hline.kept, hparse]

/-- A record is written as the line, and comes back as a record that depends on its number. -/
structure ReadsBack (format : FileFormat) (path : GoString) (r : FileRecord) (line : GoString)
    (back : ℕ → FileRecord) : Prop where
  written : format.line r.key r.value = .ok line
  oneLine : OneLine line
  parsed : ∀ n, format.parse path n line = .ok (back n)

section ReadBack
variable {format : FileFormat} {path : GoString} {lineOf : FileRecord → GoString}
  {back : FileRecord → ℕ → FileRecord} {records : List FileRecord}
  (h : ∀ r ∈ records, ReadsBack format path r (lineOf r) (back r))
include h

theorem plays_lines (room : ℕ → ℕ) (n : ℕ) :
    ∃ s, Plays (FileRecords.next path format)
      ⟨⟨records.flatMap fun r => lineOf r ++ [newline], .eof, room⟩, n⟩
      ((records.zipIdx (n + 1)).map fun x => back x.1 x.2) .eof s := by
  induction records generalizing room n with
  | nil =>
    obtain ⟨r, hend⟩ := nextText_end path (n + 1) room
    refine ⟨⟨r, n⟩, Plays.stop ?_⟩
    simp only [FileRecords.next, List.flatMap_nil, hend]
  | cons r records ih =>
    have hr := h r List.mem_cons_self
    obtain ⟨room', hnext⟩ := next_line hr.oneLine (hr.parsed (n + 1))
      (records.flatMap fun r => lineOf r ++ [newline]) room
    obtain ⟨s, hplays⟩ := ih (fun r hr => h r (List.mem_cons_of_mem _ hr)) room' (n + 1)
    refine ⟨s, ?_⟩
    rw [List.flatMap_cons, List.append_assoc, List.zipIdx_cons, List.map_cons]
    exact Plays.item hnext hplays

theorem foldlM_write (w : FileSinkWriter) :
    ∃ w', records.foldlM (FileSinkWriter.write format) w = .ok w' ∧
      w'.out = w.out ++ records.flatMap fun r => lineOf r ++ [newline] := by
  induction records generalizing w with
  | nil => exact ⟨w, rfl, (List.append_nil _).symm⟩
  | cons r records ih =>
    obtain ⟨w', hw', hout⟩ := ih (fun r hr => h r (List.mem_cons_of_mem _ hr))
      ⟨w.out ++ (lineOf r ++ [newline]), w.records + 1, w.bytes + (lineOf r ++ [newline]).length⟩
    refine ⟨w', ?_, ?_⟩
    · rw [List.foldlM_cons, FileSinkWriter.write, (h r List.mem_cons_self).written]
      exact hw'
    · rw [hout, List.flatMap_cons, List.append_assoc]

theorem plays_written (room : ℕ → ℕ) :
    ∃ w s, FileSinkWriter.writeAll format records = .ok w ∧
      Plays (FileRecords.next path format) ⟨⟨w.out, .eof, room⟩, 0⟩
        ((records.zipIdx 1).map fun x => back x.1 x.2) .eof s := by
  obtain ⟨w, hw, hout⟩ := foldlM_write h {}
  obtain ⟨s, hs⟩ := plays_lines h room 0
  exact ⟨w, s, hw, by rw [hout]; exact hs⟩

end ReadBack

theorem oneLine_eq_none {what : String} {key line : GoString} (h : oneLine what key line = none) :
    newline ∉ line ∧ line.getLast? ≠ some carriageReturn := by
  unfold oneLine at h
  split_ifs at h with hbad
  exact not_or.mp hbad

theorem tsv_readsBack (path : GoString) {r : FileRecord} {line : GoString}
    (h : FileFormat.tsv.line r.key r.value = .ok line)
    (hfits : (line ++ [newline]).length ≤ maxSourceLineBytes) :
    ReadsBack .tsv path r (r.key ++ tab :: r.value) fun _ => r := by
  have hwritten := h
  unfold FileFormat.tsv at h
  dsimp only at h
  split_ifs at h with htab
  split at h
  · cases h
  next hnone =>
  cases h
  obtain ⟨hkey, hvalue⟩ := Option.or_eq_none_iff.mp hnone
  have hkey := oneLine_eq_none hkey
  have hvalue := oneLine_eq_none hvalue
  refine ⟨hwritten, ⟨?_, ?_, hfits⟩, fun n => by simp [FileFormat.tsv, Queues.cut_append htab]⟩
  · have hne : newline ≠ tab := by decide
    simp [hkey.1, hvalue.1, hne]
  · cases hv : r.value with
    | nil =>
      simp only [List.getLast?_append, List.getLast?_singleton, Option.some_or]
      decide
    | cons b bs =>
      rw [List.getLast?_append, List.getLast?_cons_cons]
      simpa [List.getLast?_cons, hv] using hvalue.2

theorem lines_readsBack (path : GoString) {r : FileRecord} {line : GoString}
    (h : FileFormat.lines.line r.key r.value = .ok line)
    (hfits : (line ++ [newline]).length ≤ maxSourceLineBytes) :
    ReadsBack .lines path r r.value fun n => ⟨path ++ octet ':' :: itoa n, r.value⟩ := by
  have hwritten := h
  unfold FileFormat.lines at h
  dsimp only at h
  split at h
  · cases h
  next hnone =>
  cases h
  have hvalue := oneLine_eq_none hnone
  exact ⟨hwritten, ⟨hvalue.1, hvalue.2, hfits⟩, fun _ => rfl⟩

structure FileSink where
  base : GoString
  format : FileFormat

def FileSink.shard (s : FileSink) (partition partitions : ℕ) : GoString :=
  Shardname.name s.base partition partitions

/-- What a file sink writes a file source of the same format reads back, however its buffer cuts it,
and the spec of the set lists the files of the shards, whose number is an `int`. -/
theorem files_round_trip (path : GoString) (room : ℕ → ℕ) :
    (∀ records, FileFormat.tsv.Accepts records →
      ∃ w s, FileSinkWriter.writeAll .tsv records = .ok w ∧
        Plays (FileRecords.next path .tsv) ⟨⟨w.out, .eof, room⟩, 0⟩ records .eof s) ∧
    (∀ records, FileFormat.lines.Accepts records →
      ∃ w s, FileSinkWriter.writeAll .lines records = .ok w ∧
        Plays (FileRecords.next path .lines) ⟨⟨w.out, .eof, room⟩, 0⟩
          ((records.zipIdx 1).map fun x => ⟨path ++ octet ':' :: itoa x.2, x.1.value⟩) .eof s) ∧
    ∀ (sink : FileSink) (n : ℕ), sink.base ≠ [] → 1 ≤ n → n < 2 ^ 63 →
      expand (sink.base ++ octet '@' :: itoa n) = .ok ((List.range n).map (sink.shard · n)) ∧
        ((List.range n).map (sink.shard · n)).Nodup := by
  refine ⟨fun records h => ?_, fun records h => ?_, fun sink n hbase hn hint =>
    ⟨expand_spec hbase hn hint, List.nodup_range.map (name_injective sink.base n)⟩⟩
  · have hback : ∀ r ∈ records, ReadsBack .tsv path r (r.key ++ tab :: r.value) fun _ => r := by
      intro r hr
      obtain ⟨line, hline, hfits⟩ := h r hr
      exact tsv_readsBack path hline hfits
    simpa only [List.zipIdx_map_fst] using plays_written hback room
  · have hback : ∀ r ∈ records,
        ReadsBack .lines path r r.value fun n => ⟨path ++ octet ':' :: itoa n, r.value⟩ := by
      intro r hr
      obtain ⟨line, hline, hfits⟩ := h r hr
      exact lines_readsBack path hline hfits
    exact plays_written hback room

/-- A record that is read a byte at a time, and two shards. -/
theorem files_round_trip_one :
    (∃ w s, FileSinkWriter.writeAll .tsv [⟨text "k", text "v"⟩] = .ok w ∧
      Plays (FileRecords.next (text "/f") .tsv) ⟨⟨w.out, .eof, fun _ => 0⟩, 0⟩
        [⟨text "k", text "v"⟩] .eof s) ∧
      expand (text "/b@2") = .ok [text "/b-00000-of-00002", text "/b-00001-of-00002"] := by
  obtain ⟨htsv, -, hnames⟩ := files_round_trip (text "/f") fun _ => 0
  refine ⟨htsv _ fun r hr => ?_, ?_⟩
  · rw [List.mem_singleton.mp hr]
    exact ⟨text "k\tv", by decide, by decide⟩
  · exact (hnames ⟨text "/b", .tsv⟩ 2 (by decide) (by decide) (by decide)).1

end EntroQ.Eqmr
