import Mathlib

/-! # Buffered reading

A source gives its bytes in reads of any positive size and then its error, which may come with the
last of the bytes. A buffered reader asks it for more when its buffer is empty, keeps an error until
the buffer is used up, and reads past its buffer what would not fit into it. However the source is
paced, what is read are its bytes in order, and after them its error. -/

namespace EntroQ.Foundation

/-- An error value: the two that mark an end, one that wraps another, or any other. -/
inductive ReadError
  | eof
  | unexpectedEOF
  | wrapping (what : String) (e : ReadError)
  | other (what : String)
  deriving DecidableEq

namespace ReadError

def isEOF : ReadError → Bool
  | eof => true
  | wrapping _ e => e.isEOF
  | _ => false

def isUnexpectedEOF : ReadError → Bool
  | unexpectedEOF => true
  | wrapping _ e => e.isUnexpectedEOF
  | _ => false

end ReadError

/-- The result of a read: at least one byte, perhaps with an error, or an error alone. -/
inductive Got
  | bytes (b : UInt8) (bs : List UInt8) (err : Option ReadError)
  | nothing (e : ReadError)

structure Source where
  data : List UInt8
  fin : ReadError
  /-- The error comes with the last bytes. -/
  eager : Bool
  /-- How many bytes beyond the first each of the next reads may give. -/
  pace : ℕ → ℕ
  /-- The error has been given. -/
  reported : Bool := false

def Source.read (s : Source) (k : ℕ) : Got × Source :=
  match s.data with
  | [] => (.nothing s.fin, { s with reported := true })
  | b :: bs =>
    let n := min (s.pace 0) (k - 1)
    let last := (bs.drop n).isEmpty && s.eager
    (.bytes b (bs.take n) (if last then some s.fin else none),
      { s with data := bs.drop n, pace := fun i => s.pace (i + 1), reported := s.reported || last })

/-- A reader with the part of its buffer that has not been read. -/
structure Reader where
  src : Source
  buf : List UInt8 := []
  err : Option ReadError := none
  size : ℕ := 4096

namespace Reader

def readByte (r : Reader) : Except ReadError UInt8 × Reader :=
  match r.buf, r.err with
  | b :: bs, _ => (.ok b, { r with buf := bs })
  | [], some e => (.error e, { r with err := none })
  | [], none =>
    match r.src.read r.size with
    | (.bytes b bs e, src) => (.ok b, { r with src, buf := bs, err := e })
    | (.nothing e, src) => (.error e, { r with src })

/-- At most `m` bytes, where `m` is positive. -/
def read (r : Reader) (m : ℕ) : Got × Reader :=
  match r.buf, r.err with
  | b :: bs, _ => (.bytes b (bs.take (m - 1)) none, { r with buf := bs.drop (m - 1) })
  | [], some e => (.nothing e, { r with err := none })
  | [], none =>
    -- a read as large as the buffer goes past it, and its error is given at once
    if r.size ≤ m then
      let (got, src) := r.src.read m
      (got, { r with src })
    else
      match r.src.read r.size with
      | (.bytes b bs e, src) =>
        (.bytes b (bs.take (m - 1)) none, { r with src, buf := bs.drop (m - 1), err := e })
      | (.nothing e, src) => (.nothing e, { r with src })

/-- An end in the middle is unexpected. -/
def fullError (got : List UInt8) (e : ReadError) : ReadError :=
  if got ≠ [] ∧ e = .eof then .unexpectedEOF else e

/-- `n` more bytes, after those that are there already. -/
def readFull (n : ℕ) (r : Reader) (got : List UInt8) : Except ReadError (List UInt8) × Reader :=
  match n with
  | 0 => (.ok got, r)
  | n + 1 =>
    match r.read (n + 1) with
    | (.bytes b bs none, r) => readFull (n - bs.length) r (got ++ b :: bs)
    | (.bytes b bs (some e), r) =>
      if n ≤ bs.length then (.ok (got ++ b :: bs), r)
      else (.error (fullError (got ++ b :: bs) e), r)
    | (.nothing e, r) => (.error (fullError got e), r)
termination_by n

/-- What the reader is still to give. -/
structure Holds (r : Reader) (bytes : List UInt8) (fin : ReadError) : Prop where
  stream : r.buf ++ r.src.data = bytes
  ends : r.src.fin = fin
  pending : ∀ e, r.err = some e → e = fin ∧ r.src.data = [] ∧ r.src.reported = true

/-- The reader has given its source's error. -/
structure Over (r : Reader) (fin : ReadError) : Prop where
  ends : r.src.fin = fin
  reported : r.src.reported = true

end Reader

theorem Source.read_cons {s : Source} {b : UInt8} {bs : List UInt8} (h : s.data = b :: bs) (k : ℕ) :
    ∃ n e s', s.read k = (.bytes b (bs.take n) e, s') ∧ n ≤ k - 1 ∧ s'.data = bs.drop n ∧
      s'.fin = s.fin ∧ ∀ x, e = some x → x = s.fin ∧ s'.data = [] ∧ s'.reported = true := by
  simp only [read, h]
  refine ⟨min (s.pace 0) (k - 1), _, _, rfl, min_le_right _ _, rfl, rfl, ?_⟩
  intro x hx
  split_ifs at hx with hlast
  obtain ⟨hrest, -⟩ := Bool.and_eq_true_iff.mp hlast
  refine ⟨(Option.some.inj hx).symm, List.isEmpty_iff.mp hrest, ?_⟩
  rw [hlast, Bool.or_true]

theorem Source.read_nil {s : Source} (h : s.data = []) (k : ℕ) :
    s.read k = (.nothing s.fin, { s with reported := true }) := by
  simp only [read, h]

namespace Reader
variable {r : Reader} {fin : ReadError}

/-! ## One byte -/

theorem readByte_cons {b : UInt8} {bs : List UInt8} (h : r.Holds (b :: bs) fin) :
    ∃ r', r.readByte = (.ok b, r') ∧ r'.Holds bs fin := by
  obtain ⟨src, buf, err, size⟩ := r
  obtain ⟨hstream, hends, hpending⟩ := h
  dsimp only at hstream hends hpending
  cases buf with
  | cons b' bs' =>
    obtain ⟨rfl, hrest⟩ := List.cons.inj hstream
    exact ⟨_, rfl, hrest, hends, hpending⟩
  | nil =>
    cases err with
    | some e =>
      rw [List.nil_append, (hpending e rfl).2.1] at hstream
      cases hstream
    | none =>
      obtain ⟨n, e, s', hread, -, hdata, hfin, herr⟩ := Source.read_cons hstream size
      refine ⟨⟨s', bs.take n, e, size⟩, by simp only [readByte, hread], ?_, hfin.trans hends, ?_⟩
      · dsimp only
        rw [hdata, List.take_append_drop]
      · intro x hx
        obtain ⟨hx, hnil, hrep⟩ := herr x hx
        exact ⟨hx.trans hends, hnil, hrep⟩

theorem readByte_nil (h : r.Holds [] fin) :
    ∃ r', r.readByte = (.error fin, r') ∧ r'.Over fin := by
  obtain ⟨src, buf, err, size⟩ := r
  obtain ⟨hstream, hends, hpending⟩ := h
  dsimp only at hstream hends hpending
  obtain ⟨rfl, hdata⟩ := List.append_eq_nil_iff.mp hstream
  cases err with
  | some e =>
    obtain ⟨rfl, -, hrep⟩ := hpending e rfl
    exact ⟨_, rfl, hends, hrep⟩
  | none =>
    refine ⟨_, by simp only [readByte, Source.read_nil hdata, hends]; rfl, rfl, rfl⟩

/-! ## Several bytes -/

/-- What is taken from the front part is taken from the front of the whole. -/
theorem take_front (l l' : List UInt8) (m : ℕ) :
    ∃ n ≤ m, (l ++ l').take n = l.take m ∧ (l ++ l').drop n = l.drop m ++ l' := by
  by_cases h : m ≤ l.length
  · exact ⟨m, le_rfl, List.take_append_of_le_length h, List.drop_append_of_le_length h⟩
  · have hl : l.length ≤ m := Nat.le_of_not_le h
    refine ⟨l.length, hl, ?_, ?_⟩
    · rw [List.take_left, List.take_of_length_le hl]
    · rw [List.drop_left, List.drop_of_length_le hl, List.nil_append]

theorem read_cons {b : UInt8} {bs : List UInt8} (h : r.Holds (b :: bs) fin) (m : ℕ) :
    ∃ n e r', r.read (m + 1) = (.bytes b (bs.take n) e, r') ∧ n ≤ m ∧ r'.Holds (bs.drop n) fin ∧
      ∀ x, e = some x → x = fin ∧ bs.drop n = [] ∧ r'.Over fin := by
  obtain ⟨src, buf, err, size⟩ := r
  obtain ⟨hstream, hends, hpending⟩ := h
  dsimp only at hstream hends hpending
  cases buf with
  | cons b' bs' =>
    rw [List.cons_append, List.cons.injEq] at hstream
    obtain ⟨rfl, rfl⟩ := hstream
    obtain ⟨n, hn, htake, hdrop⟩ := take_front bs' src.data m
    exact ⟨n, none, ⟨src, bs'.drop m, err, size⟩, by rw [htake]; rfl, hn, ⟨hdrop.symm, hends, hpending⟩,
      nofun⟩
  | nil =>
    cases err with
    | some e =>
      rw [List.nil_append, (hpending e rfl).2.1] at hstream
      cases hstream
    | none =>
      by_cases hdirect : size ≤ m + 1
      · obtain ⟨n, e, s', hread, hn, hdata, hfin, herr⟩ := Source.read_cons hstream (m + 1)
        refine ⟨n, e, ⟨s', [], none, size⟩, by simp only [read, hdirect, if_true, hread], hn, ?_, ?_⟩
        · exact ⟨hdata, hfin.trans hends, nofun⟩
        · intro x hx
          obtain ⟨hx, hnil, hrep⟩ := herr x hx
          exact ⟨hx.trans hends, hdata ▸ hnil, hfin.trans hends, hrep⟩
      · obtain ⟨k, e, s', hread, -, hdata, hfin, herr⟩ := Source.read_cons hstream size
        obtain ⟨n, hn, htake, hdrop⟩ := take_front (bs.take k) (bs.drop k) m
        rw [List.take_append_drop] at htake hdrop
        refine ⟨n, none, ⟨s', (bs.take k).drop m, e, size⟩,
          by simp only [read, hdirect, if_false, hread, htake, Nat.add_sub_cancel], hn,
          ⟨?_, hfin.trans hends, ?_⟩, nofun⟩
        · dsimp only
          rw [hdata, hdrop]
        · intro x hx
          obtain ⟨hx, hnil, hrep⟩ := herr x hx
          exact ⟨hx.trans hends, hnil, hrep⟩

theorem read_nil (h : r.Holds [] fin) (m : ℕ) :
    ∃ r', r.read m = (.nothing fin, r') ∧ r'.Over fin := by
  obtain ⟨src, buf, err, size⟩ := r
  obtain ⟨hstream, hends, hpending⟩ := h
  dsimp only at hstream hends hpending
  obtain ⟨rfl, hdata⟩ := List.append_eq_nil_iff.mp hstream
  cases err with
  | some e =>
    obtain ⟨rfl, -, hrep⟩ := hpending e rfl
    exact ⟨_, rfl, hends, hrep⟩
  | none =>
    refine ⟨⟨{ src with reported := true }, [], none, size⟩, ?_, hends, rfl⟩
    simp only [read, Source.read_nil hdata, hends]
    split_ifs <;> rfl

/-- All of the bytes asked for, if there are as many. -/
theorem readFull_ok {w rest : List UInt8} (h : r.Holds (w ++ rest) fin) (got : List UInt8) :
    ∃ r', readFull w.length r got = (.ok (got ++ w), r') ∧ r'.Holds rest fin := by
  induction hk : w.length using Nat.strong_induction_on generalizing r w got with
  | _ k ih =>
    subst hk
    cases w with
    | nil => exact ⟨r, by simp [readFull], h⟩
    | cons b bs =>
      rw [List.cons_append] at h
      obtain ⟨n, e, r', hread, hn, hholds, herr⟩ := read_cons h bs.length
      rw [List.take_append_of_le_length hn] at hread
      rw [List.drop_append_of_le_length hn] at hholds herr
      have hlen : (bs.take n).length = n := List.length_take_of_le hn
      rw [List.length_cons, readFull, hread]
      cases e with
      | none =>
        obtain ⟨r'', hfull, hrest⟩ := ih (bs.drop n).length
          (by rw [List.length_drop, List.length_cons]; omega) hholds
          (got ++ b :: bs.take n) rfl
        refine ⟨r'', ?_, hrest⟩
        rw [List.append_assoc, List.cons_append, List.take_append_drop, List.length_drop] at hfull
        dsimp only
        rw [hlen, hfull]
      | some x =>
        obtain ⟨-, hnil, -⟩ := herr x rfl
        obtain ⟨hdrop, rfl⟩ := List.append_eq_nil_iff.mp hnil
        have hbs : bs.length ≤ n := List.drop_eq_nil_iff.mp hdrop
        rw [hnil] at hholds
        refine ⟨r', ?_, hholds⟩
        dsimp only
        rw [List.take_of_length_le hbs, if_pos le_rfl]

/-- Short of them the error is the source's own, or an end that was not expected. -/
theorem readFull_short {w : List UInt8} (h : r.Holds w fin) {n : ℕ} (hn : w.length < n)
    (got : List UInt8) :
    ∃ r', readFull n r got = (.error (fullError (got ++ w) fin), r') ∧ r'.Over fin := by
  induction hk : w.length using Nat.strong_induction_on generalizing r w n got with
  | _ k ih =>
    subst hk
    obtain ⟨m, rfl⟩ : ∃ m, n = m + 1 := Nat.exists_eq_add_one_of_ne_zero (by omega)
    cases w with
    | nil =>
      obtain ⟨r', hread, hover⟩ := read_nil h (m + 1)
      refine ⟨r', ?_, hover⟩
      rw [readFull, hread, List.append_nil]
    | cons b bs =>
      rw [List.length_cons] at hn
      obtain ⟨j, e, r', hread, hj, hholds, herr⟩ := read_cons h m
      have hlen : (bs.take j).length ≤ bs.length := List.length_take_le' _ _
      rw [readFull, hread]
      cases e with
      | none =>
        have hshort : (bs.drop j).length < m - (bs.take j).length := by
          rw [List.length_drop, List.length_take]
          omega
        obtain ⟨r'', hfull, hover⟩ := ih (bs.drop j).length
          (by rw [List.length_drop, List.length_cons]; omega) hholds hshort
          (got ++ b :: bs.take j) rfl
        refine ⟨r'', ?_, hover⟩
        rw [List.append_assoc, List.cons_append, List.take_append_drop] at hfull
        exact hfull
      | some x =>
        obtain ⟨rfl, hnil, hover⟩ := herr x rfl
        refine ⟨r', ?_, hover⟩
        have hbs : bs.take j = bs := List.take_of_length_le (List.drop_eq_nil_iff.mp hnil)
        dsimp only
        rw [if_neg (by omega), hbs]

end Reader
end EntroQ.Foundation
