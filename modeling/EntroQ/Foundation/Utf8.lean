import EntroQ.Foundation.EscapedText

/-! # Text as UTF-8 octets

A text is a list of octets, read as characters from the left. An octet that begins no encoded
character is read as the replacement character, so that writing a text again keeps it exactly if
it is valid. The octets of ASCII are characters by themselves wherever they stand: `induction_on`
reads a text as ASCII octets and runs of others. -/

namespace EntroQ.Foundation.Utf8

def encode (cs : List Char) : List UInt8 := cs.flatMap String.utf8EncodeChar

/-- The character whose encoding the octets begin with. -/
def decode? (s : List UInt8) : Option Char := s.toByteArray.utf8DecodeChar? 0

def replacement : Char := '�'

/-- The characters after the first `k` octets. -/
def runesFrom : ℕ → List UInt8 → List Char
  | _, [] => []
  | k + 1, _ :: s => runesFrom k s
  | 0, b :: s =>
    match decode? (b :: s) with
    | some c => c :: runesFrom (c.utf8Size - 1) s
    | none => replacement :: runesFrom 0 s

def runes (s : List UInt8) : List Char := runesFrom 0 s

/-- The text as it is written after it was read. -/
def sanitize (s : List UInt8) : List UInt8 := encode (runes s)

def Valid (s : List UInt8) : Prop := sanitize s = s

instance (s : List UInt8) : Decidable (Valid s) := inferInstanceAs (Decidable (sanitize s = s))

/-- The octet of an ASCII character. -/
def octet (c : Char) : UInt8 := UInt8.ofNat c.toNat

/-! ## Reading one character -/

theorem decode?_eq_some_iff {s : List UInt8} {c : Char} :
    decode? s = some c ↔ String.utf8EncodeChar c <+: s := by
  constructor
  · intro h
    have henc := String.toByteArray_utf8EncodeChar_of_utf8DecodeChar?_eq_some h
    have hdata := congrArg (fun b => b.data.toList) henc
    rw [List.prefix_iff_eq_take, String.length_utf8EncodeChar]
    simpa using hdata
  · rintro ⟨t, rfl⟩
    rw [decode?, List.toByteArray_append]
    exact ByteArray.utf8DecodeChar?_utf8EncodeChar_append

theorem utf8EncodeChar_ascii {c : Char} (h : c.toNat < 128) :
    String.utf8EncodeChar c = [octet c] := by
  have h' : c.val.toNat ≤ 127 := Nat.le_of_lt_succ h
  rw [String.utf8EncodeChar.eq_1, if_pos h']
  rfl

theorem high_of_mem_utf8EncodeChar {c : Char} (h : ¬c.toNat < 128) {b : UInt8}
    (hb : b ∈ String.utf8EncodeChar c) : 128 ≤ b.toNat := by
  have h' : ¬c.val.toNat ≤ 127 := fun hle => h (Nat.lt_succ_of_le hle)
  rw [String.utf8EncodeChar.eq_1, if_neg h'] at hb
  split_ifs at hb
  all_goals
    simp only [List.mem_cons, List.not_mem_nil, or_false] at hb
    rcases hb with rfl | rfl | rfl | rfl <;>
    · rw [UInt8.toNat_ofNat']
      omega

theorem toNat_octet {c : Char} (h : c.toNat < 128) : (octet c).toNat = c.toNat := by
  rw [octet, UInt8.toNat_ofNat']
  omega

theorem exists_octet {b : UInt8} (h : b.toNat < 128) : ∃ c : Char, c.toNat < 128 ∧ octet c = b := by
  have hv : b.toNat.isValidChar := .inl (by omega)
  have hof : (Char.ofNat b.toNat).toNat = b.toNat := by
    rw [Char.ofNat, dif_pos hv]
    rfl
  exact ⟨Char.ofNat b.toNat, by rwa [hof], by rw [octet, hof, UInt8.ofNat_toNat]⟩

theorem octet_inj {c d : Char} (hc : c.toNat < 128) (hd : d.toNat < 128)
    (h : octet c = octet d) : c = d := by
  rw [← Char.toNat_inj, ← toNat_octet hc, ← toNat_octet hd, h]

/-! ## Reading a text -/

theorem runesFrom_eq_drop (k : ℕ) (s : List UInt8) : runesFrom k s = runes (s.drop k) := by
  induction s generalizing k with
  | nil => simp [runes, runesFrom]
  | cons b s ih =>
    cases k with
    | zero => rfl
    | succ k => rw [runesFrom, List.drop_succ_cons, ih]

@[simp] theorem runes_nil : runes [] = [] := rfl

@[simp]
theorem runes_utf8EncodeChar_append (c : Char) (s : List UInt8) :
    runes (String.utf8EncodeChar c ++ s) = c :: runes s := by
  have hlen := String.length_utf8EncodeChar c
  cases henc : String.utf8EncodeChar c with
  | nil => exact absurd henc String.utf8EncodeChar_ne_nil
  | cons b rest =>
    have hdec : decode? (b :: (rest ++ s)) = some c := by
      rw [decode?_eq_some_iff, henc]
      exact ⟨s, rfl⟩
    have hrest : c.utf8Size - 1 = rest.length := by
      rw [← hlen, henc, List.length_cons, Nat.add_sub_cancel]
    rw [List.cons_append, runes, runesFrom, hdec]
    dsimp only
    rw [runesFrom_eq_drop, hrest, List.drop_left]

theorem runes_of_decode?_eq_none {b : UInt8} {s : List UInt8} (h : decode? (b :: s) = none) :
    runes (b :: s) = replacement :: runes s := by
  rw [runes, runesFrom, h]
  rfl

theorem runes_encode_append (cs : List Char) (s : List UInt8) :
    runes (encode cs ++ s) = cs ++ runes s := by
  induction cs with
  | nil => rfl
  | cons c cs ih =>
    rw [encode, List.flatMap_cons, List.append_assoc, runes_utf8EncodeChar_append]
    exact congrArg (c :: ·) ih

@[simp]
theorem runes_encode (cs : List Char) : runes (encode cs) = cs := by
  have h := runes_encode_append cs []
  rwa [List.append_nil, runes_nil, List.append_nil] at h

theorem valid_encode (cs : List Char) : Valid (encode cs) := by
  rw [Valid, sanitize, runes_encode]

theorem runes_sanitize (s : List UInt8) : runes (sanitize s) = runes s := runes_encode _

theorem valid_sanitize (s : List UInt8) : Valid (sanitize s) := valid_encode _

theorem encode_runes {s : List UInt8} (h : Valid s) : encode (runes s) = s := h

theorem encode_append (cs ds : List Char) : encode (cs ++ ds) = encode cs ++ encode ds :=
  List.flatMap_append

theorem encode_ascii_cons {c : Char} (h : c.toNat < 128) (cs : List Char) :
    encode (c :: cs) = octet c :: encode cs := by
  rw [encode, List.flatMap_cons, utf8EncodeChar_ascii h]
  rfl

theorem Valid.append {s t : List UInt8} (hs : Valid s) (ht : Valid t) : Valid (s ++ t) := by
  rw [← encode_runes hs, ← encode_runes ht, ← encode_append]
  exact valid_encode _

theorem valid_octet {c : Char} (h : c.toNat < 128) : Valid [octet c] := by
  have hv := valid_encode [c]
  rwa [encode_ascii_cons h] at hv

theorem valid_join {sep : Char} (hsep : sep.toNat < 128) {ps : List (List UInt8)}
    (h : ∀ p ∈ ps, Valid p) : Valid ([octet sep].intercalate ps) := by
  induction ps with
  | nil => exact valid_encode []
  | cons p ps ih =>
    have hp := h p (by simp)
    have hps := ih fun q hq => h q (List.mem_cons_of_mem _ hq)
    cases ps with
    | nil => simpa using hp
    | cons q ps =>
      rw [List.intercalate_cons_cons]
      exact (hp.append (valid_octet hsep)).append hps

theorem runes_ascii_cons {c : Char} (h : c.toNat < 128) (s : List UInt8) :
    runes (octet c :: s) = c :: runes s := by
  have hr := runes_utf8EncodeChar_append c s
  rwa [utf8EncodeChar_ascii h] at hr

theorem runes_append_ascii {c : Char} (h : c.toNat < 128) (s t : List UInt8) :
    runes (s ++ octet c :: t) = runes s ++ c :: runes t := by
  induction hn : s.length using Nat.strongRecOn generalizing s with
  | _ n ih =>
    cases s with
    | nil => exact runes_ascii_cons h t
    | cons b s =>
      cases hdec : decode? (b :: s ++ octet c :: t) with
      | none =>
        have hnone : decode? (b :: s) = none := by
          cases hd : decode? (b :: s) with
          | none => rfl
          | some d =>
            rw [decode?_eq_some_iff] at hd
            rw [decode?_eq_some_iff.mpr (hd.trans (List.prefix_append _ _))] at hdec
            exact absurd hdec (by simp)
        rw [List.cons_append] at hdec ⊢
        rw [runes_of_decode?_eq_none hdec, runes_of_decode?_eq_none hnone,
          ih s.length (by rw [← hn]; exact Nat.lt_succ_self _) s rfl, List.cons_append]
      | some d =>
        rw [decode?_eq_some_iff] at hdec
        have hshort : String.utf8EncodeChar d <+: b :: s := by
          by_contra hlong
          have hlonger : b :: s <+: String.utf8EncodeChar d :=
            (List.prefix_or_prefix_of_prefix hdec (List.prefix_append _ _)).resolve_left hlong
          obtain ⟨u, hu⟩ := hlonger
          rw [← hu, List.prefix_append_right_inj] at hdec
          cases u with
          | nil => exact hlong ⟨[], by rw [← hu, List.append_nil, List.append_nil]⟩
          | cons x u =>
            obtain ⟨rfl, -⟩ := List.cons_prefix_cons.mp hdec
            by_cases hd : d.toNat < 128
            · rw [utf8EncodeChar_ascii hd] at hu
              simpa using congrArg List.length hu
            · have := high_of_mem_utf8EncodeChar hd (hu ▸ by simp : octet c ∈ _)
              rw [toNat_octet h] at this
              omega
        obtain ⟨s', hs'⟩ := hshort
        have hlen : s'.length < n := by
          rw [← hn, ← hs', List.length_append, String.length_utf8EncodeChar]
          have := d.utf8Size_pos
          omega
        rw [← hs', List.append_assoc, runes_utf8EncodeChar_append, runes_utf8EncodeChar_append,
          ih s'.length hlen s' rfl, List.cons_append]

theorem induction_on {motive : List UInt8 → Prop} (nil : motive [])
    (ascii : ∀ c s, c.toNat < 128 → motive s → motive (octet c :: s))
    (other : ∀ u c s, u ≠ [] → (∀ b ∈ u, 128 ≤ b.toNat) → ¬c.toNat < 128 →
      runes (u ++ s) = c :: runes s → motive s → motive (u ++ s)) (s : List UInt8) : motive s := by
  induction hn : s.length using Nat.strongRecOn generalizing s with
  | _ n ih =>
    cases s with
    | nil => exact nil
    | cons b s =>
      cases hdec : decode? (b :: s) with
      | none =>
        have hb : 128 ≤ b.toNat := by
          by_contra hlow
          obtain ⟨c, hc, rfl⟩ := exists_octet (Nat.lt_of_not_le hlow)
          rw [decode?_eq_some_iff.mpr ⟨s, by rw [utf8EncodeChar_ascii hc]; rfl⟩] at hdec
          exact absurd hdec (by simp)
        have hs := ih s.length (by rw [← hn]; exact Nat.lt_succ_self _) s rfl
        exact other [b] replacement s (by simp) (by simpa using hb) (by decide)
          (runes_of_decode?_eq_none hdec) hs
      | some c =>
        rw [decode?_eq_some_iff] at hdec
        obtain ⟨s', hs'⟩ := hdec
        have hlen : s'.length < n := by
          rw [← hn, ← hs', List.length_append, String.length_utf8EncodeChar]
          have := c.utf8Size_pos
          omega
        have hm := ih s'.length hlen s' rfl
        rw [← hs']
        by_cases hc : c.toNat < 128
        · rw [utf8EncodeChar_ascii hc]
          exact ascii c s' hc hm
        · exact other _ c s' String.utf8EncodeChar_ne_nil
            (fun b hb => high_of_mem_utf8EncodeChar hc hb) hc (runes_utf8EncodeChar_append c s') hm

/-! ## ASCII separators and escapes

Cutting and escaping a text are the same on its octets and on its characters. -/

theorem octet_eq_iff {c d : Char} (hc : c.toNat < 128) (hd : d.toNat < 128) :
    octet c = octet d ↔ c = d :=
  ⟨octet_inj hc hd, congrArg octet⟩

theorem ne_octet_of_high {b : UInt8} (hb : 128 ≤ b.toNat) {c : Char} (hc : c.toNat < 128) :
    b ≠ octet c := by
  rintro rfl
  rw [toNat_octet hc] at hb
  omega

theorem count_runes {c : Char} (hc : c.toNat < 128) (s : List UInt8) :
    (runes s).count c = s.count (octet c) := by
  induction s using induction_on with
  | nil => rfl
  | ascii d s hd ih =>
    rw [runes_ascii_cons hd, List.count_cons, List.count_cons, ih]
    simp only [beq_iff_eq, octet_eq_iff hd hc]
  | other u d s hne hu hd hr ih =>
    have hdc : d ≠ c := fun h => hd (h ▸ hc)
    have huc : octet c ∉ u := fun h => ne_octet_of_high (hu _ h) hc rfl
    rw [hr, List.count_cons_of_ne hdc, ih, List.count_append, List.count_eq_zero_of_not_mem huc,
      Nat.zero_add]

theorem count_encode {c : Char} (hc : c.toNat < 128) (cs : List Char) :
    (encode cs).count (octet c) = cs.count c := by
  rw [← count_runes hc, runes_encode]

theorem runes_join {sep : Char} (hsep : sep.toNat < 128) (ps : List (List UInt8)) :
    runes ([octet sep].intercalate ps) = [sep].intercalate (ps.map runes) := by
  induction ps with
  | nil => rfl
  | cons p ps ih =>
    cases ps with
    | nil => simp
    | cons q ps =>
      rw [List.intercalate_cons_cons, List.append_assoc, List.singleton_append,
        runes_append_ascii hsep, ih]
      simp [List.intercalate_cons_cons]

section Escaped
open Escaped

theorem unbroken_of_high (esc : Char) {sep : Char} (hsep : sep.toNat < 128) {u : List UInt8}
    (hu : ∀ b ∈ u, 128 ≤ b.toNat) (e : Bool) :
    Unbroken (octet esc) (octet sep) e u := by
  induction u generalizing e with
  | nil => trivial
  | cons b u ih =>
    exact ⟨fun h => ne_octet_of_high (hu b (by simp)) hsep h.1,
      ih (fun x hx => hu x (List.mem_cons_of_mem _ hx)) _⟩

variable {esc sep : Char} (hesc : esc.toNat < 128) (hsep : sep.toNat < 128)
include hesc

/-- Octets outside ASCII quote nothing. -/
theorem quotedAfter_of_high {u : List UInt8} (hne : u ≠ []) (hu : ∀ b ∈ u, 128 ≤ b.toNat)
    (e : Bool) : quotedAfter (octet esc) e u = false := by
  induction u generalizing e with
  | nil => exact absurd rfl hne
  | cons b u ih =>
    have hb : b ≠ octet esc := ne_octet_of_high (hu b (by simp)) hesc
    rw [quotedAfter_cons, quotes, decide_eq_false hb, Bool.false_and]
    cases u with
    | nil => rfl
    | cons b' u => exact ih (List.cons_ne_nil _ _) (fun x hx => hu x (List.mem_cons_of_mem _ hx)) _

theorem quotedAfter_runes (e : Bool) (s : List UInt8) :
    quotedAfter esc e (runes s) = quotedAfter (octet esc) e s := by
  induction s using induction_on generalizing e with
  | nil => rfl
  | ascii c s hc ih =>
    rw [runes_ascii_cons hc, quotedAfter_cons, quotedAfter_cons, ih, quotes, quotes]
    simp only [octet_eq_iff hc hesc]
  | other u c s hne hu hc hr ih =>
    have hce : c ≠ esc := fun h => hc (h ▸ hesc)
    rw [hr, quotedAfter_append, quotedAfter_of_high hesc hne hu, quotedAfter_cons, ih, quotes,
      decide_eq_false hce, Bool.false_and]

include hsep

theorem unbroken_runes (e : Bool) (s : List UInt8) :
    Unbroken esc sep e (runes s) ↔ Unbroken (octet esc) (octet sep) e s := by
  induction s using induction_on generalizing e with
  | nil => exact Iff.rfl
  | ascii c s hc ih =>
    rw [runes_ascii_cons hc, Unbroken, Unbroken, ih, quotes, quotes]
    simp only [octet_eq_iff hc hesc, octet_eq_iff hc hsep]
  | other u c s hne hu hc hr ih =>
    have hce : c ≠ esc := fun h => hc (h ▸ hesc)
    have hcs : c ≠ sep := fun h => hc (h ▸ hsep)
    rw [hr, unbroken_append, quotedAfter_of_high hesc hne hu, Unbroken, ih, quotes,
      decide_eq_false hce, Bool.false_and]
    exact and_congr_left fun _ => iff_of_true (fun h => hcs h.1) (unbroken_of_high esc hsep hu e)

theorem parts_runes (e : Bool) (ps : List (List UInt8)) :
    Parts esc sep e (ps.map runes) ↔ Parts (octet esc) (octet sep) e ps := by
  induction ps generalizing e with
  | nil => exact Iff.rfl
  | cons p ps ih =>
    cases ps with
    | nil => exact unbroken_runes hesc hsep e p
    | cons q ps =>
      rw [List.map_cons, List.map_cons, Parts, Parts, unbroken_runes hesc hsep,
        quotedAfter_runes hesc, ← List.map_cons, ih]

/-- Texts written again are cut in the same places. -/
theorem parts_sanitize {e : Bool} {ps : List (List UInt8)}
    (h : Parts (octet esc) (octet sep) e ps) :
    Parts (octet esc) (octet sep) e (ps.map sanitize) := by
  have hread : runes ∘ sanitize = runes := funext runes_sanitize
  rw [← parts_runes hesc hsep] at h ⊢
  rwa [List.map_map, hread]

theorem splitFrom_runes (s : List UInt8) :
    splitFrom esc sep false (runes s) =
      (splitFrom (octet esc) (octet sep) false s).map runes := by
  have hjoin : [octet sep].intercalate (splitFrom (octet esc) (octet sep) false s) = s :=
    join_splitFrom s
  have hparts : Parts esc sep false ((splitFrom (octet esc) (octet sep) false s).map runes) :=
    (parts_runes hesc hsep _ _).mpr (parts_splitFrom s)
  have h := hparts.splitFrom_join
  rwa [← runes_join hsep, hjoin] at h

end Escaped

theorem escape_encode {esc : Char} (hesc : esc.toNat < 128) {special : UInt8 → Bool}
    {special' : Char → Bool} (hlow : ∀ c, c.toNat < 128 → special (octet c) = special' c)
    (hhigh : ∀ b, 128 ≤ b.toNat → special b = false)
    (hhigh' : ∀ c, ¬c.toNat < 128 → special' c = false) (cs : List Char) :
    Escaped.escape (octet esc) special (encode cs) = encode (Escaped.escape esc special' cs) := by
  induction cs with
  | nil => rfl
  | cons c cs ih =>
    rw [Escaped.escape_cons]
    by_cases hc : c.toNat < 128
    · rw [encode_ascii_cons hc, Escaped.escape_cons, ih, hlow c hc, encode_append]
      split_ifs
      · rw [encode_ascii_cons hesc, encode_ascii_cons hc]
        rfl
      · rw [encode_ascii_cons hc]
        rfl
    · have hplain : ∀ u : List UInt8, (∀ b ∈ u, 128 ≤ b.toNat) →
          ∀ t, Escaped.escape (octet esc) special (u ++ t) =
            u ++ Escaped.escape (octet esc) special t := by
        intro u hu t
        induction u with
        | nil => rfl
        | cons b u ihu =>
          rw [List.cons_append, Escaped.escape_cons, hhigh b (hu b (by simp)),
            ihu fun x hx => hu x (List.mem_cons_of_mem _ hx)]
          rfl
      rw [encode, List.flatMap_cons, hplain _ fun b hb => high_of_mem_utf8EncodeChar hc hb,
        ← encode, ih, hhigh' c hc, encode_append]
      simp [encode]

end EntroQ.Foundation.Utf8
