import Mathlib

/-! # Separators and escapes in a text

A text over any symbols is cut at the separators that no escape symbol quotes. A cut is the same
as the list of texts it was joined from, if each of these has no separator to be cut at and all but
the last leave nothing quoted; every cut is such a list. -/

namespace EntroQ.Foundation.Escaped
variable {α : Type*}

def escape (esc : α) (special : α → Bool) (s : List α) : List α :=
  s.flatMap fun c => if special c then [esc, c] else [c]

theorem escape_cons (esc : α) (special : α → Bool) (c : α) (s : List α) :
    escape esc special (c :: s) = (if special c then [esc, c] else [c]) ++ escape esc special s :=
  List.flatMap_cons

theorem escape_append (esc : α) (special : α → Bool) (s t : List α) :
    escape esc special (s ++ t) = escape esc special s ++ escape esc special t :=
  List.flatMap_append

theorem join_nil_cons (c : α) (ps : List (List α)) :
    [c].intercalate ([] :: ps) = ps.flatMap (c :: ·) := by
  induction ps with
  | nil => rfl
  | cons p ps ih =>
    rw [List.intercalate_cons_cons, List.flatMap_cons, ← ih]
    cases ps with
    | nil => simp
    | cons q ps => simp [List.intercalate_cons_cons]

variable [DecidableEq α]

/-- The symbol after `c` is quoted, where `e` says that `c` itself is. -/
def quotes (esc : α) (e : Bool) (c : α) : Bool := decide (c = esc) && !e

def quotedAfter (esc : α) (e : Bool) (s : List α) : Bool := s.foldl (quotes esc) e

def splitFrom (esc sep : α) : Bool → List α → List (List α)
  | _, [] => [[]]
  | e, c :: s =>
    if c = sep ∧ e = false then [] :: splitFrom esc sep false s
    else (splitFrom esc sep (quotes esc e c) s).modifyHead (c :: ·)

/-- The text has no separator to be cut at. -/
def Unbroken (esc sep : α) : Bool → List α → Prop
  | _, [] => True
  | e, c :: s => ¬(c = sep ∧ e = false) ∧ Unbroken esc sep (quotes esc e c) s

/-- Texts that joined are cut into the same texts again. -/
def Parts (esc sep : α) : Bool → List (List α) → Prop
  | _, [] => False
  | e, [p] => Unbroken esc sep e p
  | e, p :: q :: ps =>
    Unbroken esc sep e p ∧ quotedAfter esc e p = false ∧ Parts esc sep false (q :: ps)

/-- The text without the escapes that quote; a last one that quotes nothing goes as well. -/
def unescapeFrom (esc : α) : Bool → List α → List α
  | _, [] => []
  | true, c :: s => c :: unescapeFrom esc false s
  | false, c :: s => if c = esc then unescapeFrom esc true s else c :: unescapeFrom esc false s

section Split
variable {esc sep : α} {e : Bool}

@[simp] theorem quotedAfter_nil : quotedAfter esc e [] = e := rfl

@[simp]
theorem quotedAfter_cons (c : α) (s : List α) :
    quotedAfter esc e (c :: s) = quotedAfter esc (quotes esc e c) s := rfl

theorem quotedAfter_append (s t : List α) :
    quotedAfter esc e (s ++ t) = quotedAfter esc (quotedAfter esc e s) t := List.foldl_append

theorem unbroken_append (s t : List α) :
    Unbroken esc sep e (s ++ t) ↔
      Unbroken esc sep e s ∧ Unbroken esc sep (quotedAfter esc e s) t := by
  induction s generalizing e with
  | nil => simp [Unbroken]
  | cons c s ih => simp only [List.cons_append, Unbroken, ih, quotedAfter_cons, and_assoc]

theorem splitFrom_ne_nil (s : List α) : splitFrom esc sep e s ≠ [] := by
  induction s generalizing e with
  | nil => simp [splitFrom]
  | cons c s ih =>
    unfold splitFrom
    split_ifs
    · exact List.cons_ne_nil _ _
    · simpa using ih

theorem splitFrom_cons {c : α} (h : ¬(c = sep ∧ e = false)) (s : List α) :
    splitFrom esc sep e (c :: s) =
      (splitFrom esc sep (quotes esc e c) s).modifyHead (c :: ·) := by
  rw [splitFrom, if_neg h]

theorem splitFrom_append {s : List α} (hs : Unbroken esc sep e s) (t : List α) :
    splitFrom esc sep e (s ++ t) =
      (splitFrom esc sep (quotedAfter esc e s) t).modifyHead (s ++ ·) := by
  induction s generalizing e with
  | nil => cases h : splitFrom esc sep e t <;> simp [h]
  | cons c s ih =>
    rw [List.cons_append, splitFrom_cons hs.1, ih hs.2, List.modifyHead_modifyHead,
      quotedAfter_cons]
    rfl

theorem splitFrom_separator (s : List α) :
    splitFrom esc sep false (sep :: s) = [] :: splitFrom esc sep false s := by
  rw [splitFrom, if_pos ⟨rfl, rfl⟩]

theorem Parts.splitFrom_join {ps : List (List α)} (h : Parts esc sep e ps) :
    splitFrom esc sep e ([sep].intercalate ps) = ps := by
  induction ps generalizing e with
  | nil => exact absurd h id
  | cons p ps ih =>
    cases ps with
    | nil =>
      have hp := splitFrom_append (show Unbroken esc sep e p from h) []
      rw [List.append_nil] at hp
      rw [List.intercalate_singleton, hp]
      simp [splitFrom]
    | cons q ps =>
      obtain ⟨hp, hafter, hrest⟩ := h
      rw [List.intercalate_cons_cons, List.append_assoc, splitFrom_append hp, hafter,
        List.singleton_append, splitFrom_separator, ih hrest]
      simp

theorem join_splitFrom (s : List α) : [sep].intercalate (splitFrom esc sep e s) = s := by
  induction s generalizing e with
  | nil => simp [splitFrom]
  | cons c s ih =>
    unfold splitFrom
    split_ifs with h
    · rw [List.intercalate_cons_of_ne_nil (splitFrom_ne_nil s), ih, h.1]
      rfl
    · have hne : splitFrom esc sep (quotes esc e c) s ≠ [] := splitFrom_ne_nil s
      have hjoin := ih (e := quotes esc e c)
      cases hs : splitFrom esc sep (quotes esc e c) s with
      | nil => exact absurd hs hne
      | cons p ps =>
        rw [hs] at hjoin
        cases ps with
        | nil => simpa using hjoin
        | cons q ps =>
          rw [List.intercalate_cons_cons] at hjoin
          rw [List.modifyHead_cons, List.intercalate_cons_cons, List.cons_append, List.cons_append,
            hjoin]

theorem headD_splitFrom_prefix (s : List α) : (splitFrom esc sep e s).headD [] <+: s := by
  have hjoin : [sep].intercalate (splitFrom esc sep e s) = s := join_splitFrom s
  cases hs : splitFrom esc sep e s with
  | nil => exact List.nil_prefix
  | cons p ps =>
    rw [hs] at hjoin
    cases ps with
    | nil => exact ⟨[], by simpa using hjoin⟩
    | cons q ps =>
      rw [List.intercalate_cons_cons, List.append_assoc] at hjoin
      exact ⟨_, hjoin⟩

theorem parts_splitFrom (s : List α) : Parts esc sep e (splitFrom esc sep e s) := by
  induction s generalizing e with
  | nil => trivial
  | cons c s ih =>
    unfold splitFrom
    split_ifs with h
    · have hne : splitFrom esc sep false s ≠ [] := splitFrom_ne_nil s
      have hs := ih (e := false)
      cases hsplit : splitFrom esc sep false s with
      | nil => exact absurd hsplit hne
      | cons p ps => exact ⟨trivial, h.2, hsplit ▸ hs⟩
    · have hs := ih (e := quotes esc e c)
      cases hsplit : splitFrom esc sep (quotes esc e c) s with
      | nil => rw [hsplit] at hs; exact absurd hs id
      | cons p ps =>
        rw [hsplit] at hs
        cases ps with
        | nil => exact ⟨h, hs⟩
        | cons q ps => exact ⟨⟨h, hs.1⟩, hs.2⟩

end Split

section Escape
variable {esc : α} {special : α → Bool}

theorem unescapeFrom_escape_append (hesc : special esc = true) (s t : List α) :
    unescapeFrom esc false (escape esc special s ++ t) = s ++ unescapeFrom esc false t := by
  induction s with
  | nil => rfl
  | cons c s ih =>
    rw [escape_cons]
    split_ifs with hc
    · simp [unescapeFrom, ih]
    · have hne : c ≠ esc := fun h => hc (h ▸ hesc)
      simp [unescapeFrom, hne, ih]

theorem escape_injective (hesc : special esc = true) :
    Function.Injective (escape esc special) := by
  intro s t h
  have hs := unescapeFrom_escape_append hesc s []
  have ht := unescapeFrom_escape_append hesc t []
  rw [List.append_nil] at hs ht
  rw [h, ht] at hs
  simpa [unescapeFrom] using hs.symm

/-- Only escapes are added. -/
theorem count_escape {c : α} (hc : c ≠ esc) (s : List α) :
    (escape esc special s).count c = s.count c := by
  induction s with
  | nil => rfl
  | cons d s ih =>
    rw [escape_cons, List.count_append, ih]
    split_ifs
    · rw [List.count_cons_of_ne (Ne.symm hc), List.count_cons, List.count_cons, List.count_nil]
      omega
    · rw [List.count_cons, List.count_cons, List.count_nil]
      omega

/-- Only escapes go. -/
theorem count_unescapeFrom {c : α} (hc : c ≠ esc) (e : Bool) (s : List α) :
    (unescapeFrom esc e s).count c = s.count c := by
  induction s generalizing e with
  | nil => cases e <;> rfl
  | cons d s ih =>
    cases e with
    | true => rw [unescapeFrom, List.count_cons, ih, List.count_cons]
    | false =>
      rw [unescapeFrom]
      split_ifs with hd
      · rw [ih, hd, List.count_cons_of_ne (Ne.symm hc)]
      · rw [List.count_cons, ih, List.count_cons]

theorem quotedAfter_escape (hesc : special esc = true) (s : List α) :
    quotedAfter esc false (escape esc special s) = false := by
  induction s with
  | nil => rfl
  | cons c s ih =>
    rw [escape_cons, quotedAfter_append]
    split_ifs with hc
    · simpa [quotes] using ih
    · have hne : c ≠ esc := fun h => hc (h ▸ hesc)
      simpa [quotes, hne] using ih

theorem unbroken_escape (hesc : special esc = true) {sep : α} (hsep : special sep = true)
    (hne : sep ≠ esc) (s : List α) : Unbroken esc sep false (escape esc special s) := by
  induction s with
  | nil => trivial
  | cons c s ih =>
    rw [escape_cons, unbroken_append]
    split_ifs with hc
    · refine ⟨⟨fun h => hne h.1.symm, ?_, trivial⟩, ?_⟩
      · simp [quotes]
      · simpa [quotes] using ih
    · have hce : c ≠ esc := fun h => hc (h ▸ hesc)
      have hcs : c ≠ sep := fun h => hc (h ▸ hsep)
      refine ⟨⟨fun h => hcs h.1, trivial⟩, ?_⟩
      simpa [quotes, hce] using ih

end Escape

/-! ## Whole texts

A text that is not cut and leaves nothing quoted can stand anywhere between separators. -/

def Whole (esc sep : α) (s : List α) : Prop :=
  Unbroken esc sep false s ∧ quotedAfter esc false s = false

section Whole
variable {esc sep : α}

theorem whole_nil : Whole esc sep [] := ⟨trivial, rfl⟩

theorem Whole.append {s t : List α} (hs : Whole esc sep s) (ht : Whole esc sep t) :
    Whole esc sep (s ++ t) := by
  rw [Whole, unbroken_append, quotedAfter_append, hs.2]
  exact ⟨⟨hs.1, ht.1⟩, ht.2⟩

theorem whole_singleton {c : α} (hesc : c ≠ esc) (hsep : c ≠ sep) : Whole esc sep [c] := by
  refine ⟨⟨fun h => hsep h.1, trivial⟩, ?_⟩
  simp [quotes, hesc]

theorem whole_of_plain {s : List α} (h : ∀ c ∈ s, c ≠ esc ∧ c ≠ sep) : Whole esc sep s := by
  induction s with
  | nil => exact whole_nil
  | cons c s ih =>
    obtain ⟨hesc, hsep⟩ := h c (by simp)
    exact (whole_singleton hesc hsep).append (ih fun d hd => h d (List.mem_cons_of_mem _ hd))

theorem Whole.splitFrom_append {s : List α} (h : Whole esc sep s) (t : List α) :
    splitFrom esc sep false (s ++ t) = (splitFrom esc sep false t).modifyHead (s ++ ·) := by
  rw [Escaped.splitFrom_append h.1, h.2]

theorem whole_escape {special : α → Bool} (hesc : special esc = true) (hsep : special sep = true)
    (hne : sep ≠ esc) (s : List α) : Whole esc sep (escape esc special s) :=
  ⟨unbroken_escape hesc hsep hne s, quotedAfter_escape hesc s⟩

theorem whole_join {c : α} (hesc : c ≠ esc) (hsep : c ≠ sep) {ps : List (List α)}
    (h : ∀ p ∈ ps, Whole esc sep p) : Whole esc sep ([c].intercalate ps) := by
  induction ps with
  | nil => exact whole_nil
  | cons p ps ih =>
    have hp := h p (by simp)
    have hps := ih fun q hq => h q (List.mem_cons_of_mem _ hq)
    cases ps with
    | nil => simpa using hp
    | cons q ps =>
      rw [List.intercalate_cons_cons]
      exact (hp.append (whole_singleton hesc hsep)).append hps

theorem parts_of_whole {ps : List (List α)} (hne : ps ≠ []) (h : ∀ p ∈ ps, Whole esc sep p) :
    Parts esc sep false ps := by
  induction ps with
  | nil => exact absurd rfl hne
  | cons p ps ih =>
    have hp := h p (by simp)
    cases ps with
    | nil => exact hp.1
    | cons q ps =>
      exact ⟨hp.1, hp.2, ih (List.cons_ne_nil _ _) fun r hr => h r (List.mem_cons_of_mem _ hr)⟩

/-- Whole texts, each behind a separator, are cut off again. -/
theorem splitFrom_flatMap {ps : List (List α)} (h : ∀ p ∈ ps, Whole esc sep p) :
    splitFrom esc sep false (ps.flatMap (sep :: ·)) = [] :: ps := by
  rw [← join_nil_cons]
  apply Parts.splitFrom_join
  apply parts_of_whole (List.cons_ne_nil _ _)
  intro p hp
  rcases List.mem_cons.mp hp with rfl | hp
  · exact whole_nil
  · exact h p hp

theorem splitFrom_join_whole {ps : List (List α)} (hne : ps ≠ []) (h : ∀ p ∈ ps, Whole esc sep p) :
    splitFrom esc sep false ([sep].intercalate ps) = ps :=
  (parts_of_whole hne h).splitFrom_join

/-- Texts may be replaced by whole ones. -/
theorem Parts.map {f : List α → List α} (hf : ∀ p, f p = p ∨ Whole esc sep (f p)) {e : Bool}
    {p : List α} {ps : List (List α)} (h : Parts esc sep e (p :: ps)) :
    Parts esc sep e (p :: ps.map f) := by
  induction ps generalizing e p with
  | nil => exact h
  | cons q ps ih =>
    obtain ⟨hp, hafter, hrest⟩ := h
    refine ⟨hp, hafter, ?_⟩
    have hq : Parts esc sep false (q :: ps.map f) := ih hrest
    rcases hf q with hsame | hwhole
    · rwa [hsame]
    · cases hps : ps.map f with
      | nil => exact hwhole.1
      | cons r rs =>
        rw [hps] at hq
        exact ⟨hwhole.1, hwhole.2, hq.2.2⟩

/-- Texts but the first may be left out. -/
theorem Parts.filter (f : List α → Bool) {e : Bool} {p : List α} {ps : List (List α)}
    (h : Parts esc sep e (p :: ps)) : Parts esc sep e (p :: ps.filter f) := by
  induction ps generalizing e p with
  | nil => exact h
  | cons q ps ih =>
    obtain ⟨hp, hafter, hrest⟩ := h
    have hq := ih hrest
    rw [List.filter_cons]
    split_ifs
    · exact ⟨hp, hafter, hq⟩
    · cases hps : ps.filter f with
      | nil => exact hp
      | cons r rs =>
        rw [hps] at hq
        exact ⟨hp, hafter, hq.2.2⟩

end Whole
end EntroQ.Foundation.Escaped
