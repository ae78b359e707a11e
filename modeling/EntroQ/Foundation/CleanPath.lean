import Mathlib

/-! # Lexical cleaning of slash paths

A path is cut at its separators; empty and dot pieces go, and a dot-dot piece goes with the piece
before it. A rooted path without such pieces is clean already, and any other one of at least two
pieces loses a separator. -/

namespace EntroQ.Foundation.CleanPath
variable {α : Type*} [DecidableEq α] (sep dot : α)

/-- Pieces that do not stay in a path. -/
def special (p : List α) : Bool := p = [] ∨ p = [dot] ∨ p = [dot, dot]

def cleanPiece (rooted : Bool) (out : List (List α)) (p : List α) : List (List α) :=
  if p = [] ∨ p = [dot] then out
  else if p = [dot, dot] then
    if out ≠ [] ∧ out.getLast? ≠ some [dot, dot] then out.dropLast
    else if rooted then out else out ++ [p]
  else out ++ [p]

def clean (path : List α) : List α :=
  if path = [] then [dot]
  else
    let rooted := decide (path.head? = some sep)
    let out := (path.splitOn sep).foldl (cleanPiece dot rooted) []
    if rooted then sep :: [sep].intercalate out
    else if out = [] then [dot] else [sep].intercalate out

/-- The elements with separators between them from the first that is not empty on, cleaned. -/
def join (elems : List (List α)) : List α :=
  if elems.all (· = []) then []
  else clean sep dot <| elems.foldl
    (fun buf e =>
      if buf ≠ [] ∨ e ≠ [] then (if buf ≠ [] then buf ++ [sep] else buf) ++ e else buf) []

/-- The path with a separator at its front, if it is not empty. -/
def slashed : List α → List α
  | [] => []
  | c :: s => if c = sep then c :: s else sep :: c :: s

/-- The pieces of a path that follows another. -/
def follows : List α → List (List α)
  | [] => []
  | c :: s => if c = sep then s.splitOn sep else (c :: s).splitOn sep

section Pieces
variable {dot : α}

theorem foldl_cleanPiece_of_plain {ps : List (List α)} (h : ∀ p ∈ ps, special dot p = false)
    (rooted : Bool) (out : List (List α)) :
    ps.foldl (cleanPiece dot rooted) out = out ++ ps := by
  induction ps generalizing out with
  | nil => simp
  | cons p ps ih =>
    have hp : ¬(p = [] ∨ p = [dot] ∨ p = [dot, dot]) := of_decide_eq_false (h p (by simp))
    rw [not_or, not_or] at hp
    rw [List.foldl_cons, cleanPiece, if_neg (by simp [hp.1, hp.2.1]), if_neg hp.2.2,
      ih fun q hq => h q (List.mem_cons_of_mem _ hq)]
    simp

/-- What stays of a rooted path is among the pieces that are plain. -/
theorem foldl_cleanPiece_sublist (ps out : List (List α)) :
    (ps.foldl (cleanPiece dot true) out).Sublist (out ++ ps.filter fun p => !special dot p) := by
  induction ps generalizing out with
  | nil => simp
  | cons p ps ih =>
    rw [List.foldl_cons]
    refine (ih _).trans ?_
    have hstep : (cleanPiece dot true out p).Sublist
        (out ++ [p].filter fun p => !special dot p) := by
      unfold cleanPiece special
      split_ifs with h1 h2
      · rcases h1 with rfl | rfl <;> simp
      · subst h2
        simpa using List.dropLast_sublist out
      · subst h2
        simp
      · contradiction
      · rw [not_or] at h1
        simp [h1.1, h1.2, h2]
    have happ := hstep.append_right (ps.filter fun p => !special dot p)
    rwa [List.append_assoc, ← List.filter_append, List.singleton_append] at happ

end Pieces

variable {sep dot : α}

theorem splitOn_separator (s : List α) : (sep :: s).splitOn sep = [] :: s.splitOn sep :=
  List.splitOn_append_cons_self [] s

theorem clean_rooted (s : List α) :
    clean sep dot (sep :: s) =
      sep :: [sep].intercalate ((s.splitOn sep).foldl (cleanPiece dot true) []) := by
  simp [clean, splitOn_separator, cleanPiece]

theorem clean_of_plain {s : List α} (h : ∀ p ∈ s.splitOn sep, special dot p = false) :
    clean sep dot (sep :: s) = sep :: s := by
  rw [clean_rooted, foldl_cleanPiece_of_plain h, List.nil_append, List.intercalate_splitOn]

theorem count_join (ps : List (List α)) :
    ([sep].intercalate ps).count sep = ps.flatten.count sep + (ps.length - 1) := by
  induction ps with
  | nil => simp
  | cons p ps ih =>
    cases ps with
    | nil => simp
    | cons q ps =>
      rw [List.intercalate_cons_cons, List.count_append, List.count_append, ih]
      simp
      omega

/-- A path of two pieces or more loses a separator unless all of them are plain. -/
theorem count_clean_lt {s : List α} (hlen : 1 < (s.splitOn sep).length)
    (h : ∃ p ∈ s.splitOn sep, special dot p = true) :
    (clean sep dot (sep :: s)).count sep < (sep :: s).count sep := by
  have hsub : ((s.splitOn sep).foldl (cleanPiece dot true) []).Sublist
      ((s.splitOn sep).filter fun p => !special dot p) := foldl_cleanPiece_sublist _ []
  have hshort : ((s.splitOn sep).filter fun p => !special dot p).length < (s.splitOn sep).length := by
    obtain ⟨p, hp, hspecial⟩ := h
    rw [List.length_filter_lt_length_iff_exists]
    exact ⟨p, hp, by simp [hspecial]⟩
  have hcount := ((hsub.trans List.filter_sublist).flatten).count_le sep
  have hs : s.count sep = (s.splitOn sep).flatten.count sep + ((s.splitOn sep).length - 1) := by
    rw [← count_join, List.intercalate_splitOn]
  rw [clean_rooted, List.count_cons_self, List.count_cons_self, count_join, hs]
  have := hsub.length_le
  omega

theorem splitOn_slashed (e q : List α) :
    (e ++ slashed sep q).splitOn sep = e.splitOn sep ++ follows sep q := by
  cases q with
  | nil => simp [slashed, follows]
  | cons c q =>
    rw [slashed, follows]
    split_ifs with hc
    · rw [hc, List.splitOn_append_cons_self]
    · rw [List.splitOn_append_cons_self]

/-- Between two elements one separator is as good as two. -/
theorem clean_slashed (e q : List α) :
    clean sep dot (sep :: (e ++ sep :: q)) = clean sep dot (sep :: (e ++ slashed sep q)) := by
  have hempty (out : List (List α)) : cleanPiece dot true out [] = out := by simp [cleanPiece]
  rw [clean_rooted, clean_rooted, splitOn_slashed, List.splitOn_append_cons_self, List.foldl_append,
    List.foldl_append]
  cases q with
  | nil => simp [follows, hempty]
  | cons c q =>
    rw [follows]
    split_ifs with hc
    · rw [hc, splitOn_separator, List.foldl_cons, hempty]
    · rfl

end EntroQ.Foundation.CleanPath
