import Mathlib

/-! # Readers that give one item at a time

A reader gives items until it fails, and the end of its input is a failure too. `Plays` says which
items it gives, which failure comes after them, and in what state that leaves it. -/

namespace EntroQ.Foundation
variable {ε ρ α : Type} (next : EStateM ε ρ α)

/-- The items given until the failure, if it comes within so many calls. -/
def drain : ℕ → ρ → Option (List α × ε × ρ)
  | 0, _ => none
  | n + 1, r =>
    match next r with
    | .ok x r => (drain n r).map fun (xs, rest) => (x :: xs, rest)
    | .error e r => some ([], e, r)

/-- The reader gives the items and then the failure. -/
def Plays (r : ρ) (xs : List α) (e : ε) (r' : ρ) : Prop :=
  ∀ n, xs.length < n → drain next n r = some (xs, e, r')

variable {next} {r r₁ r' : ρ} {x : α} {xs : List α} {e : ε}

theorem Plays.stop (h : next r = .error e r') : Plays next r [] e r' := by
  intro n hn
  obtain ⟨m, rfl⟩ := Nat.exists_eq_add_one_of_ne_zero (Nat.ne_of_gt hn)
  rw [drain, h]

theorem Plays.item (h : next r = .ok x r₁) (hp : Plays next r₁ xs e r') :
    Plays next r (x :: xs) e r' := by
  intro n hn
  obtain ⟨m, rfl⟩ := Nat.exists_eq_add_one_of_ne_zero (Nat.ne_of_gt (Nat.zero_lt_of_lt hn))
  rw [drain, h]
  dsimp only
  rw [hp m (Nat.lt_of_succ_lt_succ hn)]
  rfl

/-- What a reader gives depends on its state through the next item only. -/
theorem Plays.congr (h : next r₁ = next r) (hp : Plays next r₁ xs e r') : Plays next r xs e r' := by
  intro n hn
  obtain ⟨m, rfl⟩ := Nat.exists_eq_add_one_of_ne_zero (Nat.ne_of_gt (Nat.zero_lt_of_lt hn))
  have h1 := hp (m + 1) hn
  rwa [drain, h] at h1

theorem Plays.next_nil (h : Plays next r [] e r') : next r = .error e r' := by
  have h1 := h 1 Nat.zero_lt_one
  rw [drain] at h1
  cases hn : next r with
  | ok x r₁ =>
    rw [hn] at h1
    cases h1
  | error e₁ r₁ =>
    rw [hn] at h1
    cases h1
    rfl

theorem Plays.next_cons (h : Plays next r (x :: xs) e r') :
    ∃ r₁, next r = .ok x r₁ ∧ Plays next r₁ xs e r' := by
  cases hn : next r with
  | error e₁ r₁ =>
    have h1 := h (xs.length + 2) (Nat.lt_succ_self _)
    rw [drain, hn] at h1
    cases h1
  | ok y r₁ =>
    have hall : ∀ n, xs.length < n → y = x ∧ drain next n r₁ = some (xs, e, r') := by
      intro n hlt
      have h1 := h (n + 1) (Nat.succ_lt_succ hlt)
      rw [drain, hn] at h1
      dsimp only at h1
      rw [Option.map_eq_some_iff] at h1
      obtain ⟨⟨ys, rest⟩, hd, heq⟩ := h1
      cases heq
      exact ⟨rfl, hd⟩
    obtain ⟨rfl, -⟩ := hall (xs.length + 1) (Nat.lt_succ_self _)
    exact ⟨r₁, rfl, fun n hlt => (hall n hlt).2⟩

/-- A list is a reader of its items. -/
def listNext (eof : ε) : EStateM ε (List α) α
  | [] => .error eof []
  | x :: xs => .ok x xs

theorem plays_list (eof : ε) (xs : List α) : Plays (listNext eof) xs xs eof [] := by
  induction xs with
  | nil => exact Plays.stop rfl
  | cons x xs ih => exact Plays.item rfl ih

theorem Plays.unique {ys : List α} {e' : ε} {r'' : ρ} (h : Plays next r xs e r')
    (h' : Plays next r ys e' r'') : xs = ys ∧ e = e' ∧ r' = r'' := by
  have h1 := h (xs.length + ys.length + 1) (by omega)
  have h2 := h' (xs.length + ys.length + 1) (by omega)
  rw [h1] at h2
  cases h2
  exact ⟨rfl, rfl, rfl⟩

end EntroQ.Foundation
