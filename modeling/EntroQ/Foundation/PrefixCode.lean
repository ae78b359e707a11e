import Mathlib

/-! # Texts that can be read back

A code that gives each letter a word, no word the beginning of another, keeps texts apart. So
does a separator that the first of two texts does not contain. -/

namespace EntroQ.Foundation
variable {α β : Type*}

/-- No word of the code is empty, and what a text begins with shows which word it begins with. -/
structure PrefixCode (code : α → List β) : Prop where
  nonempty : ∀ a, code a ≠ []
  unique : ∀ a b x y, code a ++ x = code b ++ y → a = b

theorem PrefixCode.flatMap_injective {code : α → List β} (h : PrefixCode code) :
    Function.Injective (List.flatMap code) := by
  intro l
  induction l with
  | nil =>
    intro l' he
    cases l' with
    | nil => rfl
    | cons b l' =>
      rw [List.flatMap_nil, List.flatMap_cons] at he
      exact absurd (List.append_eq_nil_iff.mp he.symm).1 (h.nonempty b)
  | cons a l ih =>
    intro l' he
    cases l' with
    | nil =>
      rw [List.flatMap_nil, List.flatMap_cons] at he
      exact absurd (List.append_eq_nil_iff.mp he).1 (h.nonempty a)
    | cons b l' =>
      rw [List.flatMap_cons, List.flatMap_cons] at he
      obtain rfl := h.unique a b _ _ he
      rw [ih (List.append_cancel_left he)]

/-- The first separator ends the first text. -/
theorem append_separator_inj {sep : β} {x x' y y' : List β} (hx : sep ∉ x) (hx' : sep ∉ x')
    (h : x ++ sep :: y = x' ++ sep :: y') : x = x' ∧ y = y' := by
  induction x generalizing x' with
  | nil =>
    cases x' with
    | nil => exact ⟨rfl, (List.cons.inj h).2⟩
    | cons b x' =>
      obtain ⟨rfl, -⟩ := List.cons.inj h
      exact absurd (List.mem_cons_self ..) hx'
  | cons a x ih =>
    cases x' with
    | nil =>
      obtain ⟨rfl, -⟩ := List.cons.inj h
      exact absurd (List.mem_cons_self ..) hx
    | cons b x' =>
      obtain ⟨rfl, hrest⟩ := List.cons.inj h
      obtain ⟨rfl, rfl⟩ := ih (fun hm => hx (List.mem_cons_of_mem _ hm))
        (fun hm => hx' (List.mem_cons_of_mem _ hm)) hrest
      exact ⟨rfl, rfl⟩

end EntroQ.Foundation
