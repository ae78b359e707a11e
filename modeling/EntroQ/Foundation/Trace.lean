import Mathlib

/-! # Runs of a step function

A run is a list of steps taken one after the other. `Along` says a condition of each step of a
run, on the state the step is taken in; an invariant that every such step keeps holds after the
run. -/

namespace EntroQ.Foundation
variable {σ ε : Type*} (step : σ → ε → σ)

def after (s : σ) (es : List ε) : σ := es.foldl step s

@[simp] theorem after_nil (s : σ) : after step s [] = s := rfl

@[simp] theorem after_cons (s : σ) (e : ε) (es : List ε) :
    after step s (e :: es) = after step (step s e) es := rfl

theorem after_append (s : σ) (es es' : List ε) :
    after step s (es ++ es') = after step (after step s es) es' :=
  List.foldl_append

/-- Each step of the run meets the condition. -/
def Along (P : σ → ε → Prop) (s : σ) : List ε → Prop
  | [] => True
  | e :: es => P s e ∧ Along P (step s e) es

instance Along.decide (P : σ → ε → Prop) [∀ s e, Decidable (P s e)] (s : σ) :
    (es : List ε) → Decidable (Along step P s es)
  | [] => .isTrue trivial
  | e :: es =>
    have := Along.decide P (step s e) es
    inferInstanceAs (Decidable (P s e ∧ Along step P (step s e) es))

variable {step} {P : σ → ε → Prop} {s : σ}

theorem along_append {es es' : List ε} :
    Along step P s (es ++ es') ↔ Along step P s es ∧ Along step P (after step s es) es' := by
  induction es generalizing s with
  | nil => exact ⟨fun h => ⟨trivial, h⟩, fun h => h.2⟩
  | cons e es ih =>
    change P s e ∧ Along step P (step s e) (es ++ es') ↔ _
    rw [ih, ← and_assoc]
    rfl

theorem along_and {Q : σ → ε → Prop} {es : List ε} :
    Along step (fun s e => P s e ∧ Q s e) s es ↔ Along step P s es ∧ Along step Q s es := by
  induction es generalizing s with
  | nil => exact ⟨fun _ => ⟨trivial, trivial⟩, fun _ => trivial⟩
  | cons e es ih =>
    change (P s e ∧ Q s e) ∧ Along step _ (step s e) es ↔ _
    rw [ih, and_and_and_comm]
    rfl

theorem Along.invariant {I : σ → Prop} (hstep : ∀ s e, I s → P s e → I (step s e)) (h : I s)
    {es : List ε} (hp : Along step P s es) : I (after step s es) := by
  induction es generalizing s with
  | nil => exact h
  | cons e es ih => exact ih (hstep s e h hp.1) hp.2

theorem after_invariant {I : σ → Prop} (hstep : ∀ s e, I s → I (step s e)) (h : I s)
    (es : List ε) : I (after step s es) := by
  induction es generalizing s with
  | nil => exact h
  | cons e es ih => exact ih (hstep s e h)

end EntroQ.Foundation
