import Mathlib

/-!
# Machines and their simulations

A machine reads inputs one at a time; every input takes its state to the next one and
gives an output.  Two machines with the same inputs and outputs give the same outputs on
every sequence of inputs when some relation between their states is preserved by every
step and makes the outputs of the step equal.
-/

universe u v w x

namespace Machine

variable {σ : Type u} {τ : Type v} {ι : Type w} {ο : Type x}

/-- The state after a sequence of inputs. -/
def run (step : σ → ι → σ × ο) : σ → List ι → σ
  | s, [] => s
  | s, i :: is => run step (step s i).1 is

/-- The outputs on a sequence of inputs. -/
def outputs (step : σ → ι → σ × ο) : σ → List ι → List ο
  | _, [] => []
  | s, i :: is => (step s i).2 :: outputs step (step s i).1 is

/-- `R` is preserved by every step, and related states answer alike. -/
structure Simulation (step : σ → ι → σ × ο) (step' : τ → ι → τ × ο) (R : σ → τ → Prop) :
    Prop where
  output : ∀ {s t} i, R s t → (step s i).2 = (step' t i).2
  next : ∀ {s t} i, R s t → R (step s i).1 (step' t i).1

/-- Related states give the same outputs on every sequence of inputs. -/
theorem Simulation.outputs_eq {step : σ → ι → σ × ο} {step' : τ → ι → τ × ο} {R : σ → τ → Prop}
    (h : Simulation step step' R) {s : σ} {t : τ} (hst : R s t) (is : List ι) :
  outputs step s is = outputs step' t is
  := by
  induction is generalizing s t with
  | nil => rfl
  | cons i is ih => rw [outputs, outputs, h.output i hst, ih (h.next i hst)]

end Machine

namespace Option

variable {α : Type u} {β : Type v} {r r' : α → β → Prop} {a : Option α} {b : Option β}

/-- Related optional values are both absent, or both present and related. -/
theorem rel_iff :
  Rel r a b ↔ (a = none ∧ b = none) ∨ ∃ x y, a = some x ∧ b = some y ∧ r x y
  := by
  constructor
  · intro h
    cases h with
    | none => exact .inl ⟨rfl, rfl⟩
    | some h => exact .inr ⟨_, _, rfl, rfl, h⟩
  · rintro (⟨rfl, rfl⟩ | ⟨x, y, rfl, rfl, h⟩)
    · exact .none
    · exact .some h

theorem Rel.imp (h : Rel r a b) (himp : ∀ x y, a = .some x → b = .some y → r x y → r' x y) :
  Rel r' a b
  := by
  rcases rel_iff.mp h with ⟨rfl, rfl⟩ | ⟨x, y, rfl, rfl, hxy⟩
  · exact .none
  · exact .some (himp x y rfl rfl hxy)

end Option
