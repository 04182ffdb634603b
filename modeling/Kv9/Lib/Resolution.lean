import Mathlib

/-!
# Resolving references to a bounded depth

An item is resolved from what it says itself and from what the items it refers to are resolved
to.  References are followed to a bounded depth, beyond which they contribute nothing.  Where
no chain of references is longer than the bound, more depth changes nothing, so a value that
was found at one depth can be used at another.
-/

/-- Items that refer to one another. -/
structure Resolution (ι σ ρ : Type*) where
  /-- The item of an identifier. -/
  item : ι → Option σ
  /-- The identifiers an item refers to. -/
  refs : σ → List ι
  /-- What an item is resolved to, from what its references are resolved to. -/
  combine : σ → (ι → Option ρ) → ρ
  combine_congr : ∀ s f g, (∀ i ∈ refs s, f i = g i) → combine s f = combine s g

namespace Resolution

variable {ι σ ρ : Type*} (r : Resolution ι σ ρ)

/-- The value of an item whose references are followed to the depth. -/
def value : ℕ → σ → ρ
  | 0, s => r.combine s fun _ => none
  | n + 1, s => r.combine s fun i => (r.item i).map (value n)

/-- No chain of references from the item is longer than the bound. -/
def Within : ℕ → σ → Prop
  | 0, s => ∀ i ∈ r.refs s, r.item i = none
  | n + 1, s => ∀ i ∈ r.refs s, ∀ t, r.item i = some t → Within n t

variable {r}

/-- More depth than the chains are long changes nothing. -/
theorem value_of_within {n m : ℕ} {s : σ} (h : r.Within n s) (hle : n ≤ m) :
  r.value m s = r.value n s
  := by
  induction n generalizing m s with
  | zero =>
    cases m with
    | zero => rfl
    | succ m =>
      apply r.combine_congr
      intro i hi
      rw [h i hi, Option.map_none]
  | succ n ih =>
    obtain ⟨m, rfl⟩ := Nat.exists_eq_add_one_of_ne_zero (Nat.ne_zero_of_lt hle)
    apply r.combine_congr
    intro i hi
    cases hitem : r.item i with
    | none => rfl
    | some t =>
      rw [Option.map_some, Option.map_some]
      rw [ih (h i hi t hitem) (Nat.le_of_succ_le_succ hle)]

/-- Where the chains are no longer than the limit, an item is resolved from the values of its
references at the limit itself. -/
theorem value_eq_combine {n limit : ℕ} {s : σ} (h : r.Within n s) (hle : n ≤ limit) :
  r.value limit s = r.combine s fun i => (r.item i).map (r.value limit)
  := by
  cases n with
  | zero =>
    rw [value_of_within h hle]
    apply r.combine_congr
    intro i hi
    rw [h i hi, Option.map_none]
  | succ n =>
    rw [value_of_within h hle]
    apply r.combine_congr
    intro i hi
    cases hitem : r.item i with
    | none => rfl
    | some t =>
      rw [Option.map_some, Option.map_some]
      rw [value_of_within (h i hi t hitem) (Nat.le_of_succ_le hle)]

/-- Every entry of a cache is the value of its item. -/
def Caches (r : Resolution ι σ ρ) (limit : ℕ) (cache : ι → Option (Option ρ)) : Prop :=
  ∀ i o, cache i = some o → o = (r.item i).map (r.value limit)

end Resolution
