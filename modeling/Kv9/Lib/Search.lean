import Mathlib

/-!
# Binary search

The search keeps a window of the list, halves it, and looks at the one element left.  In a
list that is in order for what is sought, a match never leaves the window.
-/

namespace BinarySearch

variable {α : Type*} (side : α → Ordering) (xs : List α)

/-- Halve the window of `size` elements from `base` on, until one is left. -/
def window (base size : ℕ) : ℕ :=
  if size ≤ 1 then base
  else if xs[base + size / 2]?.map side = some .gt then window base (size - size / 2)
  else window (base + size / 2) (size - size / 2)
termination_by size
decreasing_by all_goals omega

/-- An element that compares as equal. -/
def search : Option α :=
  (xs[window side xs 0 xs.length]?).filter fun x => side x == .eq

variable {side xs}

/-- What comes before a match compares as less, and what comes after it as greater. -/
def Divided (side : α → Ordering) (xs : List α) : Prop :=
  xs.Pairwise fun x y => (side y = .eq → side x = .lt) ∧ (side x = .eq → side y = .gt)

/-- A match stays within the window. -/
theorem window_eq (h : Divided side xs) {base size i : ℕ} (hi : i < xs.length)
    (hmatch : side xs[i] = .eq) (hbase : base ≤ i) (hsize : i < base + size)
    (hbound : base + size ≤ xs.length) :
  window side xs base size = i
  := by
  rw [Divided, List.pairwise_iff_getElem] at h
  fun_induction window side xs base size with
  | case1 base size hone => omega
  | case2 base size hone hgt ih =>
    have hmid : base + size / 2 < xs.length := by omega
    rw [List.getElem?_eq_getElem hmid, Option.map_some, Option.some_inj] at hgt
    have hbefore : i < base + size / 2 := by
      by_contra hafter
      rcases Nat.eq_or_lt_of_le (not_lt.mp hafter) with heq | hlt
      · simp only [heq, hmatch, reduceCtorEq] at hgt
      · rw [(h _ i hmid hi hlt).1 hmatch] at hgt
        nomatch hgt
    apply ih hbase <;> omega
  | case3 base size hone hgt ih =>
    have hmid : base + size / 2 < xs.length := by omega
    rw [List.getElem?_eq_getElem hmid, Option.map_some, Option.some_inj] at hgt
    have hafter : base + size / 2 ≤ i := by
      by_contra hbefore
      apply hgt ((h i _ hi hmid (not_le.mp hbefore)).2 hmatch)
    apply ih hafter <;> omega

theorem search_eq_some (h : Divided side xs) {x : α} :
  search side xs = some x ↔ x ∈ xs ∧ side x = .eq
  := by
  rw [search, Option.filter_eq_some_iff, beq_iff_eq]
  constructor
  · rintro ⟨hx, hmatch⟩
    use List.mem_of_getElem? hx, hmatch
  · rintro ⟨hx, hmatch⟩
    obtain ⟨i, hi, rfl⟩ := List.getElem_of_mem hx
    rw [window_eq h hi hmatch (Nat.zero_le i) (by omega) (by omega)]
    exact ⟨List.getElem?_eq_getElem hi, hmatch⟩

/-! ## Ascending keys -/

variable {κ β : Type*} [LinearOrder κ]

/-- Look up the value of a key. -/
def lookup (key : κ) (rows : List (κ × β)) : Option β :=
  (search (fun row => cmp row.1 key) rows).map (·.2)

theorem lookup_eq_some {rows : List (κ × β)} (h : rows.Pairwise fun a b => a.1 < b.1) {key : κ}
    {value : β} :
  lookup key rows = some value ↔ (key, value) ∈ rows
  := by
  have hdivided : Divided (fun row : κ × β => cmp row.1 key) rows := by
    apply h.imp
    intro row row' hlt
    simp only [cmp_eq_eq_iff, cmp_eq_lt_iff, cmp_eq_gt_iff]
    exact ⟨fun heq => heq ▸ hlt, fun heq => heq ▸ hlt⟩
  rw [lookup, Option.map_eq_some_iff]
  simp only [search_eq_some hdivided, cmp_eq_eq_iff]
  constructor
  · rintro ⟨row, ⟨hmem, rfl⟩, rfl⟩
    exact hmem
  · intro hmem
    exact ⟨(key, value), ⟨hmem, rfl⟩, rfl⟩

end BinarySearch
