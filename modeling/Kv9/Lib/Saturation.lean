import Mathlib

/-!
# Saturating a set under edges

A set is a list, of which only the members matter.  A pass goes once through the edges and
adds the target of each whose source is in the set.  Passes are made until one adds nothing;
the set is then closed, and a pass for each edge and one more are always enough.
-/

namespace Saturation

open List

variable {α : Type*} [DecidableEq α] {edges : List (α × α)} {set : List α}

/-- Add the target of an edge whose source is in the set. -/
def follow (set : List α) (edge : α × α) : List α :=
  if edge.1 ∈ set then set.insert edge.2 else set

/-- One pass through the edges. -/
def pass (edges : List (α × α)) (set : List α) : List α := edges.foldl follow set

/-- Make passes until one adds nothing. -/
def saturate (edges : List (α × α)) : ℕ → List α → List α
  | 0, set => set
  | fuel + 1, set =>
    let next := pass edges set
    if next.length = set.length then next else saturate edges fuel next

/-- The edges whose target is missing. -/
def missing (edges : List (α × α)) (set : List α) : List (α × α) :=
  edges.filter (·.2 ∉ set)

/-- The target of every edge from the set is in the set. -/
def Closed (edges : List (α × α)) (set : List α) : Prop := ∀ e ∈ edges, e.1 ∈ set → e.2 ∈ set

theorem subset_follow (set : List α) (edge : α × α) :
  set ⊆ follow set edge
  := by
  rw [follow]
  split_ifs
  · intro a ha
    apply mem_insert_of_mem ha
  · apply List.Subset.refl

theorem subset_pass (edges : List (α × α)) (set : List α) :
  set ⊆ pass edges set
  := by
  induction edges generalizing set with
  | nil => apply List.Subset.refl
  | cons edge edges ih => apply List.Subset.trans (subset_follow set edge) (ih _)

theorem subset_saturate (edges : List (α × α)) (fuel : ℕ) (set : List α) :
  set ⊆ saturate edges fuel set
  := by
  induction fuel generalizing set with
  | zero => apply List.Subset.refl
  | succ fuel ih =>
    rw [saturate]
    split_ifs
    · apply subset_pass
    · apply List.Subset.trans (subset_pass edges set) (ih _)

/-- A pass either finds the set closed and leaves it as it is, or adds the target of an edge. -/
theorem pass_cases (edges : List (α × α)) (set : List α) :
  pass edges set = set ∧ Closed edges set
    ∨ set.length < (pass edges set).length ∧ ∃ e ∈ edges, e.2 ∉ set ∧ e.2 ∈ pass edges set
  := by
  induction edges generalizing set with
  | nil => exact .inl ⟨rfl, nofun⟩
  | cons edge edges ih =>
    by_cases hadds : edge.1 ∈ set ∧ edge.2 ∉ set
    · have hfollow : follow set edge = edge.2 :: set := by
        rw [follow, if_pos hadds.1, insert_of_not_mem hadds.2]
      have hle : (follow set edge).length ≤ (pass edges (follow set edge)).length := by
        rcases ih (follow set edge) with ⟨heq, -⟩ | ⟨hlt, -⟩
        · rw [heq]
        · exact hlt.le
      right
      constructor
      · apply lt_of_lt_of_le _ hle
        rw [hfollow]
        apply Nat.lt_succ_self
      · use edge, mem_cons_self, hadds.2
        apply subset_pass edges
        rw [hfollow]
        apply mem_cons_self
    · have hclosed : edge.1 ∈ set → edge.2 ∈ set := by
        rwa [not_and, not_not] at hadds
      have hfollow : follow set edge = set := by
        rw [follow]
        split_ifs with hsource
        · apply insert_of_mem (hclosed hsource)
        · rfl
      have hpass : pass (edge :: edges) set = pass edges set := by
        rw [pass, foldl_cons, hfollow]
        rfl
      rw [hpass]
      rcases ih set with ⟨heq, hrest⟩ | ⟨hlt, e, he, hnew⟩
      · left
        use heq
        intro e he
        rcases mem_cons.mp he with rfl | he
        · apply hclosed
        · apply hrest e he
      · exact .inr ⟨hlt, e, mem_cons_of_mem edge he, hnew⟩

/-- Passes enough for the missing edges close the set. -/
theorem closed_saturate_of_missing {fuel : ℕ} (h : (missing edges set).length < fuel) :
  Closed edges (saturate edges fuel set)
  := by
  induction fuel generalizing set with
  | zero => omega
  | succ fuel ih =>
    rw [saturate]
    rcases pass_cases edges set with ⟨heq, hclosed⟩ | ⟨hlt, e, he, hmissing, hadded⟩
    · rw [heq, if_pos rfl]
      exact hclosed
    · rw [if_neg hlt.ne']
      apply ih
      -- an edge that was missing is missing no more
      apply lt_of_lt_of_le _ (Nat.le_of_lt_succ h)
      have hfilter : missing edges (pass edges set)
          = (missing edges set).filter (·.2 ∉ pass edges set) := by
        rw [missing, missing, filter_filter]
        apply filter_congr
        intro e' _
        have := @subset_pass _ _ edges set e'.2
        grind
      rw [hfilter]
      apply length_filter_lt_length_iff_exists.mpr
      use e, mem_filter.mpr ⟨he, decide_eq_true hmissing⟩
      simpa using hadded

/-- A pass for each edge and one more are enough. -/
theorem closed_saturate (edges : List (α × α)) (set : List α) :
  Closed edges (saturate edges (edges.length + 1) set)
  := closed_saturate_of_missing (Nat.lt_succ_of_le (length_filter_le _ _))

end Saturation
