import Mathlib

/-!
# Bounded rings

A ring keeps the newest elements of everything that was ever pushed.  When an order holds
between the pushed elements, an element that is no longer there has been evicted, and then the
ring is full and everything in it comes later.
-/

namespace Ring

open List

variable {α : Type*} {cap : ℕ} {l m : List α} {a : α}

/-- The newest `cap` elements. -/
def keep (cap : ℕ) (l : List α) : List α := l.drop (l.length - cap)

/-- Push one element, and evict what is too many. -/
def push (cap : ℕ) (ring : List α) (a : α) : List α := keep cap (ring ++ [a])

@[simp]
theorem keep_nil : keep cap ([] : List α) = [] := drop_nil

theorem keep_of_length_le (h : l.length ≤ cap) : keep cap l = l := by
  rw [keep, Nat.sub_eq_zero_of_le h, drop_zero]

theorem keep_subset : keep cap l ⊆ l := drop_subset _ _

/-- Eviction may wait: what was evicted before would be evicted later. -/
theorem keep_keep_append (l m : List α) :
  keep cap (keep cap l ++ m) = keep cap (l ++ m)
  := by
  simp only [keep, length_append, length_drop]
  rw [← drop_append_of_le_length (Nat.sub_le _ _), drop_drop]
  congr 1
  omega

theorem push_keep (l : List α) (a : α) : push cap (keep cap l) a = keep cap (l ++ [a]) :=
  keep_keep_append l [a]

theorem foldl_push_keep (l m : List α) :
  m.foldl (push cap) (keep cap l) = keep cap (l ++ m)
  := by
  induction m generalizing l with
  | nil => rw [foldl_nil, append_nil]
  | cons a m ih => rw [foldl_cons, push_keep, ih, append_assoc, singleton_append]

/-- The evicted elements, followed by those that are kept. -/
theorem take_append_keep (cap : ℕ) (l : List α) : l.take (l.length - cap) ++ keep cap l = l :=
  take_append_drop _ _

/-- What was pushed is there, or the ring is full of later elements. -/
theorem mem_keep_or_evicted (cap : ℕ) {R : α → α → Prop} (hl : l.Pairwise R) (ha : a ∈ l) :
  a ∈ keep cap l ∨ ((keep cap l).length = cap ∧ ∀ b ∈ keep cap l, R a b)
  := by
  rw [← take_append_keep cap l] at ha hl
  rcases mem_append.mp ha with htake | hkeep
  · right
    constructor
    · -- Something was evicted, so there were more elements than fit.
      have hpos : 0 < l.length - cap := by
        by_contra hzero
        rw [Nat.eq_zero_of_not_pos hzero] at htake
        simp at htake
      rw [keep, length_drop]
      omega
    · intro b hb
      apply (pairwise_append.mp hl).2.2 a htake b hb
  · exact .inl hkeep

/-- What was pushed, and after it no more than fit, is there. -/
theorem mem_keep_of_getElem? {k : ℕ} (h : l[k]? = some a) (hk : l.length ≤ k + cap) :
  a ∈ keep cap l
  := by
  rw [keep]
  apply mem_of_getElem? (i := k - (l.length - cap))
  rw [List.getElem?_drop, Nat.add_sub_cancel' (Nat.sub_le_iff_le_add.mpr hk), h]

-- Rings are compared through what was pushed, never by counting down from their capacity.
attribute [irreducible] keep

end Ring
