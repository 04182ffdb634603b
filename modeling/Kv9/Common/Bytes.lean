import Mathlib

/-!
# Byte strings

Keys and values are byte strings, ordered lexicographically.  Appending a zero byte to
`k` gives the least byte string above `k`, which is how the code turns a key it has
already handled into the start of what is left.
-/

namespace Kv9

instance instLinearOrderUInt8 : LinearOrder UInt8 where
  le_refl := UInt8.le_refl
  le_trans _ _ _ := UInt8.le_trans
  le_antisymm _ _ := UInt8.le_antisymm
  le_total := UInt8.le_total
  lt_iff_le_not_ge a b := by
    rw [UInt8.lt_iff_toNat_lt, UInt8.le_iff_toNat_le, UInt8.le_iff_toNat_le]
    omega
  toDecidableLE := inferInstance

instance instLinearOrderUInt64 : LinearOrder UInt64 where
  le_refl := UInt64.le_refl
  le_trans _ _ _ := UInt64.le_trans
  le_antisymm _ _ := UInt64.le_antisymm
  le_total := UInt64.le_total
  lt_iff_le_not_ge a b := by
    rw [UInt64.lt_iff_toNat_lt, UInt64.le_iff_toNat_le, UInt64.le_iff_toNat_le]
    omega
  toDecidableLE := inferInstance

/-- A byte string. -/
abbrev Bytes := List UInt8

/-- A key as a client or the catalog names it. -/
abbrev UserKey := Bytes

/-- The bytes stored at a key. -/
abbrev Value := Bytes

namespace Bytes

-- The maps on byte strings share this proof.
instance (priority := 2000) transCmp : Std.TransCmp (LinearOrder.toOrd (α := Bytes)).compare :=
  inferInstance

/-- The least byte string above `k`. -/
def next (k : Bytes) : Bytes := k ++ [0]

/-- A byte string is below `next k` exactly when it is not above `k`. -/
theorem lt_next_iff {j k : Bytes} :
  j < next k ↔ j ≤ k
  := by
  rw [← not_lt]
  induction k generalizing j with
  | nil =>
    cases j with
    | nil => simp [next]
    | cons b j =>
      have hb : ¬ b < 0 := by simp [UInt8.lt_iff_toNat_lt]
      simp [next, List.cons_lt_cons_iff, hb]
  | cons a k ih =>
    cases j with
    | nil => simp [next]
    | cons b j =>
      have h := ih (j := j)
      rw [next] at h
      rw [next, List.cons_append, List.cons_lt_cons_iff, List.cons_lt_cons_iff, h]
      rcases lt_trichotomy a b with hab | rfl | hab
      · simp [hab, not_lt_of_gt, hab.ne']
      · simp
      · simp [hab, not_lt_of_gt, hab.ne']

theorem lt_next (k : Bytes) :
  k < next k
  := lt_next_iff.mpr le_rfl

theorem next_le_iff {j k : Bytes} :
  next k ≤ j ↔ k < j
  := by
  rw [← not_lt, lt_next_iff, not_le]

end Bytes

end Kv9
