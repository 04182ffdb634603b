import Mathlib

/-!
# Multi-version stores

A multi-version store keeps, for every key, a slot at each of some versions; a slot
holds a value or is a tombstone.  A reader at version `v` sees the newest slot not
above `v`.

A store `T` is *faithful* to the history `H` of everything ever stored, at a version
`v`, when `T` keeps only slots of `H` and a reader at `v` sees the same in both.
Faithfulness is preserved by storing above `v`, by removing a slot that `v` sees a
newer one of, and by removing a tombstone with nothing older left below it.
-/

universe u v w

/-- The slots of each key, by version. -/
abbrev Versions (κ : Type u) (ν : Type v) (β : Type w) := κ → ν → Option (Option β)

namespace Versions

variable {κ : Type u} {ν : Type v} {β : Type w}

/-- Store a slot of `k` at version `n`. -/
def put [DecidableEq κ] [DecidableEq ν] (S : Versions κ ν β) (k : κ) (n : ν) (s : Option β) :
    Versions κ ν β :=
  fun k' n' => if k' = k ∧ n' = n then some s else S k' n'

/-- Remove the slot of `k` at version `n`. -/
def remove [DecidableEq κ] [DecidableEq ν] (S : Versions κ ν β) (k : κ) (n : ν) :
    Versions κ ν β :=
  fun k' n' => if k' = k ∧ n' = n then none else S k' n'

variable [LinearOrder ν]

/-- `n` is the newest version of `k` not above `v`, and `s` is its slot. -/
def Newest (S : Versions κ ν β) (k : κ) (v n : ν) (s : Option β) : Prop :=
  n ≤ v ∧ S k n = some s ∧ ∀ n', n < n' → n' ≤ v → S k n' = none

/-- A reader at version `v` sees `x` at `k`: the newest slot not above `v`, or nothing
when there is none. -/
def Sees (S : Versions κ ν β) (k : κ) (v : ν) (x : Option β) : Prop :=
  (∃ n, Newest S k v n x) ∨ (x = none ∧ ∀ n, n ≤ v → S k n = none)

variable {S : Versions κ ν β} {k : κ} {v n : ν} {s : Option β}

theorem Newest.unique {n' : ν} {s' : Option β} (h : Newest S k v n s) (h' : Newest S k v n' s') :
  n = n' ∧ s = s'
  := by
  obtain ⟨hle, hs, hno⟩ := h
  obtain ⟨hle', hs', hno'⟩ := h'
  rcases lt_trichotomy n n' with hlt | rfl | hlt
  · have := hno n' hlt hle'
    rw [hs'] at this
    cases this
  · rw [hs] at hs'
    use rfl, Option.some.inj hs'
  · have := hno' n hlt hle
    rw [hs] at this
    cases this

variable {x : Option β}

theorem Sees.unique {y : Option β} (hx : Sees S k v x) (hy : Sees S k v y) :
  x = y
  := by
  rcases hx with ⟨n, hn⟩ | ⟨rfl, hno⟩
  · rcases hy with ⟨n', hn'⟩ | ⟨rfl, hno⟩
    · exact (hn.unique hn').2
    · have := hno n hn.1
      rw [hn.2.1] at this
      cases this
  · rcases hy with ⟨n', hn'⟩ | ⟨rfl, -⟩
    · have := hno n' hn'.1
      rw [hn'.2.1] at this
      cases this
    · rfl

variable {T : Versions κ ν β}

/-- What a reader at `v` sees depends only on the slots not above `v`. -/
theorem Sees.congr (h : ∀ n, n ≤ v → S k n = T k n) (hx : Sees S k v x) :
  Sees T k v x
  := by
  rcases hx with ⟨n, hle, hs, hno⟩ | ⟨rfl, hno⟩
  · refine .inl ⟨n, hle, ?_, ?_⟩
    · rw [← h n hle, hs]
    · intro n' hlt hle'
      rw [← h n' hle', hno n' hlt hle']
  · refine .inr ⟨rfl, ?_⟩
    intro n hle
    rw [← h n hle, hno n hle]

variable {k' : κ}

section Put

variable [DecidableEq κ]

theorem Sees.put_of_lt (hn : v < n) (h : Sees S k' v x) :
  Sees (S.put k n s) k' v x
  := by
  apply h.congr
  intro n' hle
  rw [put, if_neg]
  rintro ⟨-, rfl⟩
  exact absurd hle (not_le_of_gt hn)

theorem Sees.put_of_ne (hk : k' ≠ k) (h : Sees S k' v x) :
  Sees (S.put k n s) k' v x
  := by
  apply h.congr
  intro n' _
  rw [put, if_neg]
  exact fun hc => hk hc.1

theorem sees_put_self (S : Versions κ ν β) (k : κ) (v : ν) (s : Option β) :
  Sees (S.put k v s) k v s
  := by
  refine .inl ⟨v, le_rfl, ?_, ?_⟩
  · rw [put, if_pos ⟨rfl, rfl⟩]
  · intro n' hlt hle
    exact absurd hle (not_le_of_gt hlt)

end Put

/-- A reader sees the same at `v` as at an older version with no slot in between. -/
theorem Sees.mono {w : ν} (hvw : v ≤ w) (hno : ∀ n, v < n → n ≤ w → S k n = none)
    (h : Sees S k v x) :
  Sees S k w x
  := by
  rcases h with ⟨n, hle, hs, hnew⟩ | ⟨rfl, hnone⟩
  · refine .inl ⟨n, le_trans hle hvw, hs, ?_⟩
    intro n' hlt hle'
    rcases le_or_gt n' v with h' | h'
    · exact hnew n' hlt h'
    · exact hno n' h' hle'
  · refine .inr ⟨rfl, ?_⟩
    intro n hle
    rcases le_or_gt n v with h' | h'
    · exact hnone n h'
    · exact hno n h' hle

/-! ## Faithful stores -/

/-- `T` keeps slots of the history `H` only, and keeps the slot a reader at `v` sees,
unless that slot is a tombstone and nothing readable at `v` is left. -/
structure Faithful (H T : Versions κ ν β) (k : κ) (v : ν) : Prop where
  kept : ∀ n s, T k n = some s → H k n = some s
  newest : ∀ n s, Newest H k v n s →
    T k n = some s ∨ (s = none ∧ ∀ n', n' ≤ v → T k n' = none)

theorem Faithful.refl (H : Versions κ ν β) (k : κ) (v : ν) :
  Faithful H H k v
  where
  kept _ _ h := h
  newest _ _ h := .inl h.2.1

variable {H : Versions κ ν β}

/-- Where `T` is faithful to `H`, a reader of `T` sees what a reader of `H` sees. -/
theorem Faithful.sees (hf : Faithful H T k v) (h : Sees H k v x) :
  Sees T k v x
  := by
  have hnone : ∀ n, H k n = none → T k n = none := by
    intro n hn
    cases hT : T k n with
    | none => rfl
    | some s =>
      rw [hf.kept n s hT] at hn
      cases hn
  rcases h with ⟨n, hn⟩ | ⟨rfl, hno⟩
  · rcases hf.newest n x hn with hT | ⟨rfl, hT⟩
    · refine .inl ⟨n, hn.1, hT, ?_⟩
      intro n' hlt hle
      apply hnone n' (hn.2.2 n' hlt hle)
    · exact .inr ⟨rfl, hT⟩
  · refine .inr ⟨rfl, ?_⟩
    intro n hle
    apply hnone n (hno n hle)

section Stores

variable [DecidableEq κ]

/-- Removing a slot leaves only slots that were there. -/
theorem remove_eq_some {n' : ν} (h : S.remove k n k' n' = some s) :
  S k' n' = some s
  := by
  rw [remove] at h
  split at h
  · cases h
  · exact h

theorem remove_eq_none {n' : ν} (h : S k' n' = none) :
  S.remove k n k' n' = none
  := by
  rw [remove]
  split
  · rfl
  · exact h

/-- Removing a slot that `H` holds a newer one of, not above `v`, keeps `T` faithful. -/
theorem Faithful.remove_superseded {m : ν} (hf : Faithful H T k' v) (hm : H k m = some s)
    (hnm : n < m) (hmv : m ≤ v) :
  Faithful H (T.remove k n) k' v
  where
  kept n' s' h := hf.kept n' s' (remove_eq_some h)
  newest n' s' hn' := by
    rcases hf.newest n' s' hn' with hT | ⟨rfl, hT⟩
    · left
      rw [remove, if_neg, hT]
      -- the newest slot of `H` not above `v` is at `m` or newer
      rintro ⟨rfl, rfl⟩
      rw [hn'.2.2 m hnm hmv] at hm
      cases hm
    · exact .inr ⟨rfl, fun n'' hle => remove_eq_none (hT n'' hle)⟩

/-- Removing a tombstone that nothing older is left below keeps `T` faithful. -/
theorem Faithful.remove_tombstone (hf : Faithful H T k' v) (hn : ∀ s, T k n = some s → s = none)
    (hold : ∀ m, m < n → T k m = none) :
  Faithful H (T.remove k n) k' v
  where
  kept n' s' h := hf.kept n' s' (remove_eq_some h)
  newest n' s' hn' := by
    rcases hf.newest n' s' hn' with hT | ⟨rfl, hT⟩
    · by_cases hc : k' = k ∧ n' = n
      · -- the tombstone itself is what `v` sees: nothing else is left to see
        obtain ⟨rfl, rfl⟩ := hc
        right
        use hn s' hT
        intro n'' hle
        rcases lt_trichotomy n'' n' with hlt | rfl | hlt
        · exact remove_eq_none (hold n'' hlt)
        · rw [remove, if_pos ⟨rfl, rfl⟩]
        · apply remove_eq_none
          cases hT' : T k' n'' with
          | none => rfl
          | some s'' =>
            have := hn'.2.2 n'' hlt hle
            rw [hf.kept n'' s'' hT'] at this
            cases this
      · left
        rw [remove, if_neg hc, hT]
    · exact .inr ⟨rfl, fun n'' hle => remove_eq_none (hT n'' hle)⟩

theorem put_kept (hf : ∀ n' s', T k' n' = some s' → H k' n' = some s') :
  ∀ n' s', T.put k n s k' n' = some s' → H.put k n s k' n' = some s'
  := by
  intro n' s' h
  rw [put] at h ⊢
  split at h
  · rename_i hc
    rw [if_pos hc]
    exact h
  · rename_i hc
    rw [if_neg hc]
    exact hf n' s' h

/-- Storing above `v`, in the history and in the store, keeps `T` faithful. -/
theorem Faithful.put (hf : Faithful H T k' v) (hn : v < n) :
  Faithful (H.put k n s) (T.put k n s) k' v
  where
  kept := put_kept hf.kept
  newest n' s' hn' := by
    have hlow : ∀ (S : Versions κ ν β) n'', n'' ≤ v → S.put k n s k' n'' = S k' n'' := by
      intro S n'' hle
      rw [Versions.put, if_neg]
      rintro ⟨-, rfl⟩
      exact absurd hle (not_le_of_gt hn)
    have hH : Newest H k' v n' s' := by
      refine ⟨hn'.1, ?_, ?_⟩
      · rw [← hlow H n' hn'.1]
        exact hn'.2.1
      · intro n'' hlt hle
        rw [← hlow H n'' hle]
        exact hn'.2.2 n'' hlt hle
    rcases hf.newest n' s' hH with hT | ⟨rfl, hT⟩
    · left
      rw [hlow T n' hn'.1, hT]
    · refine .inr ⟨rfl, fun n'' hle => ?_⟩
      rw [hlow T n'' hle, hT n'' hle]

/-- Storing the newest version of a key, in the history and in the store, keeps `T`
faithful. -/
theorem Faithful.put_newest (hf : Faithful H T k' v) (hn : n ≤ v)
    (hnew : ∀ n', n < n' → H k n' = none) :
  Faithful (H.put k n s) (T.put k n s) k' v
  where
  kept := put_kept hf.kept
  newest n' s' hn' := by
    obtain ⟨hle, hs, hno⟩ := hn'
    by_cases hk : k' = k
    · subst hk
      left
      rcases lt_trichotomy n' n with hlt | rfl | hlt
      · have := hno n hlt hn
        rw [Versions.put, if_pos ⟨rfl, rfl⟩] at this
        cases this
      · rw [Versions.put, if_pos ⟨rfl, rfl⟩] at hs ⊢
        exact hs
      · rw [Versions.put, if_neg fun hc => hlt.ne' hc.2, hnew n' hlt] at hs
        cases hs
    · have hother : ∀ (S : Versions κ ν β) n'', S.put k n s k' n'' = S k' n'' :=
        fun S n'' => if_neg fun hc => hk hc.1
      simp only [hother] at hs hno ⊢
      exact hf.newest n' s' ⟨hle, hs, hno⟩

end Stores

end Versions
