import Kv9.Engine.Versioned

/-!
# The view registry

The registry counts the live views by version.  The oldest live version is not above any
version with a positive count, and not above the watermark.
-/

namespace Kv9.Engine.Shared

/-- The number of views registered in `shard` at version `n`. -/
def registered (s : Shared) (shard : Fin registryShards) (n : ℕ) : ℕ :=
  (s.registry shard)[n]?.getD 0

theorem registered_register (s : Shared) (shard shard' : Fin registryShards) (n n' : ℕ) :
  (s.register shard n).registered shard' n'
    = s.registered shard' n' + if shard' = shard ∧ n' = n then 1 else 0
  := by
  simp only [registered, register, Function.update_apply]
  by_cases hs : shard' = shard
  · subst hs
    rw [if_pos rfl, OrderedMap.getElem?_insert]
    by_cases hn : n = n'
    · subst hn
      simp
    · simp [hn, Ne.symm]
  · simp [hs]

theorem registered_unregister (s : Shared) (shard shard' : Fin registryShards) (n n' : ℕ) :
  (s.unregister shard n).registered shard' n'
    = s.registered shard' n' - if shard' = shard ∧ n' = n then 1 else 0
  := by
  by_cases hc : shard' = shard ∧ n' = n
  · obtain ⟨rfl, rfl⟩ := hc
    simp only [registered, unregister, and_self, if_true]
    cases hcount : (s.registry shard')[n']? with
    | none => simp [hcount]
    | some count =>
      simp only [Function.update_self, Option.getD_some]
      split_ifs with hlast
      · rw [OrderedMap.getElem?_erase, if_pos rfl, hlast]
        rfl
      · rw [OrderedMap.getElem?_insert, if_pos rfl]
        rfl
  · rw [if_neg hc, Nat.sub_zero]
    simp only [registered, unregister]
    cases (s.registry shard)[n]? with
    | none => rfl
    | some count =>
      simp only [Function.update_apply]
      by_cases hs : shard' = shard
      · subst hs
        have hn : n ≠ n' := fun hn => hc ⟨rfl, hn.symm⟩
        rw [if_pos rfl]
        split_ifs
        · rw [OrderedMap.getElem?_erase, if_neg hn]
        · rw [OrderedMap.getElem?_insert, if_neg hn]
      · rw [if_neg hs]

theorem head?_keys_le {m : RegistryShard} {n : ℕ} (h : m[n]? ≠ none) :
  ∃ oldest, m.keys.head? = some oldest ∧ oldest ≤ n
  := by
  obtain ⟨x, hx⟩ := Option.ne_none_iff_exists'.mp h
  have hmem := Std.ExtTreeMap.mem_toList_iff_getElem?_eq_some.mpr hx
  rw [← Std.ExtTreeMap.map_fst_toList_eq_keys]
  have hasc := OrderedMap.ascending_toList m
  cases hl : m.toList with
  | nil =>
    rw [hl] at hmem
    cases hmem
  | cons e es =>
    rw [hl] at hmem hasc
    use e.1, rfl
    rcases List.mem_cons.mp hmem with rfl | hmem
    · exact le_rfl
    · exact (hasc.lt_of_mem hmem).le

/-- The oldest live version is not above a version with a registered view. -/
theorem oldestLiveVersion_le_of_registered {s : Shared} {shard : Fin registryShards} {n : ℕ}
    (h : 0 < s.registered shard n) :
  s.oldestLiveVersion ≤ n
  := by
  have hstored : (s.registry shard)[n]? ≠ none := by
    intro hnone
    rw [registered, hnone] at h
    exact absurd h (lt_irrefl _)
  obtain ⟨oldest, hhead, hle⟩ := head?_keys_le hstored
  have hmem : oldest ∈ s.registryMinima := by
    apply List.mem_filterMap.mpr
    use shard, List.mem_finRange shard, hhead
  rw [oldestLiveVersion]
  cases hmin : s.registryMinima.min? with
  | none =>
    rw [List.min?_eq_none_iff] at hmin
    rw [hmin] at hmem
    cases hmem
  | some least =>
    calc min least s.visible
      _ ≤ least := Nat.min_le_left ..
      _ ≤ oldest := ((List.le_min?_iff hmin).mp le_rfl) oldest hmem
      _ ≤ n := hle

theorem oldestLiveVersion_le_visible (s : Shared) :
  s.oldestLiveVersion ≤ s.visible
  := by
  rw [oldestLiveVersion]
  split
  · exact le_rfl
  · apply Nat.min_le_right

end Kv9.Engine.Shared
