import Kv9.Lib.OrderedMap

/-!
# Totals over ordered maps

`total f m` adds up `f` over the values of a map.  A change at one key changes the total by
what it changes there, so that a running counter agrees with the total as long as every
change is booked.
-/

universe u v

namespace OrderedMap

open List

variable {α : Type u} {β : Type v} [LinearOrder α] {f : β → ℕ} {m : OrderedMap α β}
  {k : α} {x : β}

/-- The sum of `f` over the values of a map. -/
def total (f : β → ℕ) (m : OrderedMap α β) : ℕ := (m.toList.map fun e => f e.2).sum

/-- What `f` gives for the value at a key, if there is one. -/
def weight (f : β → ℕ) (m : OrderedMap α β) (k : α) : ℕ := m[k]?.elim 0 f

@[simp]
theorem total_empty :
  total f (∅ : OrderedMap α β) = 0
  := by
  rfl

theorem weight_eq_of_some (h : m[k]? = some x) :
  weight f m k = f x
  := by
  rw [weight, h, Option.elim_some]

theorem weight_eq_of_none (h : m[k]? = none) :
  weight f m k = 0
  := by
  rw [weight, h, Option.elim_none]

theorem getElem?_filter_eq_none {p : α → β → Bool} (h : ∀ x, m[k]? = some x → p k x = false) :
  (m.filter p)[k]? = none
  := by
  rw [Option.eq_none_iff_forall_ne_some]
  intro x hx
  have hmem : (k, x) ∈ (m.filter p).toList := mem_toList.mpr hx
  rw [Std.ExtTreeMap.toList_filter, mem_filter, mem_toList] at hmem
  rw [h x hmem.1] at hmem
  nomatch hmem.2

/-- Two maps have the same entries, but for one more at `k`. -/
theorem toList_perm_cons {m' : OrderedMap α β} (hx : m[k]? = some x) (hk : m'[k]? = none)
    (h : ∀ a, a ≠ k → m[a]? = m'[a]?) :
  m.toList.Perm ((k, x) :: m'.toList)
  := by
  have hnot : (k, x) ∉ m'.toList := by
    rw [mem_toList, hk]
    nofun
  apply (perm_ext_iff_of_nodup (ascending_toList m).nodup
    (nodup_cons.mpr ⟨hnot, (ascending_toList m').nodup⟩)).mpr
  rintro ⟨a, y⟩
  by_cases ha : a = k
  · subst ha
    simp [hx, hk, eq_comm]
  · simp [ha, h]

theorem total_eq_of_perm {m' : OrderedMap α β} (h : m.toList.Perm ((k, x) :: m'.toList)) :
  total f m = f x + total f m'
  := by
  rw [total, (h.map fun e => f e.2).sum_eq]
  rfl

/-- The total is what is at a key and the total without the key. -/
theorem total_eq_weight_add (f : β → ℕ) (m : OrderedMap α β) (k : α) :
  total f m = weight f m k + total f (m.erase k)
  := by
  cases hk : m[k]? with
  | none =>
    have herase : m.erase k = m := by
      apply Std.ExtTreeMap.ext_getElem?
      intro a
      rw [getElem?_erase]
      split_ifs with ha
      · rw [← ha, hk]
      · rfl
    rw [weight_eq_of_none hk, herase, Nat.zero_add]
  | some x =>
    rw [weight_eq_of_some hk]
    apply total_eq_of_perm
    apply toList_perm_cons hk (by simp)
    intro a ha
    rw [getElem?_erase, if_neg (Ne.symm ha)]

theorem total_insert (f : β → ℕ) (m : OrderedMap α β) (k : α) (x : β) :
  total f (m.insert k x) = f x + total f (m.erase k)
  := by
  apply total_eq_of_perm (k := k)
  apply toList_perm_cons (by simp) (by simp)
  intro a ha
  rw [getElem?_insert, getElem?_erase, if_neg (Ne.symm ha), if_neg (Ne.symm ha)]

theorem total_insert_of_none (f : β → ℕ) (hk : m[k]? = none) (x : β) :
  total f (m.insert k x) = f x + total f m
  := by
  rw [total_insert, total_eq_weight_add f m, weight_eq_of_none hk, Nat.zero_add]

theorem weight_le_total (f : β → ℕ) (m : OrderedMap α β) (k : α) :
  weight f m k ≤ total f m
  := by
  rw [total_eq_weight_add]
  apply Nat.le_add_right

/-- The total of the entries that satisfy a condition, and of those that do not. -/
theorem total_filter_add (f : β → ℕ) (m : OrderedMap α β) (p : α × β → Bool) :
  total f (m.filter fun k x => p (k, x))
      + ((m.toList.filter fun e => !p e).map fun e => f e.2).sum
    = total f m
  := by
  rw [total, total, Std.ExtTreeMap.toList_filter]
  induction m.toList with
  | nil => rfl
  | cons e es ih =>
    cases he : p e with
    | true =>
      simp only [filter_cons, he, Bool.not_true, Bool.false_eq_true, if_false, if_true,
        map_cons, sum_cons] at ih ⊢
      omega
    | false =>
      simp only [filter_cons, he, Bool.not_false, Bool.false_eq_true, if_false, if_true,
        map_cons, sum_cons] at ih ⊢
      omega

/-- Insert a list of entries. -/
def extend (m : OrderedMap α β) (es : List (α × β)) : OrderedMap α β :=
  es.foldl (fun m e => m.insert e.1 e.2) m

theorem total_extend (f : β → ℕ) {es : List (α × β)} (hes : Ascending es)
    (hnew : ∀ e ∈ es, m[e.1]? = none) :
  total f (extend m es) = total f m + (es.map fun e => f e.2).sum
  := by
  induction es generalizing m with
  | nil => rfl
  | cons e es ih =>
    have hnew' : ∀ e' ∈ es, (m.insert e.1 e.2)[e'.1]? = none := by
      intro e' he'
      rw [getElem?_insert, if_neg (hes.lt_of_mem he').ne]
      apply hnew e' (mem_cons_of_mem e he')
    have := ih hes.tail hnew'
    rw [extend] at this ⊢
    rw [foldl_cons, this,
      total_insert_of_none f (hnew e (mem_cons_self ..)), map_cons, sum_cons]
    omega

end OrderedMap
