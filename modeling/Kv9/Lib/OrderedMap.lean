import Mathlib

/-!
# Ordered maps

An ordered map is a `Std.ExtTreeMap` over a linear order.  `range m lo hi` lists, in
ascending order of keys, the entries of `m` between the bounds `lo` and `hi`, and
`walk f` visits a list of entries until `f` asks to stop.  Two lists of entries with
strictly ascending keys are equal when they have the same members, so a range is
determined by the entries it contains.
-/

universe u v w

/-- A map whose entries are ordered by their keys. -/
abbrev OrderedMap (α : Type u) (β : Type v) [LinearOrder α] := Std.ExtTreeMap α β compare

instance OrderedMap.transCmp {α : Type u} [inst : LinearOrder α] : Std.TransCmp inst.compare :=
  inferInstance

/-- One end of a range of keys. -/
inductive Bound (α : Type u) where
  | included (a : α)
  | excluded (a : α)
  | unbounded

namespace Bound

variable {α : Type u} [LinearOrder α] {lo : Bound α} {a b k : α}

/-- Whether a key is above the bound, taken as the lower end of a range. -/
def below : Bound α → α → Bool
  | .included a, k => a ≤ k
  | .excluded a, k => a < k
  | .unbounded, _ => true

/-- Whether a key is below the bound, taken as the upper end of a range. -/
def above : Bound α → α → Bool
  | .included a, k => k ≤ a
  | .excluded a, k => k < a
  | .unbounded, _ => true

@[simp]
theorem below_included :
  below (.included a) k = true ↔ a ≤ k
  := by
  simp [below]

@[simp]
theorem below_excluded :
  below (.excluded a) k = true ↔ a < k
  := by
  simp [below]

@[simp]
theorem below_unbounded :
  below (.unbounded) k = true
  := rfl

@[simp]
theorem above_included :
  above (.included a) k = true ↔ k ≤ a
  := by
  simp [above]

@[simp]
theorem above_excluded :
  above (.excluded a) k = true ↔ k < a
  := by
  simp [above]

@[simp]
theorem above_unbounded :
  above (.unbounded) k = true
  := rfl

/-- What is above a key above the lower end is above the lower end. -/
theorem below_mono (ha : lo.below a = true) (hab : a ≤ b) :
  lo.below b = true
  := by
  cases lo with
  | included c => simp_all [le_trans _ hab]
  | excluded c => simp_all [lt_of_lt_of_le _ hab]
  | unbounded => rfl

/-- What is not above the lower end is below everything that is. -/
theorem lt_of_below (ha : lo.below a = false) (hb : lo.below b = true) :
  a < b
  := by
  by_contra hle
  rw [below_mono hb (not_lt.mp hle)] at ha
  cases ha

end Bound

namespace OrderedMap

variable {α : Type u} {β : Type v} {σ : Type w}

/-- Visit the entries of a list in order, threading a state, until the visitor is done. -/
def walk {γ : Type u} (f : γ → σ → ForInStep σ) : List γ → σ → σ
  | [], s => s
  | e :: es, s =>
    match f e s with
    | .done s' => s'
    | .yield s' => walk f es s'

/-- Strictly ascending keys. -/
def Ascending [LinearOrder α] (es : List (α × β)) : Prop :=
  es.Pairwise fun e e' => e.1 < e'.1

variable [LinearOrder α] {e e' : α × β} {es : List (α × β)} {m : OrderedMap α β} {lo hi : Bound α}
variable {a b k : α}

theorem Ascending.tail (h : Ascending (e :: es)) :
  Ascending es
  := (List.pairwise_cons.mp h).2

theorem Ascending.lt_of_mem (h : Ascending (e :: es)) (he : e' ∈ es) :
  e.1 < e'.1
  := (List.pairwise_cons.mp h).1 e' he

theorem Ascending.filter (h : Ascending es) (p : α × β → Bool) :
  Ascending (es.filter p)
  := List.Pairwise.filter p h

theorem Ascending.le_of_getLast? (h : Ascending es) (hlast : es.getLast? = some e) (he' : e' ∈ es) :
  e'.1 ≤ e.1
  := by
  obtain ⟨front, rfl⟩ := List.getLast?_eq_some_iff.mp hlast
  rcases List.mem_append.mp he' with hfront | hself
  · apply ((List.pairwise_append.mp h).2.2 e' hfront e (List.mem_singleton_self e)).le
  · rw [List.mem_singleton.mp hself]

theorem Ascending.nodup (h : Ascending es) :
  es.Nodup
  := by
  apply List.Pairwise.imp _ h
  rintro e e' hlt rfl
  apply lt_irrefl _ hlt

/-- Entries with strictly ascending keys are determined by their members. -/
theorem Ascending.ext {fs : List (α × β)} (hes : Ascending es) (hfs : Ascending fs)
    (h : ∀ e, e ∈ es ↔ e ∈ fs) :
  es = fs
  := by
  apply List.Perm.eq_of_pairwise _ hes hfs
  · apply (List.perm_ext_iff_of_nodup hes.nodup hfs.nodup).mpr h
  · intro e e' _ _ hlt hgt
    apply absurd hgt (lt_asymm hlt)

theorem getElem?_insert (m : OrderedMap α β) (k a : α) (x : β) :
  (m.insert k x)[a]? = if k = a then some x else m[a]?
  := by
  simp [Std.ExtTreeMap.getElem?_insert]

theorem getElem?_erase (m : OrderedMap α β) (k a : α) :
  (m.erase k)[a]? = if k = a then none else m[a]?
  := by
  simp [Std.ExtTreeMap.getElem?_erase]

theorem mem_toList :
  e ∈ m.toList ↔ m[e.1]? = some e.2
  := Std.ExtTreeMap.mem_toList_iff_getElem?_eq_some

/-- A map is determined by its values. -/
theorem ext_getElem? {m' : OrderedMap α β} (h : ∀ k : α, m[k]? = m'[k]?) :
  m = m'
  := Std.ExtTreeMap.ext_getElem? fun {k} => h k

/-- A function with values at finitely many keys is a map. -/
theorem exists_getElem?_eq {f : α → Option β} {ks : List α} (h : ∀ k, f k ≠ none → k ∈ ks) :
  ∃ m : OrderedMap α β, ∀ k, m[k]? = f k
  := by
  have hbelow : ∀ ks : List α, ∃ m : OrderedMap α β, ∀ k, m[k]? = if k ∈ ks then f k else none := by
    intro ks
    induction ks with
    | nil => exact ⟨∅, fun k => by simp⟩
    | cons a ks ih =>
      obtain ⟨m, hm⟩ := ih
      cases ha : f a with
      | none =>
        use m
        intro k
        by_cases hk : k = a
        · simp [hm, hk, ha]
        · simp [hm, hk]
      | some x =>
        use m.insert a x
        intro k
        by_cases hk : k = a
        · simp [hk, ha]
        · simp [getElem?_insert, hm, hk, Ne.symm]
  obtain ⟨m, hm⟩ := hbelow ks
  use m
  intro k
  rw [hm]
  split_ifs with hk
  · rfl
  · by_contra hne
    apply hk (h k (Ne.symm hne))

/-- The entries of a map have strictly ascending keys. -/
theorem ascending_toList (m : OrderedMap α β) :
  Ascending m.toList
  := by
  apply List.Pairwise.imp _ m.ordered_keys_toList
  intro e e' h
  apply compare_lt_iff_lt.mp h

/-- The entries of a map between two bounds, in ascending order. -/
def range (m : OrderedMap α β) (lo hi : Bound α) : List (α × β) :=
  m.toList.filter fun e => lo.below e.1 && hi.above e.1

theorem ascending_range (m : OrderedMap α β) (lo hi : Bound α) :
  Ascending (range m lo hi)
  := (ascending_toList m).filter _

@[simp]
theorem mem_range :
  e ∈ range m lo hi ↔ m[e.1]? = some e.2 ∧ lo.below e.1 = true ∧ hi.above e.1 = true
  := by
  rw [range, List.mem_filter, Bool.and_eq_true, mem_toList]

/-- The first entry of a range without upper end is the least, and what follows is the
range above it. -/
theorem range_eq_cons (h : range m lo .unbounded = e :: es) :
  m[e.1]? = some e.2 ∧ lo.below e.1 = true
    ∧ (∀ k x, m[k]? = some x → lo.below k = true → e.1 ≤ k)
    ∧ es = range m (.excluded e.1) .unbounded
  := by
  have hasc := ascending_range m lo .unbounded
  have hmem : ∀ e', e' ∈ e :: es ↔ m[e'.1]? = some e'.2 ∧ lo.below e'.1 = true := by
    intro e'
    rw [← h]
    simp
  rw [h] at hasc
  obtain ⟨hm, hlo⟩ := (hmem e).mp (List.mem_cons_self ..)
  refine ⟨hm, hlo, ?_, ?_⟩
  · intro k x hk hlo'
    rcases List.mem_cons.mp ((hmem (k, x)).mpr ⟨hk, hlo'⟩) with rfl | hin
    · exact le_rfl
    · exact (hasc.lt_of_mem hin).le
  · apply hasc.tail.ext (ascending_range ..)
    intro e'
    rw [mem_range, Bound.below_excluded]
    constructor
    · intro he'
      exact ⟨((hmem e').mp (List.mem_cons_of_mem _ he')).1, hasc.lt_of_mem he', rfl⟩
    · rintro ⟨hm', hlt, -⟩
      rcases List.mem_cons.mp ((hmem e').mpr ⟨hm', Bound.below_mono hlo hlt.le⟩) with rfl | hin
      · exact absurd hlt (lt_irrefl _)
      · exact hin

theorem length_range_le (m : OrderedMap α β) (lo hi : Bound α) :
  (range m lo hi).length ≤ m.size
  := by
  rw [← Std.ExtTreeMap.length_toList]
  apply List.length_filter_le

/-- Narrowing the lower end of a range drops the entries below the new end. -/
theorem range_filter_le (h : a ≤ b) :
  (range m (.included a) hi).filter (fun e => b ≤ e.1) = range m (.included b) hi
  := by
  apply Ascending.ext ((ascending_range ..).filter _) (ascending_range ..)
  intro e
  simp only [List.mem_filter, mem_range, Bound.below_included, decide_eq_true_eq]
  constructor
  · rintro ⟨⟨hm, -, hhi⟩, hb⟩
    use hm, hb, hhi
  · rintro ⟨hm, hb, hhi⟩
    use ⟨hm, le_trans h hb, hhi⟩, hb

/-- Narrowing the upper end of a range drops the entries from the new end on. -/
theorem range_filter_lt (h : a ≤ b) :
  (range m lo (.excluded b)).filter (fun e => e.1 < a) = range m lo (.excluded a)
  := by
  apply Ascending.ext ((ascending_range ..).filter _) (ascending_range ..)
  intro e
  simp only [List.mem_filter, mem_range, Bound.above_excluded, decide_eq_true_eq]
  constructor
  · rintro ⟨⟨hm, hlo, -⟩, ha⟩
    use hm, hlo, ha
  · rintro ⟨hm, hlo, ha⟩
    use ⟨hm, hlo, lt_of_lt_of_le ha h⟩, ha

theorem range_eq_nil_of_le (h : b ≤ a) :
  range m (.included a) (.excluded b) = []
  := by
  apply List.eq_nil_iff_forall_not_mem.mpr
  intro e he
  obtain ⟨-, hlo, hhi⟩ := mem_range.mp he
  rw [Bound.below_included] at hlo
  rw [Bound.above_excluded] at hhi
  exact absurd (lt_of_le_of_lt hlo hhi) (not_lt_of_ge h)

/-- A range is the part below `k`, and the entry of `k` if there is one, when no key of
the range is above `k`. -/
theorem range_eq_concat (ha : a ≤ k) (hb : k < b)
    (h : ∀ k' x, m[k']? = some x → k < k' → ¬ k' < b) :
  range m (.included a) (.excluded b)
    = range m (.included a) (.excluded k) ++ (m[k]?.map fun x => (k, x)).toList
  := by
  have hasc : Ascending
      (range m (.included a) (.excluded k) ++ (m[k]?.map fun x => (k, x)).toList) := by
    apply List.pairwise_append.mpr
    refine ⟨ascending_range .., ?_, ?_⟩
    · cases m[k]? with
      | none => exact List.Pairwise.nil
      | some x => apply List.pairwise_singleton
    · intro e he e' he'
      obtain ⟨-, -, hk⟩ := mem_range.mp he
      rw [Bound.above_excluded] at hk
      cases hm : m[k]? with
      | none => simp [hm] at he'
      | some x =>
        simp only [hm, Option.map_some, Option.toList_some, List.mem_singleton] at he'
        rw [he']
        exact hk
  apply (ascending_range ..).ext hasc
  rintro ⟨k', x⟩
  rw [List.mem_append, mem_range, mem_range, Option.mem_toList, Option.map_eq_some_iff]
  simp only [Bound.below_included, Bound.above_excluded, Prod.mk.injEq]
  constructor
  · rintro ⟨hm, hlo, hhi⟩
    rcases lt_trichotomy k' k with hlt | rfl | hgt
    · exact .inl ⟨hm, hlo, hlt⟩
    · exact .inr ⟨x, hm, rfl, rfl⟩
    · exact absurd hhi (h k' x hm hgt)
  · rintro (⟨hm, hlo, hhi⟩ | ⟨x', hm, rfl, rfl⟩)
    · use hm, hlo, lt_trans hhi hb
    · use hm, ha, hb

end OrderedMap

namespace List

variable {γ : Type u} {r : γ → γ → Prop} [DecidableRel r]

/-- In a list ordered by `r`, the members after the last of the first `n` are the
remaining ones. -/
theorem filter_rel_eq_drop (hasymm : ∀ a b, r a b → ¬ r b a) {es : List γ}
    (h : es.Pairwise r) {n : ℕ} {e : γ} (he : (es.take n).getLast? = some e) :
  es.filter (fun e' => r e e') = es.drop n
  := by
  obtain ⟨init, hinit⟩ := List.getLast?_eq_some_iff.mp he
  have hsplit : es = init ++ e :: es.drop n := by
    conv_lhs => rw [← List.take_append_drop n es, hinit]
    simp
  rw [hsplit] at h
  obtain ⟨-, htail, hcross⟩ := List.pairwise_append.mp h
  have hirr : ¬ r e e := fun hr => hasymm e e hr hr
  have hpre : init.filter (fun e' => r e e') = [] := by
    apply List.filter_eq_nil_iff.mpr
    intro e' he'
    simpa using hasymm e' e (hcross e' he' e (List.mem_cons_self ..))
  have hpost : (es.drop n).filter (fun e' => r e e') = es.drop n := by
    apply List.filter_eq_self.mpr
    intro e' he'
    simpa using (List.pairwise_cons.mp htail).1 e' he'
  conv_lhs => rw [hsplit]
  rw [List.filter_append, List.filter_cons_of_neg (by simpa using hirr), hpre, hpost,
    List.nil_append]

end List
