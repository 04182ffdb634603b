import Kv9.Lib.Totals

/-!
# Overlays

An overlay is a map of edits over a map of entries: an edit puts a value or hides one.  The
merged lookup asks the overlay first.  The entries of both, listed in one order, are merged by
two cursors; the merged list has exactly the entries that the merged lookup finds.
-/

universe u v

namespace Overlay

open List OrderedMap

variable {α : Type u} {β : Type v}

section

variable (lt : α → α → Prop)

/-- Keys in the order `lt`. -/
def Ordered {γ : Type*} (es : List (α × γ)) : Prop := es.Pairwise fun e e' => lt e.1 e'.1

variable {lt}

variable {γ : Type*}

variable {e : α × γ} {es : List (α × Option β)} {k : α} {x : β}

theorem Ordered.not_mem [IsStrictOrder α lt] {es : List (α × γ)}
    (h : Ordered lt (e :: es)) (x : γ) :
  (e.1, x) ∉ es
  := by
  intro hmem
  apply irrefl_of lt e.1 ((pairwise_cons.mp h).1 (e.1, x) hmem)

theorem Ordered.not_mem_of_lt [IsStrictOrder α lt]
    {es : List (α × γ)} (h : Ordered lt (e :: es)) (hlt : lt k e.1) (x : γ) :
  (k, x) ∉ e :: es
  := by
  intro hmem
  rcases mem_cons.mp hmem with rfl | hmem
  · apply irrefl_of lt k hlt
  · apply irrefl_of lt k (trans_of lt hlt ((pairwise_cons.mp h).1 _ hmem))

variable (lt) [DecidableRel lt] [DecidableEq α]

/-- Merge a list of entries with a list of edits, both in the order `lt`.  An edit wins over the
entry of its key; an edit that hides is skipped. -/
def merge : List (α × β) → List (α × Option β) → List (α × β)
  | view, [] => view
  | [], (k, some x) :: edits => (k, x) :: merge [] edits
  | [], (_, none) :: edits => merge [] edits
  | e :: view, (k, edit) :: edits =>
    if e.1 = k then
      match edit with
      | some x => (k, x) :: merge view edits
      | none => merge view edits
    else if lt e.1 k then e :: merge view ((k, edit) :: edits)
    else
      match edit with
      | some x => (k, x) :: merge (e :: view) edits
      | none => merge (e :: view) edits
termination_by view edits => view.length + edits.length

variable {lt}

/-- What is merged: what the edits put, and the entries no edit is about. -/
theorem mem_merge [IsStrictTotalOrder α lt] {view : List (α × β)} {edits : List (α × Option β)}
    (hview : Ordered lt view) (hedits : Ordered lt edits) :
  (k, x) ∈ merge lt view edits
    ↔ (k, some x) ∈ edits ∨ ((k, x) ∈ view ∧ ∀ edit, (k, edit) ∉ edits)
  := by
  fun_induction merge lt view edits with
  | case1 view => simp
  | case2 k' x' edits ih =>
    rw [mem_cons, ih List.Pairwise.nil hedits.tail]
    simp
  | case3 k' edits ih =>
    rw [ih List.Pairwise.nil hedits.tail]
    simp
  | case4 e view edits x' ih =>
    -- The entry and the edit have one key: the edit stands for both.
    rw [mem_cons, ih hview.tail hedits.tail]
    have hfresh := hview.not_mem
    grind
  | case5 e view edits ih =>
    rw [ih hview.tail hedits.tail]
    have hfresh := hview.not_mem
    grind
  | case6 e view k' edit edits hne hlt ih =>
    rw [mem_cons, ih hview.tail hedits]
    have hfresh := hedits.not_mem_of_lt hlt
    grind
  | case7 e view k' edits hne hlt x' ih =>
    have hlt' : lt k' e.1 := by
      rcases trichotomous_of lt e.1 k' with h | h | h
      · exact absurd h hlt
      · exact absurd h hne
      · exact h
    rw [mem_cons, ih hview hedits.tail]
    have hfresh := hview.not_mem_of_lt hlt'
    grind
  | case8 e view k' edits hne hlt ih =>
    have hlt' : lt k' e.1 := by
      rcases trichotomous_of lt e.1 k' with h | h | h
      · exact absurd h hlt
      · exact absurd h hne
      · exact h
    rw [ih hview hedits.tail]
    have hfresh := hview.not_mem_of_lt hlt'
    grind

variable {view : List (α × β)} {edits : List (α × Option β)} {e : α × β}

theorem key_of_mem_merge (h : e ∈ merge lt view edits) :
  e.1 ∈ view.map Prod.fst ∨ e.1 ∈ edits.map Prod.fst
  := by
  fun_induction merge lt view edits <;> grind

theorem ordered_merge [IsStrictTotalOrder α lt] (hview : Ordered lt view) (hedits : Ordered lt edits) :
  Ordered lt (merge lt view edits)
  := by
  -- what is merged from lists above a key is above it
  have habove : ∀ {k : α} {view : List (α × β)} {edits : List (α × Option β)},
      (∀ e ∈ view, lt k e.1) → (∀ e ∈ edits, lt k e.1) → ∀ e ∈ merge lt view edits, lt k e.1 := by
    intro k view edits hv he e hmem
    rcases key_of_mem_merge hmem with hmem | hmem
    · obtain ⟨e', he', heq⟩ := mem_map.mp hmem
      apply heq ▸ hv e' he'
    · obtain ⟨e', he', heq⟩ := mem_map.mp hmem
      apply heq ▸ he e' he'
  have hafter : ∀ {γ : Type _} {k : α} {e : α × γ} {es : List (α × γ)}, lt k e.1 →
      Ordered lt (e :: es) → ∀ e' ∈ e :: es, lt k e'.1 := by
    intro γ k e es hlt hes e' he'
    rcases mem_cons.mp he' with rfl | he'
    · apply hlt
    · apply trans_of lt hlt ((pairwise_cons.mp hes).1 e' he')
  have hturn : ∀ {k k' : α}, ¬ k = k' → ¬ lt k k' → lt k' k := by
    intro k k' hne hlt
    rcases trichotomous_of lt k k' with h | h | h
    · exact absurd h hlt
    · exact absurd h hne
    · exact h
  fun_induction merge lt view edits with
  | case1 view => apply hview
  | case2 k x edits ih =>
    apply List.Pairwise.cons _ (ih List.Pairwise.nil hedits.tail)
    apply habove (forall_mem_nil _) (pairwise_cons.mp hedits).1
  | case3 k edits ih => apply ih List.Pairwise.nil hedits.tail
  | case4 e view edits x ih =>
    apply List.Pairwise.cons _ (ih hview.tail hedits.tail)
    apply habove (pairwise_cons.mp hview).1 (pairwise_cons.mp hedits).1
  | case5 e view edits ih => apply ih hview.tail hedits.tail
  | case6 e view k edit edits hne hlt ih =>
    apply List.Pairwise.cons _ (ih hview.tail hedits)
    apply habove (pairwise_cons.mp hview).1 (hafter hlt hedits)
  | case7 e view k edits hne hlt x ih =>
    apply List.Pairwise.cons _ (ih hview hedits.tail)
    apply habove (hafter (hturn hne hlt) hview) (pairwise_cons.mp hedits).1
  | case8 e view k edits hne hlt ih => apply ih hview hedits.tail

end

variable [LinearOrder α] (edits : OrderedMap α (Option β)) (view : OrderedMap α β)

/-- Look a key up, in the edits first. -/
def lookup (k : α) : Option β :=
  match edits[k]? with
  | some edit => edit
  | none => view[k]?

/-- The merged entries from `start` up to `stop`, in ascending or descending order. -/
def range (start stop : α) (rev : Bool) : List (α × β) :=
  let view := OrderedMap.range view (.included start) (.excluded stop)
  let edits := OrderedMap.range edits (.included start) (.excluded stop)
  if rev then merge (· > ·) view.reverse edits.reverse else merge (· < ·) view edits

variable {edits view}

/-- A merged range has exactly the entries that the merged lookup finds. -/
theorem mem_range {start stop : α} {rev : Bool} :
  (k, x) ∈ range edits view start stop rev
    ↔ (start ≤ k ∧ k < stop) ∧ lookup edits view k = some x
  := by
  have hview := ascending_range view (.included start) (.excluded stop)
  have hedits := ascending_range edits (.included start) (.excluded stop)
  have hmem : (k, x) ∈ range edits view start stop rev
      ↔ (k, some x) ∈ OrderedMap.range edits (.included start) (.excluded stop)
        ∨ ((k, x) ∈ OrderedMap.range view (.included start) (.excluded stop)
          ∧ ∀ edit, (k, edit) ∉ OrderedMap.range edits (.included start) (.excluded stop)) := by
    cases rev with
    | false => apply mem_merge hview hedits
    | true =>
      have hview' : Ordered (· > ·)
          (OrderedMap.range view (.included start) (.excluded stop)).reverse :=
        pairwise_reverse.mpr hview
      have hedits' : Ordered (· > ·)
          (OrderedMap.range edits (.included start) (.excluded stop)).reverse :=
        pairwise_reverse.mpr hedits
      have h := mem_merge hview' hedits' (k := k) (x := x)
      simp only [mem_reverse] at h
      exact h
  rw [hmem, lookup]
  simp only [OrderedMap.mem_range, Bound.below_included, Bound.above_excluded]
  cases hedit : edits[k]? with
  | none => simp [and_comm]
  | some edit => simp; grind

/-- Apply one edit to a map. -/
def edited (m : OrderedMap α β) (e : α × Option β) : OrderedMap α β :=
  match e.2 with
  | some x => m.insert e.1 x
  | none => m.erase e.1

theorem getElem?_edited (m : OrderedMap α β) (e : α × Option β) (k : α) :
  (edited m e)[k]? = if e.1 = k then e.2 else m[k]?
  := by
  obtain ⟨k', edit⟩ := e
  cases edit with
  | none => apply OrderedMap.getElem?_erase
  | some x => apply OrderedMap.getElem?_insert

variable (edits view) in
/-- The one map that the edits make of the entries. -/
def override : OrderedMap α β := edits.toList.foldl edited view

/-- After edits, a key has what the last of them left. -/
theorem getElem?_foldl_edited (es : List (α × Option β)) (k : α) :
  (es.foldl edited view)[k]?
    = match es.reverse.find? (fun e => e.1 = k) with
      | some e => e.2
      | none => view[k]?
  := by
  induction es using List.reverseRecOn with
  | nil => rfl
  | append_singleton es e ih =>
    rw [foldl_concat, getElem?_edited, ih, reverse_concat, List.find?_cons]
    by_cases hk : e.1 = k
    · rw [if_pos hk, decide_eq_true hk]
    · rw [if_neg hk, decide_eq_false hk]

/-- The one map has what the merged lookup finds. -/
theorem getElem?_override (k : α) :
  (override edits view)[k]? = lookup edits view k
  := by
  rw [override, getElem?_foldl_edited, lookup]
  cases hfind : edits.toList.reverse.find? (fun e => e.1 = k) with
  | some e =>
    have hmem := mem_toList.mp (mem_reverse.mp (mem_of_find?_eq_some hfind))
    have hkey : e.1 = k := by simpa using List.find?_some hfind
    rw [hkey] at hmem
    rw [hmem]
  | none =>
    cases hedit : edits[k]? with
    | none => rfl
    | some edit =>
      have hmem : (k, edit) ∈ edits.toList.reverse :=
        mem_reverse.mpr (mem_toList.mpr hedit)
      apply absurd (List.find?_eq_none.mp hfind _ hmem)
      simp

/-- A merged range is the range of the one map, in either direction. -/
theorem range_eq (start stop : α) (rev : Bool) :
  range edits view start stop rev
    = if rev then (OrderedMap.range (override edits view) (.included start) (.excluded stop)).reverse
      else OrderedMap.range (override edits view) (.included start) (.excluded stop)
  := by
  have hmem : ∀ e, e ∈ range edits view start stop rev
      ↔ e ∈ OrderedMap.range (override edits view) (.included start) (.excluded stop) := by
    intro e
    rw [← Prod.mk.eta (p := e), mem_range, OrderedMap.mem_range, getElem?_override, and_comm,
      Bound.below_included, Bound.above_excluded]
  have hmap := ascending_range (override edits view) (.included start) (.excluded stop)
  have hview := ascending_range view (.included start) (.excluded stop)
  have hedits := ascending_range edits (.included start) (.excluded stop)
  cases rev with
  | false =>
    apply OrderedMap.Ascending.ext _ hmap hmem
    apply ordered_merge hview hedits
  | true =>
    have hdesc : Ordered (· > ·) (range edits view start stop true) :=
      ordered_merge (pairwise_reverse.mpr hview) (pairwise_reverse.mpr hedits)
    rw [if_pos rfl, ← reverse_eq_iff]
    apply OrderedMap.Ascending.ext (pairwise_reverse.mpr hdesc) hmap
    intro e
    rw [mem_reverse, hmem]

/-- The lookup after more edits: the last one of the key counts. -/
theorem lookup_extend (es : List (α × Option β)) (k : α) :
  lookup (OrderedMap.extend edits es) view k
    = match es.reverse.find? (fun e => e.1 = k) with
      | some e => e.2
      | none => lookup edits view k
  := by
  induction es generalizing edits with
  | nil => rfl
  | cons e es ih =>
    rw [OrderedMap.extend, foldl_cons, ← OrderedMap.extend, ih, reverse_cons, List.find?_append]
    cases hfind : es.reverse.find? (fun e => e.1 = k) with
    | some e' => rfl
    | none =>
      by_cases hk : e.1 = k
      · simp [lookup, hk]
      · simp [lookup, hk, OrderedMap.getElem?_insert]

/-- A key no edit is about keeps its value. -/
theorem lookup_extend_of_forall_ne (h : ∀ e ∈ es, e.1 ≠ k) :
  lookup (OrderedMap.extend edits es) view k = lookup edits view k
  := by
  have hfind : es.reverse.find? (fun e => e.1 = k) = none := by
    rw [List.find?_eq_none]
    intro e he
    simp [h e (mem_reverse.mp he)]
  rw [lookup_extend, hfind]

/-- A key has the value its edits agree on. -/
theorem lookup_extend_of_mem {edit : Option β}
    (hmem : (k, edit) ∈ es) (h : ∀ edit', (k, edit') ∈ es → edit' = edit) :
  lookup (OrderedMap.extend edits es) view k = edit
  := by
  rw [lookup_extend]
  cases hfind : es.reverse.find? (fun e => e.1 = k) with
  | none =>
    rw [List.find?_eq_none] at hfind
    have := hfind (k, edit) (mem_reverse.mpr hmem)
    simp at this
  | some e =>
    have hkey := List.find?_some hfind
    have hmem' := mem_of_find?_eq_some hfind
    obtain ⟨k', edit'⟩ := e
    obtain rfl : k' = k := by simpa using hkey
    apply h edit' (mem_reverse.mp hmem')

end Overlay
