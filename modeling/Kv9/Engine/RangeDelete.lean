import Kv9.Engine.Refinement

/-!
# Range deletes among batches

A range delete walks its range under the writer lock, releases the lock, and takes it again to
apply the tombstones as a batch.  Batches of other writers may come in between: `gap` lists
them.  The delete then removes the keys that were visible when it walked, whatever was written
to them since, and leaves the keys that came later.  `Serial` says when this is what the
delete does at some place among those batches.
-/

namespace Kv9.Engine

open OrderedMap MemState

/-! ## What a batch leaves -/

/-- The slot the last mutation of a key leaves there, if the batch has one. -/
def lastSlot (batch : WriteBatch) (cf : ColumnFamily) (key : Bytes) : Option Slot :=
  (batch.reverse.find? fun m => decide (m.cf = cf ∧ m.key = key)).map Mutation.slot

@[simp]
theorem lastSlot_nil (cf : ColumnFamily) (key : Bytes) :
  lastSlot [] cf key = none
  := rfl

theorem lastSlot_append (batch batch' : WriteBatch) (cf : ColumnFamily) (key : Bytes) :
  lastSlot (batch ++ batch') cf key = (lastSlot batch' cf key).or (lastSlot batch cf key)
  := by
  rw [lastSlot, List.reverse_append, List.find?_append, Option.map_or]
  rfl

theorem lastSlot_singleton (m : Mutation) (cf : ColumnFamily) (key : Bytes) :
  lastSlot [m] cf key = if cf = m.cf ∧ key = m.key then some m.slot else none
  := by
  simp only [lastSlot, List.reverse_singleton, List.find?_singleton, decide_eq_true_eq,
    eq_comm (a := cf), eq_comm (a := key)]
  split_ifs <;> rfl

/-- A batch leaves nothing at the keys it does not write. -/
theorem lastSlot_eq_none_iff {batch : WriteBatch} {cf : ColumnFamily} {key : Bytes} :
  lastSlot batch cf key = none ↔ ∀ m ∈ batch, ¬ (m.cf = cf ∧ m.key = key)
  := by
  simp [lastSlot]

/-- A batch of deletes leaves no value at its keys. -/
theorem lastSlot_deletes (cf cf' : ColumnFamily) (keys : List Bytes) (key : Bytes) :
  lastSlot (keys.map fun k => .delete cf k) cf' key
    = if cf' = cf ∧ key ∈ keys then some none else none
  := by
  induction keys using List.reverseRecOn with
  | nil => simp
  | append_singleton keys k ih =>
    rw [List.map_append, lastSlot_append, List.map_singleton, lastSlot_singleton]
    simp only [Mutation.cf, Mutation.key, Mutation.slot, List.mem_append, List.mem_singleton]
    grind

theorem MemState.writeBatch_append (t : MemState) (batch batch' : WriteBatch) :
  t.writeBatch (batch ++ batch') = (t.writeBatch batch).writeBatch batch'
  := List.foldl_append ..

/-- After a batch, a key holds what the batch leaves there, or else what it held. -/
theorem MemState.getElem?_writeBatch (t : MemState) (batch : WriteBatch) (cf : ColumnFamily)
    (key : Bytes) :
  ((t.writeBatch batch).cf cf)[key]? = (lastSlot batch cf key).getD (t.cf cf)[key]?
  := by
  induction batch using List.reverseRecOn with
  | nil => rfl
  | append_singleton batch m ih =>
    have hlast : (t.writeBatch batch).writeBatch [m] = (t.writeBatch batch).applyMutation m := rfl
    rw [writeBatch_append, hlast, getElem?_applyMutation, ih, lastSlot_append, lastSlot_singleton]
    split_ifs <;> rfl

/-- A batch of deletes of entries leaves no value at their keys. -/
theorem lastSlot_deleteEntries (cf cf' : ColumnFamily) (es : List ScanEntry) (key : Bytes) :
  lastSlot (es.map fun e => .delete cf e.1) cf' key
    = if cf' = cf ∧ key ∈ es.map Prod.fst then some none else none
  := by
  have hkeys : es.map (fun e => Mutation.delete cf e.1)
      = (es.map Prod.fst).map fun k => .delete cf k := by
    rw [List.map_map]
    rfl
  rw [hkeys, lastSlot_deletes]

variable {t : MemState}

/-- The keys of a range are those in it that hold a value. -/
theorem MemState.mem_keys_rows {cf : ColumnFamily} {start stop key : Bytes} :
  key ∈ (t.rows cf start stop).map Prod.fst
    ↔ (start ≤ key ∧ key < stop) ∧ (t.cf cf)[key]? ≠ none
  := by
  rw [List.mem_map, and_comm]
  constructor
  · rintro ⟨e, he, rfl⟩
    obtain ⟨hget, hlow, hhigh⟩ := mem_range.mp he
    use by simp [hget], Bound.below_included.mp hlow, Bound.above_excluded.mp hhigh
  · rintro ⟨hstored, hlow, hhigh⟩
    obtain ⟨x, hx⟩ := Option.ne_none_iff_exists'.mp hstored
    use (key, x), mem_range.mpr ⟨hx, Bound.below_included.mpr hlow, Bound.above_excluded.mpr hhigh⟩

/-- The tombstones of a range delete are for the keys of the range that hold a value. -/
theorem MemState.lastSlot_rows (t : MemState) (cf cf' : ColumnFamily) (start stop key : Bytes) :
  lastSlot ((t.rows cf start stop).map fun e => .delete cf e.1) cf' key
    = if cf' = cf ∧ (start ≤ key ∧ key < stop) ∧ (t.cf cf)[key]? ≠ none then some none else none
  := by
  rw [lastSlot_deleteEntries]
  simp [mem_keys_rows]

/-- After a range delete, the keys of the range hold nothing. -/
theorem MemState.getElem?_deleteRange (t : MemState) (cf cf' : ColumnFamily)
    (start stop key : Bytes) :
  ((t.deleteRange cf start stop).cf cf')[key]?
    = if cf' = cf ∧ start ≤ key ∧ key < stop then none else (t.cf cf')[key]?
  := by
  rw [deleteRange_eq_writeBatch, getElem?_writeBatch, lastSlot_rows]
  grind

/-! ## Batches in between -/

/-- Apply batches one after another. -/
def Shared.writes (s : Shared) (batches : List WriteBatch) : Shared :=
  batches.foldl (fun s batch => (s.apply batch none fun _ => true).1) s

/-- A range delete among batches: those of `gap` come between its walk and its tombstones. -/
def Shared.interleaved (s : Shared) (shard : Fin registryShards) (cf : ColumnFamily)
    (start stop : Bytes) (before gap after : List WriteBatch) : Shared :=
  let (s, tombstones) := (s.writes before).walkRange shard cf start stop
  ((s.writes gap).bury tombstones fun _ => true).1.writes after

variable {s : Shared}

theorem Matches.writes (h : Matches s t) (batches : List WriteBatch) :
  Matches (s.writes batches) (t.writeBatch batches.flatten)
  := by
  induction batches generalizing s t with
  | nil => apply h
  | cons batch batches ih =>
    rw [List.flatten_cons, writeBatch_append]
    apply ih
    apply (h.apply batch none _ rfl (fun _ => rfl) _).2.1
    rw [applied_writeBatch]
    rfl

/-- What a range delete among batches comes to. -/
theorem Matches.interleaved (h : Matches s t) (shard : Fin registryShards) (cf : ColumnFamily)
    (start stop : Bytes) (before gap after : List WriteBatch) :
  Matches (s.interleaved shard cf start stop before gap after)
    (t.writeBatch (before.flatten ++ gap.flatten
      ++ ((t.writeBatch before.flatten).rows cf start stop).map (fun e => .delete cf e.1)
      ++ after.flatten))
  := by
  obtain ⟨hbatch, hwalked, -⟩ := (h.writes before).walkRange shard cf start stop
  have hburied := ((hwalked.writes gap).bury
    ((s.writes before).walkRange shard cf start stop).2).2.1
  rw [← hbatch, writeBatch_append, writeBatch_append, writeBatch_append]
  apply hburied.writes

theorem ShowsAll.unique {version : ℕ} (h : ShowsAll s version t) (t' : MemState) :
  ShowsAll s version t' ↔ ∀ cf (key : Bytes), (t'.cf cf)[key]? = (t.cf cf)[key]?
  := by
  constructor
  · intro h' cf key
    apply (h' cf key).unique (h cf key)
  · intro heq cf key
    rw [heq]
    apply h

/-- A range delete that walked while `u` was visible takes place between the batches `early` and
`late` that came before its tombstones: `late` leaves no value at a key that was visible, and
what `early` left at another key is written again. -/
def Serial (u : MemState) (cf : ColumnFamily) (start stop : Bytes) (early late : WriteBatch) :
    Prop :=
  ∀ key, start ≤ key → key < stop →
    ((u.cf cf)[key]? ≠ none → (lastSlot late cf key).join = none)
    ∧ ((u.cf cf)[key]? = none → lastSlot late cf key ≠ none ∨ (lastSlot early cf key).join = none)

/-- The tombstones for the keys visible in `u` remove what a range delete between the batches
removes just in case the delete takes place there. -/
theorem serial_iff (u : MemState) (cf : ColumnFamily) (start stop : Bytes)
    (early late : WriteBatch) :
  Serial u cf start stop early late ↔ ∀ cf' (key : Bytes),
    ((((u.writeBatch early).deleteRange cf start stop).writeBatch late).cf cf')[key]?
      = ((u.writeBatch (early ++ late
          ++ (u.rows cf start stop).map fun e => .delete cf e.1)).cf cf')[key]?
  := by
  simp only [MemState.getElem?_writeBatch, MemState.getElem?_deleteRange, lastSlot_append,
    lastSlot_rows]
  constructor
  · intro h cf' key
    by_cases hin : cf' = cf ∧ start ≤ key ∧ key < stop
    · obtain ⟨rfl, hlow, hhigh⟩ := hin
      have hkey := h key hlow hhigh
      cases hl : lastSlot late cf' key <;> cases he : lastSlot early cf' key <;>
        cases hu : (u.cf cf')[key]? <;> simp_all
    · have hout : ¬ (cf' = cf ∧ (start ≤ key ∧ key < stop) ∧ (u.cf cf)[key]? ≠ none) :=
        fun hc => hin ⟨hc.1, hc.2.1⟩
      rw [if_neg hin, if_neg hout]
      cases lastSlot late cf' key <;> rfl
  · intro h key hlow hhigh
    have hkey := h cf key
    cases hl : lastSlot late cf key <;> cases he : lastSlot early cf key <;>
      cases hu : (u.cf cf)[key]? <;> simp_all

/-- The contents after a range delete at its place in a serial order of the batches. -/
def MemState.serialOrder (t : MemState) (cf : ColumnFamily) (start stop : Bytes)
    (earlier later : List WriteBatch) : MemState :=
  ((t.writeBatch earlier.flatten).deleteRange cf start stop).writeBatch later.flatten

/-- A range delete among batches comes to a serial order that keeps the order of the batches
and does not move the delete out of its calls just in case it takes place somewhere among the
batches that came between its walk and its tombstones. -/
theorem interleaved_serialOrder_iff {s : Shared} {t : MemState} (h : Matches s t)
    (shard : Fin registryShards) (cf : ColumnFamily) (start stop : Bytes)
    (before gap : List WriteBatch) :
  (∃ early late, gap = early ++ late ∧ ∀ after,
      ShowsAll (s.interleaved shard cf start stop before gap after)
        (s.interleaved shard cf start stop before gap after).visible
        (t.serialOrder cf start stop (before ++ early) (late ++ after)))
    ↔ ∃ early late, gap = early ++ late
      ∧ Serial (t.writeBatch before.flatten) cf start stop early.flatten late.flatten
  := by
  apply exists_congr
  intro early
  apply exists_congr
  intro late
  apply and_congr_right
  rintro rfl
  have hshows : ∀ after, _ := fun after =>
    (h.interleaved shard cf start stop before (early ++ late) after).current.unique
  simp only [hshows]
  simp only [serial_iff, MemState.serialOrder, List.flatten_append, writeBatch_append]
  constructor
  · intro hall
    apply hall []
  · intro hnow after cf' key
    rw [MemState.getElem?_writeBatch, hnow, ← MemState.getElem?_writeBatch]

/-- Batches that do not write to the range leave the delete where it is. -/
theorem interleaved_serialOrder_disjoint :
  Matches .new .empty ∧ ∃ early late, [[Mutation.put .default [9] [1]]] = early ++ late ∧
    ∀ after, ShowsAll
      (Shared.new.interleaved ⟨0, by decide⟩ .default [1] [5] [[.put .default [2] [0]]]
        [[.put .default [9] [1]]] after)
      (Shared.new.interleaved ⟨0, by decide⟩ .default [1] [5] [[.put .default [2] [0]]]
        [[.put .default [9] [1]]] after).visible
      (MemState.empty.serialOrder .default [1] [5] ([[.put .default [2] [0]]] ++ early)
        (late ++ after))
  := by
  use related_start.engine
  apply (interleaved_serialOrder_iff related_start.engine ..).mpr
  use [], [[.put .default [9] [1]]], rfl
  intro key hlow hhigh
  have hne : key ≠ [9] := by
    rintro rfl
    exact absurd hhigh (by decide)
  simp [lastSlot, Mutation.cf, Mutation.key, hne.symm]

/-- The rows an engine shows in `default`. -/
def Shared.defaultRows (s : Shared) : List ScanEntry :=
  View.page (s.trees .default) s.visible [] none 10

/-- A batch that writes one key that was visible in the range and one that was not, between the
walk and the tombstones: the first is deleted and the second is not, which no order of the
delete and the batch does. -/
theorem interleaved_not_serialOrder :
  let s := Shared.new.writes [[.put .default [1] [0]]]
  let batch := [Mutation.put .default [1] [7], .put .default [2] [7]]
  (s.interleaved ⟨0, by decide⟩ .default [1] [5] [] [batch] []).defaultRows = [([2], [7])]
    ∧ ((s.deleteRange ⟨0, by decide⟩ .default [1] [5] fun _ => true).1.writes [batch]).defaultRows
      = [([1], [7]), ([2], [7])]
    ∧ ((s.writes [batch]).deleteRange ⟨0, by decide⟩ .default [1] [5] fun _ => true).1.defaultRows = []
  := by
  decide

end Kv9.Engine
