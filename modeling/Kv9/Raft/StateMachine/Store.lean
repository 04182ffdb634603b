import Kv9.Common.Keys
import Kv9.Engine.Mem

/-!
# What ordered apply sees of an engine

Ordered apply reads single rows, writes a batch together with its position, and asks for the
position applied last.  An engine is modelled by what these calls can tell apart: its rows
and its position.  The persistent-map engine behaves as its rows do.
-/

namespace Kv9.Raft

open Engine Except

/-- The rows of all column families. -/
abbrev Rows := ColumnFamily → Bytes → Option Value

variable {batch : WriteBatch}

namespace Rows

/-- The rows after a mutation. -/
def mutate (rows : Rows) (m : Mutation) : Rows := fun cf key =>
  if cf = m.cf ∧ key = m.key then m.slot else rows cf key

/-- The rows after a batch. -/
def write (rows : Rows) (batch : WriteBatch) : Rows := batch.foldl mutate rows

@[simp]
theorem write_nil (rows : Rows) :
  rows.write [] = rows
  := rfl

@[simp]
theorem write_cons (rows : Rows) (m : Mutation) (batch : WriteBatch) :
  rows.write (m :: batch) = (rows.mutate m).write batch
  := rfl

theorem write_append (rows : Rows) (batch batch' : WriteBatch) :
  rows.write (batch ++ batch') = (rows.write batch).write batch'
  := List.foldl_append ..

theorem mutate_put (rows : Rows) (cf cf' : ColumnFamily) (key key' value : Bytes) :
  rows.mutate (.put cf key value) cf' key'
    = if cf' = cf ∧ key' = key then some value else rows cf' key'
  := rfl

variable {cf : ColumnFamily}

theorem mutate_delete (rows : Rows) (cf cf' : ColumnFamily) (key key' : Bytes) :
  rows.mutate (.delete cf key) cf' key' = if cf' = cf ∧ key' = key then none else rows cf' key'
  := rfl

variable {rows : Rows} {key : Bytes}

/-- A batch leaves a row alone that none of its mutations names. -/
theorem write_of_forall_ne (h : ∀ m ∈ batch, ¬ (cf = m.cf ∧ key = m.key)) :
  rows.write batch cf key = rows cf key
  := by
  induction batch generalizing rows with
  | nil => rfl
  | cons m batch ih =>
    have hm := h m (List.mem_cons_self ..)
    rw [write_cons, ih fun m' hm' => h m' (List.mem_cons_of_mem m hm'), mutate, if_neg hm]

/-- After a batch a row is the same whatever it was before, if the batch names it. -/
theorem write_congr {rows' : Rows}
    (h : rows cf key = rows' cf key ∨ ∃ m ∈ batch, cf = m.cf ∧ key = m.key) :
  rows.write batch cf key = rows'.write batch cf key
  := by
  induction batch generalizing rows rows' with
  | nil => exact h.resolve_right (by simp)
  | cons first batch ih =>
    apply ih
    rw [mutate, mutate]
    split_ifs with hfirst
    · left
      rfl
    · obtain h | ⟨m, hm, hrow⟩ := h
      · left
        apply h
      · right
        obtain rfl | hm := List.mem_cons.mp hm
        · exact absurd hrow hfirst
        · exact ⟨m, hm, hrow⟩

/-- The row a batch changes is named by one of its mutations. -/
theorem exists_of_write_ne (h : rows.write batch cf key ≠ rows cf key) :
  ∃ m ∈ batch, cf = m.cf ∧ key = m.key
  := by
  by_contra hnone
  push Not at hnone
  apply h
  apply write_of_forall_ne
  intro m hm heq
  exact hnone m hm heq.1 heq.2

end Rows

/-- What ordered apply sees of an engine. -/
structure Store where
  rows : Rows
  applied : Option AppliedPosition

namespace Store

/-- An engine that has applied nothing. -/
def empty : Store := ⟨fun _ _ => none, none⟩

/-- Point read. -/
def get (s : Store) (cf : ColumnFamily) (key : Bytes) : Option Value := s.rows cf key

/-- Apply a batch and record its position, as one.  The index must advance. -/
def writeApplied (s : Store) (batch : WriteBatch) (pos : AppliedPosition) :
    Except Error Store := do
  failIf (∃ previous ∈ s.applied, pos.index ≤ previous.index)
    (.engine "applied position must advance")
  return ⟨s.rows.write batch, some pos⟩

/-- The index of the position applied last, or zero. -/
def appliedIndex (s : Store) : UInt64 :=
  match s.applied with
  | some pos => pos.index
  | none => 0

theorem writeApplied_eq_ok {s s' : Store} {pos : AppliedPosition} :
  s.writeApplied batch pos = .ok s'
    ↔ (∀ previous ∈ s.applied, previous.index < pos.index) ∧ s' = ⟨s.rows.write batch, some pos⟩
  := by
  rw [writeApplied, bind_eq_ok]
  constructor
  · rintro ⟨_, hadvance, h⟩
    rw [failIf_eq_ok] at hadvance
    push Not at hadvance
    cases h
    exact ⟨hadvance, rfl⟩
  · rintro ⟨hadvance, rfl⟩
    refine ⟨(), ?_, rfl⟩
    rw [failIf_eq_ok]
    push Not
    exact hadvance

end Store

/-! ## The persistent-map engine -/

/-- What ordered apply sees of the persistent-map engine. -/
def Store.ofMem (s : MemState) : Store := ⟨s.get, s.applied⟩

theorem get_applyMutation (s : MemState) (m : Mutation) :
  (s.applyMutation m).get = Rows.mutate s.get m
  := by
  funext cf key
  rw [Rows.mutate]
  cases m with
  | put cf' key' | delete cf' key' =>
    rw [MemState.get, MemState.applyMutation]
    by_cases hcf : cf = cf'
    · subst hcf
      simp only [MemState.cf_cfMut_self, OrderedMap.getElem?_insert, OrderedMap.getElem?_erase]
      by_cases hkey : key = key'
      · simp [Mutation.cf, Mutation.key, Mutation.slot, hkey]
      · simp [Mutation.cf, Mutation.key, hkey, Ne.symm hkey, MemState.get]
    · rw [MemState.cf_cfMut_of_ne _ _ hcf]
      simp [Mutation.cf, hcf, MemState.get]

theorem get_writeBatch (s : MemState) (batch : WriteBatch) :
  (s.writeBatch batch).get = Rows.write s.get batch
  := by
  induction batch generalizing s with
  | nil => rfl
  | cons m batch ih =>
    rw [Rows.write_cons, ← get_applyMutation]
    apply ih

theorem get_record (s : MemState) (batch : WriteBatch) (pos : AppliedPosition) :
  (s.record batch pos).get = Rows.write s.get batch
  := by
  rw [← get_writeBatch]
  funext cf key
  cases cf
  · rfl
  · rfl
  · rfl

/-- The persistent-map engine accepts the writes its rows accept, and shows the same rows
after them. -/
theorem ofMem_writeApplied (s : MemState) (batch : WriteBatch) (pos : AppliedPosition)
    (s' : Store) :
  (Store.ofMem s).writeApplied batch pos = .ok s'
    ↔ ∃ t, s.writeApplied batch pos = .ok t ∧ Store.ofMem t = s'
  := by
  have hrecord : Store.ofMem (s.record batch pos) = ⟨Rows.write s.get batch, some pos⟩ := by
    rw [Store.ofMem, get_record]
    rfl
  rw [Store.writeApplied_eq_ok]
  change (∀ previous ∈ s.applied, previous.index < pos.index)
    ∧ s' = ⟨Rows.write s.get batch, some pos⟩ ↔ _
  rw [← hrecord, MemState.writeApplied]
  cases happlied : s.applied with
  | none => simp [eq_comm]
  | some previous =>
    by_cases hle : pos.index ≤ previous.index
    · simp [hle]
    · simp [hle, lt_of_not_ge hle, eq_comm]

/-- In every run of positioned writes the persistent-map engine refuses what its rows refuse, and
shows the same rows at the same position. -/
theorem mem_refines_rows (s : MemState) (writes : List (WriteBatch × AppliedPosition))
    (s' : Store) :
  writes.foldlM (fun s write => s.writeApplied write.1 write.2) (Store.ofMem s) = .ok s'
    ↔ ∃ t, writes.foldlM (fun t write => t.writeApplied write.1 write.2) s = .ok t
      ∧ Store.ofMem t = s'
  := by
  induction writes generalizing s with
  | nil => simp
  | cons write writes ih =>
    simp only [List.foldlM_cons, bind_eq_ok, ofMem_writeApplied]
    constructor
    · rintro ⟨_, ⟨t, ht, rfl⟩, h⟩
      obtain ⟨t', ht', hs'⟩ := (ih t).mp h
      use t', ⟨t, ht, ht'⟩, hs'
    · rintro ⟨t', ⟨t, ht, ht'⟩, hs'⟩
      use Store.ofMem t, ⟨t, ht, rfl⟩
      apply (ih t).mpr ⟨t', ht', hs'⟩

end Kv9.Raft
