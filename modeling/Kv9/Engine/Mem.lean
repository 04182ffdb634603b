import Kv9.Engine.Basic
import Kv9.Lib.OrderedMap

/-!
# The persistent-map engine

`MemEngine` holds one persistent ordered map for each column family.  Because the maps
are persistent, a snapshot is the state itself.  A batch is applied to the three maps
under one lock, together with the applied position it carries.
-/

namespace Kv9.Engine

/-- The contents of one column family. -/
abbrev CfMap := OrderedMap Bytes Value

/-- All column families as one value, with the position last applied. -/
structure MemState where
  default : CfMap
  lock : CfMap
  write : CfMap
  applied : Option AppliedPosition
  dataRevision : ℕ

namespace MemState

/-- The empty state. -/
def empty : MemState := ⟨∅, ∅, ∅, none, 0⟩

/-- The map of a column family. -/
def cf (s : MemState) : ColumnFamily → CfMap
  | .default => s.default
  | .lock => s.lock
  | .write => s.write

/-- Replace the map of a column family by its image under `f`. -/
def cfMut (s : MemState) (cf : ColumnFamily) (f : CfMap → CfMap) : MemState :=
  match cf with
  | .default => { s with default := f s.default }
  | .lock => { s with lock := f s.lock }
  | .write => { s with write := f s.write }

@[simp]
theorem cf_cfMut_self (s : MemState) (cf : ColumnFamily) (f : CfMap → CfMap) :
  (s.cfMut cf f).cf cf = f (s.cf cf)
  := by
  cases cf
  · rfl
  · rfl
  · rfl

theorem cf_cfMut_of_ne (s : MemState) {cf cf' : ColumnFamily} (f : CfMap → CfMap) (h : cf' ≠ cf) :
  (s.cfMut cf f).cf cf' = s.cf cf'
  := by
  cases cf <;> cases cf' <;> first | rfl | exact absurd rfl h

@[simp]
theorem applied_cfMut (s : MemState) (cf : ColumnFamily) (f : CfMap → CfMap) :
  (s.cfMut cf f).applied = s.applied
  := by
  cases cf
  · rfl
  · rfl
  · rfl

/-! ## Reads -/

/-- Point read. -/
def get (s : MemState) (cf : ColumnFamily) (key : Bytes) : Option Value :=
  (s.cf cf)[key]?

/-- The entries of `[start, stop)`, ascending. -/
def rows (s : MemState) (cf : ColumnFamily) (start stop : Bytes) : List ScanEntry :=
  OrderedMap.range (s.cf cf) (.included start) (.excluded stop)

/-- Forward range scan of `[start, stop)`, bounded by `limit`. -/
def scan (s : MemState) (cf : ColumnFamily) (start stop : Bytes) (limit : ℕ) : List ScanEntry :=
  (s.rows cf start stop).take limit

/-- The entry with the greatest key not above `target`. -/
def seekLe (s : MemState) (cf : ColumnFamily) (target : Bytes) : Option ScanEntry :=
  (OrderedMap.range (s.cf cf) .unbounded (.included target)).getLast?

/-! ## Writes -/

/-- Apply one mutation. -/
def applyMutation (s : MemState) : Mutation → MemState
  | .put cf key value => s.cfMut cf fun m => m.insert key value
  | .delete cf key => s.cfMut cf fun m => m.erase key

/-- Apply a batch. -/
def writeBatch (s : MemState) (batch : WriteBatch) : MemState :=
  batch.foldl applyMutation s

/-- Apply a batch and record its position. -/
def record (s : MemState) (batch : WriteBatch) (pos : AppliedPosition) : MemState :=
  let t := s.writeBatch batch
  { t with
    dataRevision :=
      if batch.any (fun m => changesDataRevision m.cf m.key) then
        min (t.dataRevision + 1) u64Max
      else
        t.dataRevision
    applied := some pos }

/-- Apply a batch at a replicated position.  A position that does not advance the index
is refused before anything is changed. -/
def writeApplied (s : MemState) (batch : WriteBatch) (pos : AppliedPosition) :
    Except Error MemState :=
  match s.applied with
  | some previous =>
    if pos.index ≤ previous.index then
      .error (.positionMustAdvance previous.index pos.index)
    else
      .ok (s.record batch pos)
  | none => .ok (s.record batch pos)

/-- Remove every entry of `[start, stop)`. -/
def deleteRange (s : MemState) (cf : ColumnFamily) (start stop : Bytes) : MemState :=
  let doomed := (s.rows cf start stop).map Prod.fst
  s.cfMut cf fun m => doomed.foldl (fun m k => m.erase k) m

end MemState

end Kv9.Engine
