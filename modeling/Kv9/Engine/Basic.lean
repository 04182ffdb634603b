import Kv9.Common.Bytes

/-!
# Column families and write batches

The engine stores three column families.  A write batch is a list of mutations, each a
put or a delete of one key in one column family, applied in order and as a whole.
-/

namespace Kv9

/-- The replicated position of an applied entry. -/
structure AppliedPosition where
  term : UInt64
  index : UInt64
deriving DecidableEq, Repr

namespace Engine

/-- The column families, in their stable order. -/
inductive ColumnFamily where
  | default
  | lock
  | write
deriving DecidableEq, Repr

/-- All column families, in a stable order. -/
def ColumnFamily.all : List ColumnFamily := [.default, .lock, .write]

instance neZero_three : NeZero 3 := ⟨by decide⟩

/-- The position of a column family in `ColumnFamily.all`. -/
def ColumnFamily.ofFin : Fin 3 → ColumnFamily
  | 0 => .default
  | 1 => .lock
  | 2 => .write

/-- A single mutation within a batch. -/
inductive Mutation where
  | put (cf : ColumnFamily) (key : UserKey) (value : Value)
  | delete (cf : ColumnFamily) (key : UserKey)
deriving DecidableEq, Repr

/-- The column family a mutation changes. -/
def Mutation.cf : Mutation → ColumnFamily
  | .put cf _ _ => cf
  | .delete cf _ => cf

/-- The key a mutation changes. -/
def Mutation.key : Mutation → UserKey
  | .put _ key _ => key
  | .delete _ key => key

/-- What a mutation stores at its key: a value, or nothing. -/
def Mutation.slot : Mutation → Option Value
  | .put _ _ value => some value
  | .delete _ _ => none

/-- Mutations applied together, in order. -/
abbrev WriteBatch := List Mutation

/-- One entry of a range scan. -/
abbrev ScanEntry := UserKey × Value

/-- Why a write is refused. -/
inductive Error where
  /-- The applied position must advance: the index last applied, and the one refused. -/
  | positionMustAdvance (last refused : UInt64)
  /-- Out of memory for a versioned entry. -/
  | outOfMemory
deriving DecidableEq, Repr

/-- The largest 64-bit number, at which counters saturate. -/
def u64Max : ℕ := 2 ^ 64 - 1

/-- The key of the confirmed compaction decision: `s\0\0\0kv9.compaction-confirmed.v1`. -/
def compactionConfirmedKey : Bytes :=
  [0x73, 0, 0, 0] ++ "kv9.compaction-confirmed.v1".toUTF8.toList

/-- Whether a mutation of `key` advances the data revision.  Internal maintenance records
of the default column family do not; the same bytes elsewhere are user data. -/
def changesDataRevision (cf : ColumnFamily) (key : Bytes) : Bool :=
  cf != .default ||
    !(([0] ++ "kv9".toUTF8.toList ++ [0] ++ "manifest_".toUTF8.toList).isPrefixOf key ||
      ([0] ++ "kv9".toUTF8.toList ++ [0] ++ "retention_v1".toUTF8.toList ++ [0]).isPrefixOf key ||
      key == compactionConfirmedKey)

end Engine

end Kv9
