import Kv9.Lib.Overlay
import Kv9.Meta.Codec

/-!
# Catalog transactions

A transaction reads one view of the store and keeps its own writes in an overlay: a put or a
tombstone for every key it has changed.  Rows are inserted, updated and deleted together with
their index entries, after the primary key, the unique indexes and the references were checked
against the merged view.  A call collects its edits and adds them to the overlay last.
-/

namespace Kv9.Meta

open Codec Except

/-! ## The revision of the task table -/

/-- The key of the revision. -/
def taskHistoryKey : Bytes := [0] ++ ("kv9".toUTF8.data.toList ++ ([0]
  ++ ("task_history_revision".toUTF8.data.toList ++ [0])))

/-- How often the task table was changed, and whether a change may have hidden a task. -/
structure Revision where
  sequence : UInt64
  uncertain : Bool
deriving DecidableEq

namespace Revision

def magic : Bytes := "KV9THR01".toUTF8.data.toList

/-- The revision of a table that was never changed. -/
def initial : Revision := ⟨0, false⟩

/-- The stored revision, with its checksum. -/
def encode (sha256 : Bytes → RootDigest) (r : Revision) : Bytes :=
  let bytes := magic ++ (be64 r.sequence ++ [if r.uncertain then 1 else 0])
  bytes ++ (sha256 bytes).bytes

/-- Read a revision back. -/
def decode (sha256 : Bytes → RootDigest) (bytes : Bytes) : Except Error Revision := do
  failIf (bytes.length ≠ 49 ∨ ¬ magic.isPrefixOf bytes
      ∨ (sha256 (bytes.take 17)).bytes ≠ bytes.drop 17)
    (.config "task revision checksum or length")
  let flag := bytes.getD 16 0
  failIf (flag ≠ 0 ∧ flag ≠ 1) (.config "task revision flag")
  let value : Revision := ⟨fromBe64 ((bytes.drop 8).take 8), flag = 1⟩
  failIf (value.sequence = 0 ∨ value.encode sha256 ≠ bytes) (.config "noncanonical task revision")
  return value

/-- The stored revision after one more change. -/
def next (sha256 : Bytes → RootDigest) (previous : Option Bytes) (uncertain : Bool) :
    Except Error Bytes := do
  let old ← match previous with
    | none => .ok initial
    | some bytes => decode sha256 bytes
  match checkedAdd64 old.sequence 1 with
  | none => .error (.config "task revision exhausted")
  | some sequence => return encode sha256 ⟨sequence, old.uncertain || uncertain⟩

end Revision

/-! ## Checks on one row -/

/-- The part of a key a value is encoded as. -/
def ColumnValue.component : ColumnValue → Option PkComponent
  | .uint v => some (memcmpUint v)
  | .text s => some (memcmpText s)
  | .bytes b => some (memcmpBytes b)
  | .unknown .. => none

/-- Whether a value has the type of its column. -/
def ColumnValue.hasType : ColumnValue → ColumnType → Bool
  | .uint _, .uint => true
  | .text _, .text => true
  | .bytes _, .bytes => true
  | _, _ => false

/-- A column of the primary key agrees with the key, if the row has it. -/
def checkPkColumn (table : TableDesc) (value : RowValue) (column : ColumnDesc)
    (component : PkComponent) : Except Error Unit :=
  match value.get column.id with
  | none => .ok ()
  | some v =>
    match v.component with
    | none => .error (.malformedKey ("mistyped primary key column in `" ++ table.name ++ "`"))
    | some expected =>
      failIf (component ≠ expected)
        (.malformedKey ("primary key and row disagree in `" ++ table.name ++ "`"))

/-- A column has its declared type, if the row has it. -/
def checkColumn (table : TableDesc) (value : RowValue) (column : ColumnDesc) :
    Except Error Unit :=
  match value.get column.id with
  | none => .ok ()
  | some v =>
    failIf (v.hasType column.ty = false)
      (.malformedKey ("mistyped column " ++ column.name ++ " in `" ++ table.name ++ "`"))

/-- The columns that indexes and references read. -/
def TableDesc.constrained (table : TableDesc) : List ColumnId :=
  table.indexes.flatMap (·.columns) ++ table.fks.map (·.column)

/-- Check a row against its table and its primary key. -/
def validateRow (table : TableDesc) (pk : List PkComponent) (value : RowValue) :
    Except Error Unit := do
  failIf (table.pkColumns.length ≠ pk.length) (.malformedKey "catalog primary key arity mismatch")
  (table.pkColumns.zip pk).forM fun p => checkPkColumn table value p.1 p.2
  table.columns.forM fun column => checkColumn table value column
  table.constrained.forM fun column =>
    failIf (value.get column = none) (.malformedKey
      ("missing constrained column " ++ toString column ++ " in `" ++ table.name ++ "`"))

/-- The indexed columns of a row.  A missing column is indexed as the empty byte string. -/
def indexColumns (table : TableDesc) (index : IndexDesc) (value : RowValue) :
    Except Error (List PkComponent) :=
  index.columns.mapM fun col =>
    match value.get col with
    | none => .ok (memcmpBytes [])
    | some v =>
      match v.component with
      | some component => .ok component
      | none => .error (.malformedKey
          ("indexed column " ++ toString col ++ " in `" ++ table.name ++ "` has unknown type"))

/-! ## Transactions -/

/-- A transaction: the view it reads, and its own writes. -/
structure Txn where
  view : OrderedMap Bytes Bytes
  overlay : OrderedMap Bytes (Option Bytes)

/-- The edits of one call.  Of two edits of one key the later counts. -/
abbrev Pending := List (Bytes × Option Bytes)

namespace Txn

/-- A transaction that has written nothing. -/
def start (view : OrderedMap Bytes Bytes) : Txn := ⟨view, ∅⟩

/-- The merged view. -/
def readKv (t : Txn) (key : Bytes) : Option Bytes := Overlay.lookup t.overlay t.view key

/-- The merged entries of a range. -/
def mergedRange (t : Txn) (start stop : Bytes) (rev : Bool) : List (Bytes × Bytes) :=
  Overlay.range t.overlay t.view start stop rev

/-- Add the edits of a call. -/
def extend (t : Txn) (pending : Pending) : Txn :=
  { t with overlay := t.overlay.extend pending }

/-- Every change of the task table moves its revision. -/
def markTaskChange (sha256 : Bytes → RootDigest) (t : Txn) (table : TableDesc)
    (uncertain : Bool) : Except Error Pending :=
  if table.id = tasks then do
    let next ← Revision.next sha256 (t.readKv taskHistoryKey) uncertain
    return [(taskHistoryKey, some next)]
  else .ok []

/-- A row by its primary key. -/
def get (t : Txn) (table : TableDesc) (pk : List PkComponent) : Except Error (Option RowValue) := do
  let key ← encodeRowKey table.id pk
  match t.readKv key with
  | none => return none
  | some bytes =>
    let value ← RowValue.decode bytes
    validateRow table pk value
    return some value

/-- No row of another table references the row. -/
def checkReferences (t : Txn) (parent : TableDesc) (pk : List PkComponent) : Except Error Unit :=
  allTables.forM fun child =>
    (child.fks.filter (·.references = parent.id)).forM fun fk => do
      let (start, stop) ← rowRange child.id
      (t.mergedRange start stop false).forM fun entry => do
        let row ← RowValue.decode entry.2
        match row.get fk.column with
        | some (.uint id) =>
          failIf (pk = [memcmpUint id]) (.writeConflict
            ("cannot delete `" ++ parent.name ++ "`: referenced by `" ++ child.name ++ "`"))
        | _ => .ok ()

/-- Every reference of the row is to a row. -/
def checkForeignKeys (t : Txn) (table : TableDesc) (value : RowValue) : Except Error Unit :=
  table.fks.forM fun fk =>
    match value.get fk.column with
    | none => .ok ()
    | some (.uint id) =>
      match tableDesc fk.references with
      | none => .error (.notImplemented "FK references unknown table")
      | some parent => do
        let parentKey ← encodeRowKey parent.id [memcmpUint id]
        failIf (t.readKv parentKey = none) (.writeConflict
          ("FK violation: `" ++ table.name ++ "`.col" ++ toString fk.column ++ " = "
            ++ toString id ++ " has no row in `" ++ parent.name ++ "`"))
    | some _ => .error (.malformedKey
        ("FK column " ++ toString fk.column ++ " in `" ++ table.name ++ "` must be a uint"))

/-- The error of a duplicate in a unique index. -/
def uniqueViolated (table : TableDesc) (index : IndexDesc) : Error :=
  .writeConflict ("unique index `" ++ table.name ++ "." ++ index.name ++ "` violated")

/-- The index entry of a new row. -/
def insertIndex (t : Txn) (table : TableDesc) (pk : List PkComponent) (value : RowValue)
    (index : IndexDesc) : Except Error (Bytes × Option Bytes) := do
  let cols ← indexColumns table index value
  if index.unique then
    let key ← encodeIndexKey table.id index.id cols []
    failIf (t.readKv key ≠ none) (uniqueViolated table index)
    return (key, some (indexValue pk))
  else
    let key ← encodeIndexKey table.id index.id cols pk
    return (key, some [])

/-- The edits of an insert. -/
def insertPending (sha256 : Bytes → RootDigest) (t : Txn) (table : TableDesc)
    (pk : List PkComponent) (value : RowValue) : Except Error Pending := do
  let key ← encodeRowKey table.id pk
  failIf (t.readKv key ≠ none)
    (.writeConflict ("duplicate primary key in `" ++ table.name ++ "`"))
  validateRow table pk value
  t.checkForeignKeys table value
  let entries ← table.indexes.mapM (t.insertIndex table pk value)
  let mark ← t.markTaskChange sha256 table false
  return entries ++ [(key, some value.encode)] ++ mark

/-- The edits of an index whose columns may have changed. -/
def updateIndex (t : Txn) (table : TableDesc) (pk : List PkComponent) (old new : RowValue)
    (index : IndexDesc) : Except Error Pending := do
  let oldCols ← indexColumns table index old
  let newCols ← indexColumns table index new
  if oldCols = newCols then return []
  else if index.unique then
    let oldKey ← encodeIndexKey table.id index.id oldCols []
    let newKey ← encodeIndexKey table.id index.id newCols []
    failIf (t.readKv newKey ≠ none) (uniqueViolated table index)
    return [(oldKey, none), (newKey, some (indexValue pk))]
  else
    let oldKey ← encodeIndexKey table.id index.id oldCols pk
    let newKey ← encodeIndexKey table.id index.id newCols pk
    return [(oldKey, none), (newKey, some [])]

/-- An update that changes a task moves the revision.  A change of a range binding leaves no doubt
about the tasks. -/
def markUpdate (sha256 : Bytes → RootDigest) (t : Txn) (table : TableDesc) (old new : RowValue) :
    Except Error Pending :=
  if new ≠ old then
    t.markTaskChange sha256 table (decide (old.get 2 ≠ new.get 2 ∨ old.get 2 ≠ some (.uint 102)))
  else .ok []

/-- The edits of an update. -/
def updatePending (sha256 : Bytes → RootDigest) (t : Txn) (table : TableDesc)
    (pk : List PkComponent) (changes : List (ColumnId × ColumnValue)) : Except Error Pending := do
  let key ← encodeRowKey table.id pk
  match t.readKv key with
  | none => .error (.writeConflict ("update of missing row in `" ++ table.name ++ "`"))
  | some oldBytes =>
    let old ← RowValue.decode oldBytes
    let new := changes.foldl (fun row c => row.set c.1 c.2) old
    validateRow table pk new
    t.checkForeignKeys table new
    let entries ← table.indexes.mapM (t.updateIndex table pk old new)
    let mark ← t.markUpdate sha256 table old new
    return entries.flatten ++ [(key, some new.encode)] ++ mark

/-- The index entry that goes with a row. -/
def deleteIndex (table : TableDesc) (pk : List PkComponent) (value : RowValue)
    (index : IndexDesc) : Except Error (Bytes × Option Bytes) := do
  let cols ← indexColumns table index value
  let key ← if index.unique then encodeIndexKey table.id index.id cols []
    else encodeIndexKey table.id index.id cols pk
  return (key, none)

/-- The edits of a delete.  There is nothing to delete where there is no row. -/
def deletePending (sha256 : Bytes → RootDigest) (t : Txn) (table : TableDesc)
    (pk : List PkComponent) : Except Error Pending := do
  let key ← encodeRowKey table.id pk
  match t.readKv key with
  | none => return []
  | some bytes =>
    t.checkReferences table pk
    let value ← RowValue.decode bytes
    let entries ← table.indexes.mapM (deleteIndex table pk value)
    let mark ← t.markTaskChange sha256 table true
    return entries ++ [(key, none)] ++ mark

end Txn

/-- The sequences of identifiers. -/
inductive SequenceKind where
  | tenant
  | keyspace
  | region
  | task
  | sstFile
  | node
deriving DecidableEq

/-- The stored number of a sequence. -/
def SequenceKind.code : SequenceKind → UInt64
  | .tenant => 1
  | .keyspace => 2
  | .region => 5
  | .task => 6
  | .sstFile => 7
  | .node => 8

def SequenceKind.name : SequenceKind → String
  | .tenant => "Tenant"
  | .keyspace => "Keyspace"
  | .region => "Region"
  | .task => "Task"
  | .sstFile => "SstFile"
  | .node => "Node"

/-- The first identifier that is allocated. -/
def firstDynamicId : UInt64 := 100

namespace Txn

/-- The identifier a sequence stands at. -/
def nextOf : Option RowValue → Except Error UInt64
  | some row =>
    match row.get 2 with
    | some (.uint v) => .ok v
    | _ => .error (.malformedKey "id_sequences.next missing or mistyped")
  | none => .ok firstDynamicId

/-- The next identifier of a sequence, and the edits that move it. -/
def allocatePending (t : Txn) (kind : SequenceKind) : Except Error (UInt64 × Pending) := do
  let pk := [memcmpUint kind.code]
  let next ← nextOf (← t.get idSequencesDesc pk)
  let row := RowValue.new.set 1 (.uint kind.code)
  match checkedAdd64 next 1 with
  | none => .error (.writeConflict ("id sequence " ++ kind.name ++ " exhausted"))
  | some successor =>
    failIf (kind = .keyspace ∧ maxKeyspace.toUInt64 < next)
      (.writeConflict "keyspace id sequence exhausted")
    let key ← encodeRowKey idSequencesDesc.id pk
    return (next, [(key, some (row.set 2 (.uint successor)).encode)])

/-- A call changes the overlay only once all its checks have passed. -/
def finish {α : Type} (t : Txn) : Except Error (α × Pending) → Except Error α × Txn
  | .error e => (.error e, t)
  | .ok (answer, pending) => (.ok answer, t.extend pending)

/-- Insert a row with its index entries. -/
def insert (sha256 : Bytes → RootDigest) (t : Txn) (table : TableDesc) (pk : List PkComponent)
    (value : RowValue) : Except Error Unit × Txn :=
  t.finish ((t.insertPending sha256 table pk value).map ((), ·))

/-- Change columns of a row, and its index entries with them. -/
def update (sha256 : Bytes → RootDigest) (t : Txn) (table : TableDesc) (pk : List PkComponent)
    (changes : List (ColumnId × ColumnValue)) : Except Error Unit × Txn :=
  t.finish ((t.updatePending sha256 table pk changes).map ((), ·))

/-- Delete a row with its index entries. -/
def delete (sha256 : Bytes → RootDigest) (t : Txn) (table : TableDesc) (pk : List PkComponent) :
    Except Error Unit × Txn :=
  t.finish ((t.deletePending sha256 table pk).map ((), ·))

/-- Allocate the next identifier of a sequence. -/
def allocateId (t : Txn) (kind : SequenceKind) : Except Error UInt64 × Txn :=
  t.finish (t.allocatePending kind)

end Txn

end Kv9.Meta
