import Kv9.Engine.Mem
import Kv9.Engine.Gc

/-!
# Sessions with an engine

A session is what callers do with an engine one call at a time: they write, take
snapshots and drop them, run legs of garbage collection, and read through the snapshots
they hold.  Snapshots and iterators are named by the order in which they were made.  An
iterator borrows its snapshot and cannot be used once the snapshot is dropped.

The calls are those of the engine traits, with the versioned engine and the
persistent-map engine as the two instances.
-/

namespace Kv9.Engine

/-- What one call answers. -/
inductive Answer where
  | done (result : Except Error Unit)
  | snapshot (id : ℕ) (applied : Option AppliedPosition)
  | iterator (id : ℕ)
  | value (value : Option Value)
  | rows (rows : List ScanEntry)
  | row (row : Option ScanEntry)
  /-- The snapshot or iterator named does not exist, or is dropped. -/
  | invalid

/-- One call.  A thread works with one shard of the registry; a call that takes a snapshot
says which.  A leg of garbage collection takes any cursor that a leg may have left. -/
inductive Call where
  | writeBatch (batch : WriteBatch)
  | writeApplied (batch : WriteBatch) (pos : AppliedPosition)
  | deleteRange (shard : Fin registryShards) (cf : ColumnFamily) (start stop : Bytes)
  | snapshot (shard : Fin registryShards)
  | positionedSnapshot (shard : Fin registryShards)
  | drop (id : ℕ)
  | gcStep (cursor : { cursor : GcCursor // cursor.Valid }) (chunk scanBudget : ℕ)
  | get (id : ℕ) (cf : ColumnFamily) (key : Bytes)
  | scan (id : ℕ) (cf : ColumnFamily) (start stop : Bytes) (limit : ℕ)
  | seekLe (id : ℕ) (cf : ColumnFamily) (target : Bytes)
  | iter (id : ℕ) (cf : ColumnFamily) (start stop : Bytes)
  | iterRev (id : ℕ) (cf : ColumnFamily) (start stop : Bytes)
  | next (id : ℕ)

/-- What an engine with states `σ`, snapshots `ω` and iterators `ι` does. -/
structure Api (σ ω ι : Type) where
  writeBatch : σ → WriteBatch → σ × Except Error Unit
  writeApplied : σ → WriteBatch → AppliedPosition → σ × Except Error Unit
  deleteRange : σ → Fin registryShards → ColumnFamily → Bytes → Bytes → σ × Except Error Unit
  snapshot : σ → Fin registryShards → σ × ω
  positionedSnapshot : σ → Fin registryShards → σ × ω × Option AppliedPosition
  drop : σ → ω → σ
  gcStep : σ → GcCursor → ℕ → ℕ → σ
  get : σ → ω → ColumnFamily → Bytes → Option Value
  scan : σ → ω → ColumnFamily → Bytes → Bytes → ℕ → List ScanEntry
  seekLe : σ → ω → ColumnFamily → Bytes → Option ScanEntry
  iter : ω → ColumnFamily → Bytes → Bytes → ι
  iterRev : ω → ColumnFamily → Bytes → Bytes → ι
  next : σ → ι → ι × Option ScanEntry

/-- The versioned engine, with memory for every insertion. -/
def versioned : Api Shared View Pages where
  writeBatch s batch := s.apply batch none fun _ => true
  writeApplied s batch pos := s.apply batch (some pos) fun _ => true
  deleteRange s shard cf start stop := s.deleteRange shard cf start stop fun _ => true
  snapshot s shard := View.current s shard
  positionedSnapshot s shard :=
    let (s, view, applied, _) := s.freezeParts shard
    (s, view, applied)
  drop s v := v.drop s
  gcStep s cursor chunk scanBudget := (gcStepWith chunk s cursor scanBudget).1
  get s v cf key := v.get s cf key
  scan s v cf start stop limit := v.scan s cf start stop limit
  seekLe s v cf target := v.seekLe s cf target
  iter v cf start stop := v.iter cf start stop
  iterRev v cf start stop := v.iterRev cf start stop
  next s p := p.next s

/-- The persistent-map engine: a snapshot is the state, and there is nothing to collect. -/
def persistent : Api MemState MemState (List ScanEntry) where
  writeBatch s batch := (s.writeBatch batch, .ok ())
  writeApplied s batch pos :=
    match s.writeApplied batch pos with
    | .ok s' => (s', .ok ())
    | .error e => (s, .error e)
  deleteRange s _ cf start stop := (s.deleteRange cf start stop, .ok ())
  snapshot s _ := (s, s)
  positionedSnapshot s _ := (s, s, s.applied)
  drop s _ := s
  gcStep s _ _ _ := s
  get _ w cf key := w.get cf key
  scan _ w cf start stop limit := w.scan cf start stop limit
  seekLe _ w cf target := w.seekLe cf target
  iter w cf start stop := w.rows cf start stop
  iterRev w cf start stop := (w.rows cf start stop).reverse
  next _ rows := (rows.tail, rows.head?)

/-- An engine, the snapshots taken of it and the iterators over them. -/
structure Session (σ ω ι : Type) where
  engine : σ
  snapshots : List (Option ω)
  iterators : List (ℕ × ι)

namespace Session

variable {σ ω ι : Type}

/-- A session that starts. -/
def start (s : σ) : Session σ ω ι := ⟨s, [], []⟩

/-- The snapshot of that name, unless it is dropped. -/
def live (c : Session σ ω ι) (id : ℕ) : Option ω := c.snapshots[id]?.join

/-- A read through a snapshot. -/
def read (c : Session σ ω ι) (id : ℕ) (f : ω → Answer) : Session σ ω ι × Answer :=
  (c, ((c.live id).map f).getD .invalid)

/-- A new iterator over a snapshot. -/
def openIterator (c : Session σ ω ι) (id : ℕ) (f : ω → ι) : Session σ ω ι × Answer :=
  match c.live id with
  | some w =>
    ({ c with iterators := c.iterators ++ [(id, f w)] }, .iterator c.iterators.length)
  | none => (c, .invalid)

/-- One call. -/
def step (E : Api σ ω ι) (c : Session σ ω ι) : Call → Session σ ω ι × Answer
  | .writeBatch batch =>
    let (s, result) := E.writeBatch c.engine batch
    ({ c with engine := s }, .done result)
  | .writeApplied batch pos =>
    let (s, result) := E.writeApplied c.engine batch pos
    ({ c with engine := s }, .done result)
  | .deleteRange shard cf start stop =>
    let (s, result) := E.deleteRange c.engine shard cf start stop
    ({ c with engine := s }, .done result)
  | .snapshot shard =>
    let (s, w) := E.snapshot c.engine shard
    ({ c with engine := s, snapshots := c.snapshots ++ [some w] },
      .snapshot c.snapshots.length none)
  | .positionedSnapshot shard =>
    let (s, w, applied) := E.positionedSnapshot c.engine shard
    ({ c with engine := s, snapshots := c.snapshots ++ [some w] },
      .snapshot c.snapshots.length applied)
  | .drop id =>
    match c.live id with
    | some w =>
      ({ c with engine := E.drop c.engine w, snapshots := c.snapshots.set id none }, .done (.ok ()))
    | none => (c, .invalid)
  | .gcStep cursor chunk scanBudget =>
    ({ c with engine := E.gcStep c.engine cursor chunk scanBudget }, .done (.ok ()))
  | .get id cf key => c.read id fun w => .value (E.get c.engine w cf key)
  | .scan id cf start stop limit => c.read id fun w => .rows (E.scan c.engine w cf start stop limit)
  | .seekLe id cf target => c.read id fun w => .row (E.seekLe c.engine w cf target)
  | .iter id cf start stop => c.openIterator id fun w => E.iter w cf start stop
  | .iterRev id cf start stop => c.openIterator id fun w => E.iterRev w cf start stop
  | .next id =>
    match c.iterators[id]? with
    | some (view, it) =>
      match c.live view with
      | some _ =>
        let (it, row) := E.next c.engine it
        ({ c with iterators := c.iterators.set id (view, it) }, .row row)
      | none => (c, .invalid)
    | none => (c, .invalid)

end Session

end Kv9.Engine
