import Kv9.Engine.Registry
import Kv9.Engine.Gc

/-!
# Concurrent readers, writers and collectors

The engine is shared by threads.  A writer holds the writer lock from the moment it
chooses its version until that version is published; the lock `published` is held while
the published version and the watermark are set, and while a positioned view reads the
published version and registers itself.  A view of the watermark takes no lock: it loads
the watermark, registers what it loaded, and loads the watermark again.  A collector loads
the watermark, reads the shards of the registry one after another, and then walks and
removes entries; at every step of its walk it meets the least stored entry ahead of it.

A step of the system is one such action of one thread.  The system also records the
history of everything ever stored and what the collectors removed.
-/

namespace Kv9.Engine

open OrderedMap

/-- Where the holder of the writer lock stands, if there is one. -/
inductive Writer where
  | idle
  /-- A batch is being inserted under `version`. -/
  | inserting (version : ℕ) (rest : WriteBatch) (pos : Option AppliedPosition) (changes : Bool)
  /-- The published version is set, the watermark is not. -/
  | publishing (version : ℕ)
  /-- The watermark is set. -/
  | stored (version : ℕ)
  /-- The lock `published` is released; the version handed out is not yet recorded. -/
  | finishing (version : ℕ)
  /-- A range delete reads through the view of that number. -/
  | deleting (view : ℕ)

/-- Who holds the lock `published`. -/
inductive Holder where
  | writer
  | reader (id : ℕ)

/-- Where a thread that takes a view stands. -/
inductive Reader where
  /-- `View::current` has loaded the watermark `v0`. -/
  | loaded (v0 : ℕ)
  /-- `View::current` has registered `v0`, and not yet loaded the watermark again. -/
  | registered (v0 : ℕ) (shard : Fin registryShards)
  /-- `freeze_parts` holds `published` and has read its version. -/
  | freezing (version : ℕ)
  | live (view : View)
  | dropped

/-- What a collector works with during one leg. -/
structure Leg where
  cursor : GcCursor
  scanBudget : ℕ
  chunk : ℕ
  oldest : ℕ

/-- Where a collector stands. -/
inductive Collector where
  /-- Between two legs. -/
  | idle (cursor : GcCursor)
  /-- The shards `left` are still to be read. -/
  | reading (cursor : GcCursor) (scanBudget chunk : ℕ) (oldest : ℕ)
      (left : List (Fin registryShards))
  /-- The entries above `lo` are still to be visited. -/
  | walking (leg : Leg) (lo : Bound VersionedKey) (walk : GcWalk)
  /-- The entries `doomed` are still to be removed, the last one first. -/
  | removing (leg : Leg) (walk : GcWalk) (doomed : List VersionedKey)

namespace Leg

/-- The column family a leg works on. -/
def cf (leg : Leg) : ColumnFamily := .ofFin leg.cursor.cf

/-- The start of a walk. -/
def start (leg : Leg) (scanned : ℕ) : Collector :=
  .walking leg leg.cursor.lower ⟨leg.cursor.current, leg.cursor.kept, scanned, [], none, false⟩

/-- After a visit of the entry `e`. -/
def visited (leg : Leg) (walk : GcWalk) (e : VersionedKey × Slot) : Collector :=
  match gcVisit leg.oldest leg.scanBudget leg.chunk e walk with
  | .yield w => .walking leg (.excluded e.1) w
  | .done w => .removing leg w w.doomed

/-- After the removals of a walk: the next walk, or the end of the leg. -/
def proceed (leg : Leg) (w : GcWalk) : Collector :=
  match w.resume with
  | some next =>
    let cursor := { leg.cursor with resume := some next, current := w.current, kept := w.kept }
    if w.budgetSpent then .idle cursor else start { leg with cursor := cursor } w.scanned
  | none =>
    if leg.cursor.cf = 2 then
      .idle ⟨0, none, none, false⟩
    else
      let cursor := ⟨leg.cursor.cf + 1, none, none, false⟩
      if leg.scanBudget ≤ w.scanned then .idle cursor
      else start { leg with cursor := cursor } w.scanned

end Leg

/-- What a collector makes of one more shard: the least version registered there, if there
is one, bounds the oldest live version. -/
def readShard (oldest : ℕ) (shard : RegistryShard) : ℕ :=
  match shard.keys.head? with
  | none => oldest
  | some first => min first oldest

/-- The engine and the threads that work with it. -/
structure World where
  shared : Shared
  writer : Writer
  /-- The holder of the lock `published`. -/
  lock : Option Holder
  readers : List Reader
  collectors : ℕ → Collector
  /-- Everything ever stored. -/
  history : ColumnFamily → Versions Bytes ℕ Value
  /-- What the collectors removed: column family, key, version and slot. -/
  removed : List (ColumnFamily × Bytes × ℕ × Slot)

namespace World

/-- An empty engine, before anything happens. -/
def init : World where
  shared := .new
  writer := .idle
  lock := none
  readers := []
  collectors _ := .idle ⟨0, none, none, false⟩
  history _ _ _ := none
  removed := []

/-- Let the collector `c` stand at `next`. -/
def moveCollector (w : World) (c : ℕ) (next : Collector) : World :=
  { w with collectors := Function.update w.collectors c next }

/-- Insert a mutation at `version`. -/
def insert (w : World) (version : ℕ) (m : Mutation) : World :=
  { w with
    shared := w.shared.treeMut m.cf fun t => t.insert (.new m.key version) m.slot
    history := Function.update w.history m.cf ((w.history m.cf).put m.key version m.slot) }

/-- What removing `k` from the tree of `cf` takes out. -/
def taken (w : World) (cf : ColumnFamily) (k : VersionedKey) :
    List (ColumnFamily × Bytes × ℕ × Slot) :=
  match k.version, (w.shared.trees cf)[k]? with
  | (n : ℕ), some slot => [(cf, k.key, n, slot)]
  | _, _ => []

/-- Remove an entry. -/
def remove (w : World) (cf : ColumnFamily) (k : VersionedKey) : World :=
  { w with
    shared := w.shared.treeMut cf fun t => t.erase k
    removed := w.removed ++ w.taken cf k }

end World

/-- One action of one thread. -/
inductive Step : World → World → Prop where
  /-- A writer takes the writer lock, passes the check of its position, which takes the
  lock `published` for a moment, and chooses its version. -/
  | begin {w : World} (batch : WriteBatch) (pos : Option AppliedPosition) :
      w.writer = .idle → w.lock = none → w.shared.refuses pos = none →
      Step w { w with writer := .inserting (w.shared.writer + 1) batch pos
                        (batch.any fun m => changesDataRevision m.cf m.key) }
  | insert {w : World} {version : ℕ} {m : Mutation} {rest : WriteBatch}
      {pos : Option AppliedPosition} {changes : Bool} :
      w.writer = .inserting version (m :: rest) pos changes →
      Step w { w.insert version m with writer := .inserting version rest pos changes }
  /-- There is no memory for an insertion: the batch fails and leaves what it inserted. -/
  | fail {w : World} {version : ℕ} {m : Mutation} {rest : WriteBatch}
      {pos : Option AppliedPosition} {changes : Bool} :
      w.writer = .inserting version (m :: rest) pos changes →
      Step w { w with writer := .idle }
  /-- The writer takes the lock `published` and sets the published version. -/
  | publish {w : World} {version : ℕ} {pos : Option AppliedPosition} {changes : Bool} :
      w.writer = .inserting version [] pos changes → w.lock = none →
      Step w { w with
        writer := .publishing version
        lock := some .writer
        shared := { w.shared with
          published := (w.shared.publish version pos changes).published } }
  /-- The writer sets the watermark: the batch becomes visible. -/
  | store {w : World} {version : ℕ} :
      w.writer = .publishing version →
      Step w { w with
        writer := .stored version
        shared := { w.shared with visible := version } }
  | unlock {w : World} {version : ℕ} :
      w.writer = .stored version →
      Step w { w with writer := .finishing version, lock := none }
  | finish {w : World} {version : ℕ} :
      w.writer = .finishing version →
      Step w { w with writer := .idle, shared := { w.shared with writer := version } }
  /-- A range delete takes the writer lock and a view of the last version handed out. -/
  | deleteView {w : World} (shard : Fin registryShards) :
      w.writer = .idle →
      Step w { w with
        writer := .deleting w.readers.length
        shared := (View.new w.shared shard w.shared.writer).1
        readers := w.readers ++ [.live (View.new w.shared shard w.shared.writer).2] }
  /-- A range delete has dropped its view and releases the writer lock. -/
  | deleteDone {w : World} {r : ℕ} :
      w.writer = .deleting r → w.readers[r]? = some .dropped →
      Step w { w with writer := .idle }
  /-- `View::current` loads the watermark. -/
  | load {w : World} :
      Step w { w with readers := w.readers ++ [.loaded w.shared.visible] }
  /-- `View::current` registers what it loaded. -/
  | register {w : World} {r v0 : ℕ} (shard : Fin registryShards) :
      w.readers[r]? = some (.loaded v0) →
      Step w { w with
        shared := w.shared.register shard v0
        readers := w.readers.set r (.registered v0 shard) }
  /-- `View::current` loads the watermark again and fixes its version. -/
  | reload {w : World} {r v0 : ℕ} {shard : Fin registryShards} :
      w.readers[r]? = some (.registered v0 shard) →
      Step w { w with readers := w.readers.set r (.live ⟨max w.shared.visible v0, shard, v0⟩) }
  /-- `freeze_parts` takes the lock `published` and reads the published version. -/
  | freeze {w : World} :
      w.lock = none →
      Step w { w with
        lock := some (.reader w.readers.length)
        readers := w.readers ++ [.freezing w.shared.published.version] }
  /-- `freeze_parts` registers its view and releases the lock. -/
  | freezeRegister {w : World} {r version : ℕ} (shard : Fin registryShards) :
      w.readers[r]? = some (.freezing version) →
      Step w { w with
        lock := none
        shared := (View.new w.shared shard version).1
        readers := w.readers.set r (.live (View.new w.shared shard version).2) }
  | drop {w : World} {r : ℕ} {view : View} :
      w.readers[r]? = some (.live view) →
      Step w { w with
        shared := view.drop w.shared
        readers := w.readers.set r .dropped }
  /-- A collector starts a leg and loads the watermark. -/
  | startLeg {w : World} {c : ℕ} {cursor : GcCursor} (scanBudget chunk : ℕ) :
      w.collectors c = .idle cursor →
      Step w (w.moveCollector c (.reading cursor (max scanBudget 1) chunk w.shared.visible
        (List.finRange registryShards)))
  /-- A collector reads the next shard of the registry. -/
  | readShard {w : World} {c : ℕ} {cursor : GcCursor} {scanBudget chunk oldest : ℕ}
      {shard : Fin registryShards} {left : List (Fin registryShards)} :
      w.collectors c = .reading cursor scanBudget chunk oldest (shard :: left) →
      Step w (w.moveCollector c (.reading cursor scanBudget chunk
        (readShard oldest (w.shared.registry shard)) left))
  /-- A collector that has read every shard starts to walk. -/
  | startWalk {w : World} {c : ℕ} {cursor : GcCursor} {scanBudget chunk oldest : ℕ} :
      w.collectors c = .reading cursor scanBudget chunk oldest [] →
      Step w (w.moveCollector c (Leg.start ⟨cursor, scanBudget, chunk, oldest⟩ 0))
  /-- A collector visits the least entry ahead. -/
  | visit {w : World} {c : ℕ} {leg : Leg} {lo : Bound VersionedKey} {walk : GcWalk}
      {e : VersionedKey × Slot} {es : List (VersionedKey × Slot)} :
      w.collectors c = .walking leg lo walk →
      range (w.shared.trees leg.cf) lo .unbounded = e :: es →
      Step w (w.moveCollector c (leg.visited walk e))
  /-- A collector finds no entry ahead. -/
  | endWalk {w : World} {c : ℕ} {leg : Leg} {lo : Bound VersionedKey} {walk : GcWalk} :
      w.collectors c = .walking leg lo walk →
      range (w.shared.trees leg.cf) lo .unbounded = [] →
      Step w (w.moveCollector c (.removing leg walk walk.doomed))
  /-- A collector removes the last of its doomed entries. -/
  | remove {w : World} {c : ℕ} {leg : Leg} {walk : GcWalk} {doomed : List VersionedKey}
      {k : VersionedKey} :
      w.collectors c = .removing leg walk (doomed ++ [k]) →
      Step w ((w.remove leg.cf k).moveCollector c (.removing leg walk doomed))
  /-- A collector with nothing left to remove goes on. -/
  | proceed {w : World} {c : ℕ} {leg : Leg} {walk : GcWalk} :
      w.collectors c = .removing leg walk [] →
      Step w (w.moveCollector c (leg.proceed walk))

/-- The worlds some interleaving of the threads leads to. -/
def Reachable (w : World) : Prop := Relation.ReflTransGen Step .init w

end Kv9.Engine
