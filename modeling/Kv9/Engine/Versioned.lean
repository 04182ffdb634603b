import Kv9.Engine.Basic
import Kv9.Lib.OrderedMap

/-!
# The versioned engine

`VersionedMemEngine` keeps every column family in one tree that is updated in place.
The tree is keyed by a user key and a version, newest version first, and holds a value
or a tombstone.  A batch is inserted under one fresh version and becomes visible when
that version is published as the watermark `visible`.

A view reads at a fixed version: `newestSlot` probes one key, `page` walks a range
forwards, seeking past long runs of dead versions, and `pageRev` walks it backwards.
An iterator fetches one page at a time.  Views register themselves, so that garbage
collection knows the oldest version a live view may read; `gcStep` removes, leg by leg,
the versions no live view needs.
-/

namespace Kv9.Engine

/-- A user key and a version.  The code stores `u64::MAX - version`; the version `⊤`
stands for `u64::MAX`, which is used as a scan bound and never stored. -/
@[ext]
structure VersionedKey where
  key : Bytes
  version : WithTop ℕ
deriving DecidableEq

namespace VersionedKey

/-- The order of the tree: by key, and the newest version of a key first. -/
def toLexPair (k : VersionedKey) : Bytes ×ₗ (WithTop ℕ)ᵒᵈ :=
  toLex (k.key, OrderDual.toDual k.version)

theorem toLexPair_injective :
  Function.Injective toLexPair
  := by
  rintro ⟨k, n⟩ ⟨k', n'⟩ h
  obtain ⟨rfl, hn⟩ := Prod.mk.inj (toLex.injective h)
  obtain rfl := OrderDual.toDual.injective hn
  rfl

instance : LinearOrder VersionedKey := LinearOrder.lift' toLexPair toLexPair_injective

/-- The entry of `key` stamped with `version`. -/
def new (key : Bytes) (version : ℕ) : VersionedKey := ⟨key, version⟩

/-- Sorts before every version of `key`. -/
def firstOf (key : Bytes) : VersionedKey := ⟨key, ⊤⟩

/-- The first entry of `key` a reader at `version` may use. -/
def newestVisible (key : Bytes) (version : ℕ) : VersionedKey := new key version

/-- Sorts after every version of `key` and before every other key above it. -/
def afterKey (key : Bytes) : VersionedKey := firstOf key.next

end VersionedKey

/-- A value, or a tombstone: the key was deleted at this version. -/
abbrev Slot := Option Value

/-- All versions of all keys of one column family. -/
abbrev Tree := OrderedMap VersionedKey Slot

/-- What a writer publishes once its batch is in the trees. -/
structure Published where
  version : ℕ
  applied : Option AppliedPosition
  dataRevision : ℕ

/-- The number of shards of the view registry. -/
def registryShards : ℕ := 32

/-- Live views by version, with the number of views at each. -/
abbrev RegistryShard := OrderedMap ℕ ℕ

/-- The state shared by the engine and its views. -/
structure Shared where
  trees : ColumnFamily → Tree
  /-- The newest version a new reader may use. -/
  visible : ℕ
  published : Published
  /-- The last version handed out. -/
  writer : ℕ
  registry : Fin registryShards → RegistryShard

namespace Shared

/-- An empty engine. -/
def new : Shared where
  trees _ := ∅
  visible := 0
  published := ⟨0, none, 0⟩
  writer := 0
  registry _ := ∅

/-- Replace the tree of a column family by its image under `f`. -/
def treeMut (s : Shared) (cf : ColumnFamily) (f : Tree → Tree) : Shared :=
  { s with trees := Function.update s.trees cf (f (s.trees cf)) }

@[simp]
theorem trees_treeMut_self (s : Shared) (cf : ColumnFamily) (f : Tree → Tree) :
  (s.treeMut cf f).trees cf = f (s.trees cf)
  := Function.update_self ..

theorem trees_treeMut_of_ne (s : Shared) {cf cf' : ColumnFamily} (f : Tree → Tree) (h : cf' ≠ cf) :
  (s.treeMut cf f).trees cf' = s.trees cf'
  := Function.update_of_ne h ..

/-! ## The view registry -/

/-- Count one more view at `version`. -/
def register (s : Shared) (shard : Fin registryShards) (version : ℕ) : Shared :=
  let m := s.registry shard
  { s with
    registry := Function.update s.registry shard (m.insert version (m[version]?.getD 0 + 1)) }

/-- Count one view less at `version`. -/
def unregister (s : Shared) (shard : Fin registryShards) (version : ℕ) : Shared :=
  let m := s.registry shard
  match m[version]? with
  | none => s
  | some count =>
    { s with
      registry := Function.update s.registry shard
        (if count - 1 = 0 then m.erase version else m.insert version (count - 1)) }

/-- The oldest version of each shard that has one. -/
def registryMinima (s : Shared) : List ℕ :=
  (List.finRange registryShards).filterMap fun shard => (s.registry shard).keys.head?

/-- The oldest version any live view may read, or `visible` when there is none. -/
def oldestLiveVersion (s : Shared) : ℕ :=
  match s.registryMinima.min? with
  | none => s.visible
  | some oldest => min oldest s.visible

/-! ## Writes -/

/-- Insert the mutations of a batch under `version`.  `room i` says whether the tree finds
memory for the `i`-th insertion; the first that does not ends the batch. -/
def insertAll (s : Shared) (version : ℕ) (room : ℕ → Bool) :
    WriteBatch → ℕ → Shared × Except Error Unit
  | [], _ => (s, .ok ())
  | m :: batch, i =>
    if room i then
      insertAll (s.treeMut m.cf fun t => t.insert (.new m.key version) m.slot)
        version room batch (i + 1)
    else
      (s, .error .outOfMemory)

/-- Make `version` visible. -/
def publish (s : Shared) (version : ℕ) (pos : Option AppliedPosition) (changes : Bool) : Shared :=
  { s with
    published :=
      { version := version
        applied := if pos.isSome then pos else s.published.applied
        dataRevision :=
          if changes then min (s.published.dataRevision + 1) u64Max
          else s.published.dataRevision }
    visible := version
    writer := version }

/-- Why a batch at `pos` is refused, if it is: an applied position must advance. -/
def refuses (s : Shared) (pos : Option AppliedPosition) : Option Error :=
  match pos, s.published.applied with
  | some pos, some previous =>
    if pos.index ≤ previous.index then
      some (.positionMustAdvance previous.index pos.index)
    else
      none
  | _, _ => none

/-- Apply a batch: one fresh version for all its mutations, published once they are in. -/
def apply (s : Shared) (batch : WriteBatch) (pos : Option AppliedPosition) (room : ℕ → Bool) :
    Shared × Except Error Unit :=
  match s.refuses pos with
  | some e => (s, .error e)
  | none =>
    let version := s.writer + 1
    match s.insertAll version room batch 0 with
    | (s', .error e) => (s', .error e)
    | (s', .ok ()) =>
      (s'.publish version pos (batch.any fun m => changesDataRevision m.cf m.key), .ok ())

end Shared

/-! ## Views -/

/-- A point-in-time view: every read answers from the versions not above `version`. -/
structure View where
  version : ℕ
  /-- Where and as which version the view is registered. -/
  shard : Fin registryShards
  registered : ℕ

namespace View

/-- The slot of the newest version of `key` not above `version`, if the key has one. -/
def newestSlot (t : Tree) (version : ℕ) (key : Bytes) : Option Slot :=
  match OrderedMap.range t (.included (.newestVisible key version)) .unbounded with
  | [] => none
  | (k, v) :: _ => if k.key = key then some v else none

/-- How many entries of one key a page walks before it seeks past them. -/
def skipLimit : ℕ := 8

/-- The state of one leaf walk of a page. -/
structure PageWalk where
  out : List ScanEntry
  current : Option Bytes
  decided : Bool
  skipped : ℕ
  seek : Option VersionedKey

/-- Meet an entry of `key`: a new key starts undecided. -/
def PageWalk.enter (w : PageWalk) (key : Bytes) : PageWalk :=
  if w.current = some key then w
  else { w with current := some key, decided := false, skipped := 0 }

/-- Visit one stored entry.  Per key: skip the versions newer than the view, take the
first one that is not, skip the rest; too many skips of one key end the walk with a seek
target. -/
def visit (version limit : ℕ) (e : VersionedKey × Slot) (w : PageWalk) : ForInStep PageWalk :=
  let (k, v) := e
  let w := w.enter k.key
  if w.decided then
    if skipLimit ≤ w.skipped + 1 then
      .done { w with skipped := w.skipped + 1, seek := some (.afterKey k.key) }
    else
      .yield { w with skipped := w.skipped + 1 }
  else if (version : WithTop ℕ) < k.version then
    if skipLimit ≤ w.skipped + 1 then
      .done { w with skipped := w.skipped + 1, seek := some (.newestVisible k.key version) }
    else
      .yield { w with skipped := w.skipped + 1 }
  else
    let w := { w with decided := true, skipped := 0 }
    match v with
    | none => .yield w
    | some value =>
      let w := { w with out := w.out ++ [(k.key, value)] }
      if limit ≤ w.out.length then .done w else .yield w

/-- The leaf walks of a page from `cursor` on; each but the last ends with a seek target,
which is the cursor of the next. -/
def pageLoop (t : Tree) (version limit : ℕ) (upper : Bound VersionedKey) :
    ℕ → VersionedKey → List ScanEntry → List ScanEntry
  | 0, _, out => out
  | fuel + 1, cursor, out =>
    let w := OrderedMap.walk (visit version limit)
      (OrderedMap.range t (.included cursor) upper) ⟨out, none, false, 0, none⟩
    match w.seek with
    | some next => if w.out.length < limit then pageLoop t version limit upper fuel next w.out
        else w.out
    | none => w.out

/-- The upper end of a scan of the keys below `stop`. -/
def upper : Option Bytes → Bound VersionedKey
  | none => .unbounded
  | some stop => .excluded (.firstOf stop)

/-- Forward page of `[start, stop)` at `version`: up to `limit` live entries.  Every walk
seeks past at least one stored entry, so one walk per entry is enough. -/
def page (t : Tree) (version : ℕ) (start : Bytes) (stop : Option Bytes) (limit : ℕ) :
    List ScanEntry :=
  if limit = 0 ∨ stop.any (fun stop => stop ≤ start) then
    []
  else
    pageLoop t version limit (upper stop) (t.size + 1) (.firstOf start) []

/-- The steps of a backward page below `upper`: each finds the greatest stored key below
the cursor and looks up its newest visible version. -/
def pageRevLoop (t : Tree) (version limit : ℕ) (lower : VersionedKey) :
    ℕ → VersionedKey → List ScanEntry → List ScanEntry
  | 0, _, out => out
  | fuel + 1, upper, out =>
    if limit ≤ out.length then
      out
    else
      match (OrderedMap.range t (.included lower) (.excluded upper)).reverse with
      | [] => out
      | (k, _) :: _ =>
        let out := match newestSlot t version k.key with
          | some (some value) => out ++ [(k.key, value)]
          | _ => out
        pageRevLoop t version limit lower fuel (.firstOf k.key) out

/-- Backward page of `[start, stop)` at `version`, greatest key first. -/
def pageRev (t : Tree) (version : ℕ) (start stop : Bytes) (limit : ℕ) : List ScanEntry :=
  if limit = 0 ∨ stop ≤ start then
    []
  else
    pageRevLoop t version limit (.firstOf start) (t.size + 1) (.firstOf stop) []

/-- A view of version `version`. -/
def new (s : Shared) (shard : Fin registryShards) (version : ℕ) : Shared × View :=
  (s.register shard version, ⟨version, shard, version⟩)

/-- A view of the current watermark.  The version is registered before it is fixed. -/
def current (s : Shared) (shard : Fin registryShards) : Shared × View :=
  let v0 := s.visible
  let s := s.register shard v0
  (s, ⟨max s.visible v0, shard, v0⟩)

/-- Dropping a view takes it out of the registry. -/
def drop (s : Shared) (v : View) : Shared := s.unregister v.shard v.registered

/-- Point read. -/
def get (s : Shared) (v : View) (cf : ColumnFamily) (key : Bytes) : Option Value :=
  (newestSlot (s.trees cf) v.version key).join

/-- Forward range scan of `[start, stop)`, bounded by `limit`. -/
def scan (s : Shared) (v : View) (cf : ColumnFamily) (start stop : Bytes) (limit : ℕ) :
    List ScanEntry :=
  page (s.trees cf) v.version start (some stop) limit

/-- The entry with the greatest key not above `target`: `[.., target]` is
`[.., target + 0x00)`. -/
def seekLe (s : Shared) (v : View) (cf : ColumnFamily) (target : Bytes) : Option ScanEntry :=
  (pageRev (s.trees cf) v.version [] target.next 1).getLast?

end View

namespace Shared

/-- A view and the position published with its version, from one instant. -/
def freezeParts (s : Shared) (shard : Fin registryShards) :
    Shared × View × Option AppliedPosition × ℕ :=
  let (s', view) := View.new s shard s.published.version
  (s', view, s.published.applied, s.published.dataRevision)

/-- Delete every visible key of `[start, stop)` as one batch.  The code bounds the walk by
`usize::MAX`, which no tree reaches; the number of stored entries stands for it. -/
def deleteRange (s : Shared) (shard : Fin registryShards) (cf : ColumnFamily)
    (start stop : Bytes) (room : ℕ → Bool) : Shared × Except Error Unit :=
  let (s, view) := View.new s shard s.writer
  let batch := (view.scan s cf start stop (s.trees cf).size).map fun e => Mutation.delete cf e.1
  let s := view.drop s
  if batch.isEmpty then (s, .ok ()) else s.apply batch none room

/-- The walk of a range delete: the tombstones for the visible keys of `[start, stop)`. -/
def walkRange (s : Shared) (shard : Fin registryShards) (cf : ColumnFamily)
    (start stop : Bytes) : Shared × WriteBatch :=
  let (s, view) := View.new s shard s.writer
  let batch := (view.scan s cf start stop (s.trees cf).size).map fun e => Mutation.delete cf e.1
  (view.drop s, batch)

/-- The tombstones of a range delete, applied once the writer lock is taken again. -/
def bury (s : Shared) (batch : WriteBatch) (room : ℕ → Bool) : Shared × Except Error Unit :=
  if batch.isEmpty then (s, .ok ()) else s.apply batch none room

end Shared

/-! ## Iterators -/

/-- A pull iterator over a view, fetched one bounded page at a time. -/
structure Pages where
  view : View
  cf : ColumnFamily
  start : Bytes
  /-- Exclusive upper bound; `none` is unbounded (forward only). -/
  stop : Option Bytes
  forward : Bool
  buffer : List ScanEntry
  done : Bool

namespace Pages

/-- The number of entries of one page. -/
def pageSize : ℕ := 256

/-- The next page. -/
def fetched (s : Shared) (p : Pages) : List ScanEntry :=
  if p.forward then View.page (s.trees p.cf) p.view.version p.start p.stop pageSize
  else View.pageRev (s.trees p.cf) p.view.version p.start (p.stop.getD []) pageSize

/-- Fetch the next page into the buffer and move past it. -/
def refill (s : Shared) (p : Pages) : Pages :=
  let page := p.fetched s
  let p := if page.length < pageSize then { p with done := true } else p
  let p := match page.getLast? with
    | none => p
    | some (last, _) =>
      if p.forward then { p with start := last.next } else { p with stop := some last }
  { p with buffer := p.buffer ++ page }

/-- The next entry. -/
def next (s : Shared) (p : Pages) : Pages × Option ScanEntry :=
  let p := if p.buffer.isEmpty && !p.done then p.refill s else p
  match p.buffer with
  | [] => (p, none)
  | e :: rest => ({ p with buffer := rest }, some e)

end Pages

namespace View

/-- Streaming ascending iterator over `[start, stop)`. -/
def iter (v : View) (cf : ColumnFamily) (start stop : Bytes) : Pages :=
  ⟨v, cf, start, some stop, true, [], false⟩

/-- Streaming descending iterator over `[start, stop)`. -/
def iterRev (v : View) (cf : ColumnFamily) (start stop : Bytes) : Pages :=
  ⟨v, cf, start, some stop, false, [], false⟩

end View

end Kv9.Engine
