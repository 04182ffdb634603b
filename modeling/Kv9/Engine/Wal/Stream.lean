import Kv9.Lib.Crash
import Kv9.Engine.Wal.Topology

/-!
# The segmented log

The log appends to its active segment.  When the segment is full, the log seals it, creates
a successor and publishes a topology that selects the successor.  A confirmed checkpoint is
published in the same way, in a topology without the closed segments it covers, whose files
are then removed.

Every operation is a function of what the log holds in memory.  It answers the effects it
has on the disk, in order, the log afterwards and a result; an operation that can no longer
tell what the disk holds leaves the log poisoned.
-/

namespace Kv9.Engine.Wal

open Codec Except Crash

/-! ## The disk -/

/-- The name of a segment file: the stream and the sequence number. -/
abbrev SegmentPath := (Fin 16 → UInt8) × UInt64

/-- The file of a segment. -/
def SegmentHeader.path (h : SegmentHeader) : SegmentPath := (h.streamId, h.sequence)

/-- A segment file, and whether its name survives a crash. -/
structure SegmentFile where
  file : File
  linked : Bool

/-- The files of a log.  `renamed` is a topology that has replaced `topology` under its name,
but would not survive a crash for sure. -/
structure Disk where
  topology : Option File
  renamed : Option File
  temporary : Option File
  segments : SegmentPath → Option SegmentFile

/-- The effects of the log on the disk. -/
inductive DiskOp where
  | create (path : SegmentPath)
  | write (path : SegmentPath) (bytes : Bytes)
  | setLen (path : SegmentPath) (length : ℕ)
  | sync (path : SegmentPath)
  /-- Sync the directory of a new file. -/
  | link (path : SegmentPath)
  | remove (path : SegmentPath)
  /-- Sync the directory of removed files. -/
  | syncDirectory
  | createTopology (bytes : Bytes)
  | syncTopology
  | writeTemporary (bytes : Bytes)
  | syncTemporary
  | rename
  | syncParent
deriving DecidableEq

namespace Disk

/-- Change one segment file. -/
def modify (d : Disk) (path : SegmentPath) (f : Option SegmentFile → Option SegmentFile) : Disk :=
  { d with segments := Function.update d.segments path (f (d.segments path)) }

/-- Change the contents of one segment file. -/
def modifyFile (d : Disk) (path : SegmentPath) (f : File → File) : Disk :=
  d.modify path (Option.map fun s => { s with file := f s.file })

/-- The disk after an effect. -/
def apply (d : Disk) : DiskOp → Disk
  | .create path => d.modify path fun _ => some ⟨.settled [], false⟩
  | .write path bytes => d.modifyFile path fun f => f.append bytes
  | .setLen path length => d.modifyFile path fun f => f.setLen length
  | .sync path => d.modifyFile path File.sync
  | .link path => d.modify path (Option.map fun s => { s with linked := true })
  | .remove path => d.modify path fun _ => none
  | .syncDirectory => d
  | .createTopology bytes => { d with topology := some ((File.settled []).append bytes) }
  | .syncTopology =>
    match d.renamed with
    | some f => { d with renamed := some f.sync }
    | none => { d with topology := d.topology.map File.sync }
  | .writeTemporary bytes => { d with temporary := some ((File.settled []).append bytes) }
  | .syncTemporary => { d with temporary := d.temporary.map File.sync }
  | .rename =>
    match d.temporary with
    | some f => { d with renamed := some f, temporary := none }
    | none => d
  | .syncParent => { d with topology := d.renamed.or d.topology, renamed := none }

/-- The topology that a reader sees. -/
def readTopology (d : Disk) : Option Bytes := (d.renamed.or d.topology).map File.data

/-- The segment that a reader sees. -/
def readSegment (d : Disk) (path : SegmentPath) : Option Bytes :=
  (d.segments path).map fun s => s.file.data

/-- What a crash may leave.  Nothing is said of a segment whose name was not yet synced, or
that was removed: it may be missing or hold anything. -/
structure Crashed (d d' : Disk) : Prop where
  topology : ∃ f, (d.topology = some f ∨ d.renamed = some f) ∧
    ∃ bytes ∈ f.may, d'.topology = some (.settled bytes)
  renamed : d'.renamed = none
  segments : ∀ path s, d.segments path = some s → s.linked = true →
    ∃ bytes ∈ s.file.may, d'.segments path = some ⟨.settled bytes, true⟩

end Disk

/-- An effect that was done in part: some front part of the bytes was written. -/
inductive DiskOp.Part : DiskOp → DiskOp → Prop
  | write {bytes bytes' : Bytes} (path : SegmentPath) :
      bytes' <+: bytes → Part (.write path bytes) (.write path bytes')
  | writeTemporary {bytes bytes' : Bytes} :
      bytes' <+: bytes → Part (.writeTemporary bytes) (.writeTemporary bytes')

/-! ## The log in memory -/

/-- The active segment. -/
structure WalSegment where
  header : SegmentHeader
  summary : SegmentSummary
deriving DecidableEq

/-- A log that is open for writing. -/
structure SegmentedWal where
  topology : Topology
  active : Option WalSegment
  targetBytes : UInt64
  poisoned : Bool
deriving DecidableEq

/-- The effects of an operation, the log afterwards and the result. -/
structure Outcome (α : Type) where
  effects : List DiskOp
  stream : SegmentedWal
  result : Except WalError α

/-- The segment target has to be between 128 bytes and 256 MiB. -/
def validateTarget (target : UInt64) : Except WalError Unit :=
  failIf (¬ (128 ≤ target ∧ target ≤ 256 * 1024 * 1024)) .invalidTarget

/-- The effects of creating a segment with its header. -/
def createSegment (path : SegmentPath) (header : Bytes) : List DiskOp :=
  [.create path, .write path header, .sync path, .link path]

/-- The effects of replacing the topology. -/
def publish (bytes : Bytes) : List DiskOp :=
  [.writeTemporary bytes, .syncTemporary, .rename, .syncParent]

/-- Append a record to the active segment. -/
def WalSegment.append (active : WalSegment) (r : Record) :
    Except WalError (List DiskOp × WalSegment) := do
  let summary ← extend active.header active.summary r
  let segment ← active.header.encode
  let payload := encodeBatch r.batch
  let header := frameHeader (UInt32.ofNat payload.length) r.position
  let path := active.header.path
  return ([.write path header, .write path payload,
    .write path (le32 (frameCrc segment header payload)), .sync path],
    { active with summary := summary })

namespace SegmentedWal

variable (x : Externals)

/-- The last position of the log. -/
def appliedPosition (w : SegmentedWal) : Option AppliedPosition :=
  (w.active.bind fun active => active.summary.last).or w.topology.active.previous

/-- The active segment of a log that is not poisoned. -/
def ensureHealthy (w : SegmentedWal) : Except WalError WalSegment :=
  match w.active with
  | none => .error .poisoned
  | some active => if w.poisoned then .error .poisoned else .ok active

/-- Create a log that goes on from a checkpoint, if there is one. -/
def createWithCheckpoint (streamId : Fin 16 → UInt8) (target : UInt64)
    (checkpoint : Option CheckpointManifest) :
    Except WalError (List DiskOp × SegmentedWal) := do
  validateTarget target
  let header : SegmentHeader := ⟨streamId, 1, checkpoint.map CheckpointManifest.position⟩
  let segment ← header.encode
  let topology : Topology := ⟨1, header, [], checkpoint⟩
  let bytes ← topology.encode x
  return (createSegment header.path segment
      ++ [.createTopology bytes, .syncTopology, .syncParent],
    ⟨topology, some ⟨header, .empty⟩, target, false⟩)

/-- Create a new log. -/
def createNew (streamId : Fin 16 → UInt8) (target : UInt64) :
    Except WalError (List DiskOp × SegmentedWal) :=
  createWithCheckpoint x streamId target none

/-- The topology with the active segment closed and a successor after it. -/
def successor (t : Topology) (generation : UInt64) (header : SegmentHeader)
    (summary : SegmentSummary) : Topology :=
  { t with
    generation := generation, active := header, closed := t.closed ++ [⟨t.active, summary⟩] }

/-- The checks of a rotation; answers the topology that it will publish. -/
def prepareRotation (w : SegmentedWal) : Except WalError Topology := do
  let active ← w.ensureHealthy
  failIf (maxClosedSegments ≤ w.topology.closed.length) .capacityReached
  let generation ← checkedAdd w.topology.generation 1
  let sequence ← checkedAdd w.topology.active.sequence 1
  let header := { w.topology.active with sequence := sequence, previous := w.appliedPosition }
  return successor w.topology generation header active.summary

/-- Seal the active segment, create its successor and publish the topology `next`.  The old
segment is given up first: only a full publication brings the log back. -/
def goOn (w : SegmentedWal) (next : Topology) : Outcome Unit :=
  let fenced := { w with active := none, poisoned := true }
  let sealed := [DiskOp.sync w.topology.active.path, .remove next.active.path]
  match next.active.encode with
  | .error e => ⟨sealed, fenced, .error e⟩
  | .ok header =>
    let created := sealed ++ createSegment next.active.path header
    match next.encode x with
    | .error e => ⟨created, fenced, .error e⟩
    | .ok bytes =>
      ⟨created ++ publish bytes,
        { w with topology := next, active := some ⟨next.active, .empty⟩ }, .ok ()⟩

/-- Seal the active segment and go on with a successor. -/
def rotate (w : SegmentedWal) : Outcome Unit :=
  match w.prepareRotation with
  | .error e => ⟨[], w, .error e⟩
  | .ok next => w.goOn x next

/-- The checks of an append: the active segment, and the size of the frame. -/
def checkAppend (w : SegmentedWal) (r : Record) : Except WalError (WalSegment × ℕ) := do
  let active ← w.ensureHealthy
  failIf (w.topology.checkpoint.isSome = true ∧ r.position = none) .unpositionedRecord
  checkPosition w.appliedPosition r.position
  let size ← encodedSize r.batch
  return (active, size)

/-- Append a record to the active segment of the log; `effects` have been done before. -/
def appendActive (w : SegmentedWal) (effects : List DiskOp) (r : Record) : Outcome Unit :=
  match w.active with
  | none => ⟨effects, w, .error .poisoned⟩
  | some active =>
    match active.append r with
    | .error e => ⟨effects, { w with poisoned := true }, .error e⟩
    | .ok (written, active) =>
      ⟨effects ++ written, { w with active := some active }, .ok ()⟩

/-- Append a record. -/
def append (w : SegmentedWal) (r : Record) : Outcome Unit :=
  match w.checkAppend r with
  | .error e => ⟨[], w, .error e⟩
  | .ok (active, size) =>
    if active.summary.records ≠ 0
        ∧ w.targetBytes.toNat < min (active.summary.bytes.toNat + size) (2 ^ 64 - 1) then
      let rotated := w.rotate x
      match rotated.result with
      | .error e => ⟨rotated.effects, rotated.stream, .error e⟩
      | .ok () => rotated.stream.appendActive rotated.effects r
    else
      w.appendActive [] r

/-- What reclaiming removed. -/
structure Reclaimed where
  segments : ℕ
  bytes : ℕ
deriving DecidableEq

/-- The segments of a directory listing that lie before the first one kept. -/
def obsolete (t : Topology) (listing : List (UInt64 × ℕ)) : List (UInt64 × ℕ) :=
  listing.filter fun entry => entry.1 != 0 && entry.1 < t.first.sequence

/-- The effects of removing the obsolete segments of a directory listing. -/
def reclaimEffects (t : Topology) (listing : List (UInt64 × ℕ)) : List DiskOp :=
  (obsolete t listing).map (fun entry => .remove (t.active.streamId, entry.1))
    ++ [.syncDirectory]

/-- Remove the segments that a checkpoint has made obsolete; `listing` has the sequence
numbers in the directory and the sizes of their files. -/
def reclaimObsolete (w : SegmentedWal) (listing : List (UInt64 × ℕ)) : Outcome Reclaimed :=
  match w.ensureHealthy with
  | .error e => ⟨[], w, .error e⟩
  | .ok _ =>
    if w.topology.checkpoint.isSome then
      let removed := obsolete w.topology listing
      ⟨reclaimEffects w.topology listing, w, .ok ⟨removed.length, (removed.map Prod.snd).sum⟩⟩
    else
      ⟨[], w, .ok ⟨0, 0⟩⟩

/-- The positions that a log knows of its segments. -/
def knownPositions (w : SegmentedWal) : List (Option AppliedPosition) :=
  w.topology.closed.flatMap (fun c => [c.header.previous, c.summary.first, c.summary.last])
    ++ [w.topology.active.previous]
    ++ w.active.toList.flatMap fun active => [active.summary.first, active.summary.last]

/-- A log with unpositioned records cannot tell which of them a checkpoint covers. -/
def hasUnpositioned (w : SegmentedWal) : Bool :=
  w.topology.closed.any (fun c => c.summary.hasUnpositioned)
    || w.active.any fun active => active.summary.hasUnpositioned

/-- The topology that selects a checkpoint: without the closed segments it covers. -/
def selected (t : Topology) (generation : UInt64) (m : CheckpointManifest) : Topology :=
  { t with
    generation := generation
    checkpoint := some m
    closed := t.closed.filter fun c =>
      !covers m.position (c.summary.last.or c.header.previous) }

/-- The checks of a checkpoint; answers the topology to publish, if there is one. -/
def prepareCheckpoint (w : SegmentedWal) (m : CheckpointManifest) :
    Except WalError (Option Topology) := do
  let _ ← w.ensureHealthy
  let advances ← m.checkSelection x w.appliedPosition w.topology.checkpoint
  if advances = false then return none
  else do
    w.knownPositions.forM (checkCut m.position)
    if w.hasUnpositioned then return none
    else do
      let generation ← checkedAdd w.topology.generation 1
      return some (selected w.topology generation m)

/-- Select a confirmed checkpoint and reclaim what it covers. -/
def checkpointApplied (w : SegmentedWal) (m : CheckpointManifest)
    (listing : List (UInt64 × ℕ)) : Outcome Bool :=
  match w.prepareCheckpoint x m with
  | .error e => ⟨[], w, .error e⟩
  | .ok none => ⟨[], w, .ok false⟩
  | .ok (some next) =>
    match next.encode x with
    | .error e => ⟨[], { w with poisoned := true }, .error e⟩
    | .ok bytes =>
      ⟨publish bytes ++ reclaimEffects next listing, { w with topology := next }, .ok true⟩

end SegmentedWal

/-! ## Recovery -/

/-- What recovery found. -/
structure StreamRecovery where
  replayedRecords : ℕ
  coveredRecords : ℕ
  discardedTailBytes : ℕ
deriving DecidableEq

section Recover

variable {σ : Type} (visitor : σ → Record → Except WalError σ)

/-- Visit a record unless the checkpoint covers it. -/
def visitRecoveryRecord (checkpoint : Option AppliedPosition) (s : StreamRecovery × σ)
    (r : Record) : Except WalError (StreamRecovery × σ) := do
  failIf (checkpoint.isSome = true ∧ r.position = none) .unpositionedRecord
  match checkpoint, r.position with
  | some cut, some pos =>
    if pos.index ≤ cut.index then do
      failIf (covers cut (some pos) = false) .coveredDisagrees
      return ({ s.1 with coveredRecords := s.1.coveredRecords + 1 }, s.2)
    else do
      failIf (pos.term < cut.term) .termRegresses
      let next ← visitor s.2 r
      return ({ s.1 with replayedRecords := s.1.replayedRecords + 1 }, next)
  | _, _ => do
    let next ← visitor s.2 r
    return ({ s.1 with replayedRecords := s.1.replayedRecords + 1 }, next)

/-- Replay the segments that a topology selects. -/
def replaySegments (d : Disk) (t : Topology) (s : StreamRecovery × σ) :
    Except WalError ((StreamRecovery × σ) × SegmentSummary × ℕ) := do
  let visit := visitRecoveryRecord visitor (t.checkpoint.map CheckpointManifest.position)
  let s ← t.closed.foldlM (fun s c => c.replay visit (d.readSegment c.header.path) s) s
  match d.readSegment t.active.path with
  | none => .error .missingFile
  | some file => scan visit file t.active true s

/-- A recovered log. -/
structure Recovered (σ : Type) where
  stream : SegmentedWal
  report : StreamRecovery
  visited : σ

/-- Read the topology of a log. -/
def readPlan (x : Externals) (d : Disk) : Except WalError Topology :=
  match d.readTopology with
  | none => .error .missingFile
  | some bytes => do
    failIf (maxTopologyBytes < bytes.length) .topologyTooLarge
    Topology.decode x bytes

/-- Open a log: read its topology, let the caller restore the checkpoint, replay the records
after it, and repair the end of the active segment. -/
def recover (x : Externals) (restore : Option CheckpointManifest → Except WalError Unit)
    (d : Disk) (target : UInt64) (s : σ) : List DiskOp × Except WalError (Recovered σ) :=
  match (do
    let t ← readPlan x d
    validateTarget target
    restore t.checkpoint
    return t) with
  | .error e => ([], .error e)
  | .ok t =>
    let stabilized := [DiskOp.syncTopology, .syncParent]
    match replaySegments visitor d t (⟨0, 0, 0⟩, s) with
    | .error e => (stabilized, .error e)
    | .ok ((report, s), summary, discarded) =>
      let path := t.active.path
      let repaired := if discarded = 0 then [] else [.setLen path summary.bytes.toNat]
      (stabilized ++ repaired ++ [.sync path, .link path],
        .ok ⟨⟨t, some ⟨t.active, summary⟩, target, false⟩,
          { report with discardedTailBytes := discarded }, s⟩)

end Recover

end Kv9.Engine.Wal
