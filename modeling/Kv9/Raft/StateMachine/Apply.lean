import Kv9.Engine.Checkpoint
import Kv9.Raft.Command
import Kv9.Raft.StateMachine.Store

/-!
# Ordered apply

The state machine of a data group applies committed commands in order.  Every command reads
rows that earlier commands of the same log have written, and ends in one positioned write, so
that its effect and the applied position land together.  A refused command writes nothing but
its position; a command that cannot be judged is an error and leaves everything as it was.
-/

namespace Kv9.Raft

open Codec Engine Except RawTtl

/-! ## Outcomes -/

/-- Why a manifest change is invalid. -/
inductive ManifestInvalidReason where
  | emptyChangeId
  | watermarkBeyondEntry
  | generationExhausted
  | staleEpoch
  | invalidCheckpoint
deriving DecidableEq

/-- The verdict on a manifest change. -/
inductive ManifestVerdict where
  | applied (region : RegionId) (generation : UInt64)
  | alreadyApplied (region : RegionId) (generation : UInt64)
  | stale (region : RegionId) (currentGeneration : UInt64)
  | invalid (region : RegionId) (reason : ManifestInvalidReason)
deriving DecidableEq

/-- What applying one entry meant. -/
inductive ApplyOutcome where
  | plain
  | fenceRejected (region : RegionId)
  | rawTtlRejected (region : RegionId) (reason : TtlRejection)
  | manifest (verdict : ManifestVerdict)
deriving DecidableEq

/-- The answer to one applied entry. -/
structure ApplyResult where
  appliedIndex : UInt64
  outcome : ApplyOutcome
deriving DecidableEq

/-! ## Manifest rows -/

/-- The key of the manifest pair of a region. -/
def manifestPairKey (region : UInt64) : Bytes :=
  [0] ++ ("kv9".toUTF8.toList ++ ([0] ++ ("manifest_pair".toUTF8.toList ++ ([0] ++ be64 region))))

/-- The key of the changeset of a generation of a region. -/
def manifestGenKey (region generation : UInt64) : Bytes :=
  [0] ++ ("kv9".toUTF8.toList ++ ([0] ++ ("manifest_gen".toUTF8.toList
    ++ ([0] ++ (be64 region ++ ([0] ++ be64 generation))))))

/-- The generation of a manifest, and the change that made it. -/
structure ManifestPair where
  generation : UInt64
  lastChangeId : Bytes
deriving DecidableEq

/-- Write a manifest pair. -/
def ManifestPair.encode (pair : ManifestPair) : Bytes := be64 pair.generation ++ pair.lastChangeId

/-- Read a manifest pair. -/
def ManifestPair.decode (bytes : Bytes) : Except Error ManifestPair := do
  failIf (bytes.length < 8) (.raft "manifest pair value shorter than its generation field")
  let pair : ManifestPair := ⟨fromBe64 (bytes.take 8), bytes.drop 8⟩
  failIf (0 < pair.generation ∧ pair.lastChangeId = []) (.raft
    ("manifest pair with advanced generation but empty change id: "
      ++ "no CAS writes that state — corrupt or foreign value"))
  failIf (pair.generation = 0 ∧ pair.lastChangeId ≠ []) (.raft
    ("manifest pair at generation 0 with a change id: no CAS "
      ++ "writes that state — corrupt or foreign value"))
  return pair

/-! ## The machine -/

/-- The identity of a data group: the root, the region and its creation. -/
structure Identity where
  root : RootDigest
  region : RegionId
  creation : RootDigest
deriving DecidableEq

/-- The identity a range belongs to. -/
def Identity.ofRange (r : DataRange) : Identity := ⟨r.root, r.region, r.creation⟩

/-- The state machine.  A machine with an identity judges fences by the range of its group;
one without cannot judge them. -/
structure Machine where
  dataIdentity : Option Identity
  engine : Store
  applied : UInt64
  ttlEnabled : Bool

/-- Read an optional row. -/
def readRow {α : Type} (decode : Bytes → Except Error α) : Option Bytes → Except Error (Option α)
  | none => .ok none
  | some bytes => do
    let a ← decode bytes
    return some a

namespace Machine

/-- A machine over an engine, with what the engine has applied. -/
def withEngine (engine : Store) : Except Error Machine := do
  let clock ← readRow ClockWatermark.decode (engine.get .default clockKey)
  return ⟨none, engine, engine.appliedIndex, clock.isSome⟩

/-- The range of the group, if one is installed. -/
def rangeOf (engine : Store) : Except Error (Option DataRange) :=
  readRow DataRange.decode (engine.get .default rangeKey)

/-- The range a fence is judged by. -/
def fenceCurrent (identity : Identity) (engine : Store) : Except Error (Option DataRange) := do
  let range ← rangeOf engine
  failIf (∃ r ∈ range, Identity.ofRange r ≠ identity) (.raft "local data range belongs to another group")
  return range

/-- Give the machine the identity of its group. -/
def setDataGroup (m : Machine) (identity : Identity) : Except Error Machine := do
  failIf (m.dataIdentity.isSome = true ∨ identity.root = .zero ∨ identity.region < 100
    ∨ identity.creation = .zero) (.raft "invalid or duplicate data group configuration")
  let _ ← fenceCurrent identity m.engine
  return { m with dataIdentity := some identity }

/-- Write a batch at a position, and answer. -/
def finish (m : Machine) (batch : WriteBatch) (pos : AppliedPosition) (outcome : ApplyOutcome) :
    Except Error (Machine × ApplyResult) := do
  let engine ← m.engine.writeApplied batch pos
  return ({ m with engine := engine, applied := pos.index }, ⟨pos.index, outcome⟩)

/-! ## Fences -/

/-- Whether a fence names the epoch of a range that is not sealed. -/
def fenceMatches (range : DataRange) (fence : RegionFence) : Bool :=
  !range.isSealed && range.region == fence.regionId && range.confVer == fence.confVer
    && range.version == fence.version

/-- Whether an operation is on a key of the range. -/
def ownsOp (range : DataRange) (op : KvOp) : Bool :=
  op.cf == cfCode .default &&
    match decodeKey op.key with
    | .ok k => k.mode == .raw && k.keyspace == range.keyspace && range.contains k.userKey
    | .error _ => false

/-- Whether the epoch of a fence is current. -/
def isFresh (identity : Identity) (engine : Store) (fence : RegionFence) : Except Error Bool := do
  let range ← fenceCurrent identity engine
  return range.any (fenceMatches · fence)

/-- Whether the epoch of a fence is current, and every operation on a key of the range. -/
def isFreshWrite (identity : Identity) (engine : Store) (fence : RegionFence)
    (inner : FencedInner) : Except Error Bool := do
  let range ← fenceCurrent identity engine
  return range.any fun r => fenceMatches r fence && inner.ops.all (ownsOp r)

/-- The batch of a plain command, or of a fenced one whose fence is judged.  `missing` is the
refusal of a machine that cannot judge. -/
def adjudicate (m : Machine) (missing : Error) (cmd : Command) :
    Except Error (WriteBatch × ApplyOutcome) :=
  match cmd with
  | .fenced fence inner =>
    match m.dataIdentity with
    | none => .error missing
    | some identity => do
      let fresh ← isFreshWrite identity m.engine fence inner
      if fresh then
        return (inner.toWriteBatch, .plain)
      else
        return ([], .fenceRejected fence.regionId)
  | cmd => do
    let batch ← cmd.toWriteBatch
    return (batch, .plain)

/-! ## Range commands -/

/-- Refuse a command on expiring values. -/
def ttlRefuse (m : Machine) (pos : AppliedPosition) (region : RegionId) (reason : TtlRejection) :
    Except Error (Machine × ApplyResult) :=
  m.finish [] pos (.rawTtlRejected region reason)

/-- Whether a range command takes effect on the current range. -/
def acceptsRange (x : Externals) (current : Option DataRange) (expected : Option RootDigest)
    (next : DataRange) : Bool :=
  if current = some next then true
  else
    match current, expected with
    | none, none => !next.isSealed && next.confVer == 1 && next.version == 1
    | some prior, some digest =>
      prior.digest (fun bytes => ⟨x.sha256 bytes, x.length_sha256 bytes⟩) == digest
        && next.mayFollow prior
    | _, _ => false

/-- Install or seal the range of the group. -/
def applyDataRange (x : Externals) (m : Machine) (pos : AppliedPosition)
    (expected : Option RootDigest) (next : DataRange) : Except Error (Machine × ApplyResult) := do
  next.validate
  failIf (m.dataIdentity ≠ some (.ofRange next))
    (.raft "data range command lacks exact local group identity")
  let current ← rangeOf m.engine
  failIf (∃ r ∈ current, m.dataIdentity ≠ some (.ofRange r))
    (.raft "stored range has a foreign group identity")
  if m.ttlEnabled ∧ next.isSealed then
    m.ttlRefuse pos next.region .legacyCommand
  else do
    let accepted := acceptsRange x current expected next
    let batch : WriteBatch :=
      if accepted = true ∧ current ≠ some next then [.put .default rangeKey next.encode] else []
    m.finish batch pos (if accepted then .plain else .fenceRejected next.region)

/-- The confirmed compaction floor of a row. -/
def floorOf (bytes : Bytes) : Option AppliedPosition :=
  if bytes.length = 16 then
    some ⟨fromBe64 (bytes.take 8), fromBe64 (bytes.drop 8)⟩
  else
    none

/-- Write a compaction floor. -/
def encodeFloor (floor : AppliedPosition) : Bytes := be64 floor.term ++ be64 floor.index

/-- The confirmed compaction floor, if there is one. -/
def confirmedFloor (engine : Store) : Option AppliedPosition :=
  (engine.get .default compactionConfirmedKey).bind floorOf

/-- Record a confirmed compaction floor, if it advances. -/
def applyCompactionConfirmed (m : Machine) (pos : AppliedPosition) (region : UInt64)
    (floor : AppliedPosition) : Except Error (Machine × ApplyResult) :=
  match m.dataIdentity with
  | none => .error (.raft "compaction confirmation on a non-data-group state machine")
  | some identity => do
    failIf (identity.region ≠ region) (.raft "compaction confirmation names a foreign group")
    let advances := (confirmedFloor m.engine).all fun c => c.index < floor.index
    let batch : WriteBatch :=
      if advances then [.put .default compactionConfirmedKey (encodeFloor floor)] else []
    m.finish batch pos .plain

/-! ## Manifest changes -/

/-- A step of the checkpoint codec. -/
def ofCheckpoint {α : Type} : Except Wal.WalError α → Except Error α
  | .ok a => .ok a
  | .error _ => .error (.engine "checkpoint codec")

/-- Whether a changeset is a checkpoint manifest. -/
def isCheckpoint (changeset : Bytes) : Bool := "KV9CHECKPOINT".toUTF8.toList.isPrefixOf changeset

/-- Read the checkpoint of a manifest change; only the large command carries a large image. -/
def decodeCheckpointManifest (x : Externals) (large : Bool) (changeset : Bytes) :
    Except Error CheckpointManifest :=
  if large then do
    let manifest ← ofCheckpoint (CheckpointManifest.decode x changeset)
    let needed ← ofCheckpoint manifest.requiresLargeFormat
    failIf (needed = false) (.raft "large manifest command requires V2 image")
    return manifest
  else do
    failIf ((CheckpointManifest.magic 1).isPrefixOf changeset = false)
      (.engine "legacy checkpoint command requires V1 manifest")
    ofCheckpoint (CheckpointManifest.decode x changeset)

/-- The identity of a checkpoint that follows a generation. -/
def checkpointChangeId (x : Externals) (manifest : CheckpointManifest) (generation : UInt64) :
    Except Error Bytes := do
  let bytes ← ofCheckpoint (manifest.encode x)
  return x.sha256 ("kv9-manifest-v1".toUTF8.toList ++ (be64 generation ++ bytes))

/-- What is wrong with the checkpoint of a manifest change. -/
def checkpointError (x : Externals) (m : Machine) (large : Bool) (p : ManifestChangePayload) :
    Except Error (Option ManifestInvalidReason) :=
  if isCheckpoint p.changeset then do
    let checkpoint ← decodeCheckpointManifest x large p.changeset
    -- The identity is only computed when the scope and the position agree.
    let mismatch ←
      if checkpoint.scope.region ≠ p.region ∨ checkpoint.term ≠ p.watermarkTerm
          ∨ checkpoint.index ≠ p.watermarkIndex then
        pure true
      else do
        let changeId ← checkpointChangeId x checkpoint p.expectedGeneration
        pure (changeId != p.changeId)
    if mismatch then
      return some .invalidCheckpoint
    else
      match m.dataIdentity with
      | none => throw (.raft "checkpoint apply requires epoch adjudicator")
      | some identity => do
        let fresh ← isFresh identity m.engine
          ⟨p.region, checkpoint.scope.confVer, checkpoint.scope.version⟩
        return if fresh then none else some .staleEpoch
  else
    return if large then some .invalidCheckpoint else none

/-- The manifest pair of a region. -/
def manifestPair (engine : Store) (region : UInt64) : Except Error ManifestPair := do
  let pair ← readRow ManifestPair.decode (engine.get .default (manifestPairKey region))
  return pair.getD ⟨0, []⟩

/-- The verdict on a manifest change, and what it writes. -/
def manifestEffect (current : ManifestPair) (checkpointError : Option ManifestInvalidReason)
    (p : ManifestChangePayload) (index : UInt64) : WriteBatch × ManifestVerdict :=
  match checkpointError with
  | some reason => ([], .invalid p.region reason)
  | none =>
    if p.changeId = [] then
      ([], .invalid p.region .emptyChangeId)
    else if index ≤ p.watermarkIndex then
      ([], .invalid p.region .watermarkBeyondEntry)
    else if p.expectedGeneration = current.generation then
      match checkedAdd64 current.generation 1 with
      | none => ([], .invalid p.region .generationExhausted)
      | some generation =>
        ([.put .default (manifestPairKey p.region) (ManifestPair.encode ⟨generation, p.changeId⟩),
          .put .default (manifestGenKey p.region generation)
            (be64 p.watermarkTerm ++ (be64 p.watermarkIndex ++ p.changeset))],
          .applied p.region generation)
    else if checkedAdd64 p.expectedGeneration 1 = some current.generation
        ∧ p.changeId = current.lastChangeId then
      ([], .alreadyApplied p.region current.generation)
    else
      ([], .stale p.region current.generation)

/-- Apply a manifest change. -/
def applyManifestChange (x : Externals) (m : Machine) (pos : AppliedPosition) (large : Bool)
    (p : ManifestChangePayload) : Except Error (Machine × ApplyResult) := do
  let current ← manifestPair m.engine p.region
  let invalid ← m.checkpointError x large p
  let (batch, verdict) := manifestEffect current invalid p pos.index
  m.finish batch pos (.manifest verdict)

/-! ## Expiring values -/

/-- The mutations of one put or delete: the value and its record change together. -/
def lowerTtl (keyspace : KeyspaceId) (expiry : Option ExpiryRecord) :
    RawTtlMutation → Except Error WriteBatch
  | .put key value => do
    let key ← encodeKey .raw keyspace key
    return [.put .default key value, match expiry with
      | some record => .put .write key record.encode
      | none => .delete .write key]
  | .delete key => do
    let key ← encodeKey .raw keyspace key
    return [.delete .default key, .delete .write key]

/-- The mutations of a list of puts and deletes. -/
def lowerTtls (keyspace : KeyspaceId) (expiry : Option ExpiryRecord) :
    List RawTtlMutation → Except Error WriteBatch
  | [] => .ok []
  | mutation :: mutations => do
    let batch ← lowerTtl keyspace expiry mutation
    let rest ← lowerTtls keyspace expiry mutations
    return batch ++ rest

/-- The mutations of one candidate of a cleanup: none, unless its record is the current one
and has expired. -/
def cleanupOne (engine : Store) (keyspace : KeyspaceId) (clock : ClockWatermark)
    (candidate : Bytes × ExpiryRecord) : Except Error WriteBatch := do
  let key ← encodeKey .raw keyspace candidate.1
  let current ← readRow ExpiryRecord.decode (engine.get .write key)
  return if candidate.2.permitsCleanup current clock then
    [.delete .default key, .delete .write key] else []

/-- The mutations of a cleanup. -/
def cleanupAll (engine : Store) (keyspace : KeyspaceId) (clock : ClockWatermark) :
    List (Bytes × ExpiryRecord) → Except Error WriteBatch
  | [] => .ok []
  | candidate :: candidates => do
    let batch ← cleanupOne engine keyspace clock candidate
    let rest ← cleanupAll engine keyspace clock candidates
    return batch ++ rest

/-- The watermark after an action, and what the action writes. -/
def ttlEffect (engine : Store) (command : RawTtlCommand) (clock : ClockWatermark)
    (pos : AppliedPosition) : Except Error (ClockWatermark × WriteBatch) :=
  match command.action with
  | .enable observed | .observe observed => .ok (clock.merge observed, [])
  | .write plan mutations => do
    let expiry ← plan.atWrite command.creation pos
    let batch ← lowerTtls command.keyspace expiry mutations
    return (clock.merge plan.observed, batch)
  | .cleanup candidates => do
    let batch ← cleanupAll engine command.keyspace clock candidates
    return (clock, batch)

/-- Whether the range admits a command on expiring values. -/
def ttlFresh (range : DataRange) (command : RawTtlCommand) : Bool :=
  !range.isSealed && range.confVer == command.fence.confVer
    && range.version == command.fence.version && command.keys.all range.contains

/-- Apply a command on expiring values. -/
def applyRawTtl (m : Machine) (pos : AppliedPosition) (command : RawTtlCommand) :
    Except Error (Machine × ApplyResult) :=
  match m.dataIdentity with
  | none => .error (.raft "Raw TTL apply requires local data group identity")
  | some identity => do
    let current ← rangeOf m.engine
    failIf (∃ r ∈ current, Identity.ofRange r ≠ identity)
      (.raft "Raw TTL found a foreign stored range")
    let region := command.fence.regionId
    if (⟨command.root, region, command.creation⟩ : Identity) ≠ identity
        ∨ ∃ r ∈ current, r.keyspace ≠ command.keyspace then
      m.ttlRefuse pos region .invalidScope
    else if current.any (ttlFresh · command) = false then
      m.finish [] pos (.fenceRejected region)
    else do
      let prior ← readRow ClockWatermark.decode (m.engine.get .default clockKey)
      failIf (prior.isSome ≠ m.ttlEnabled) (.raft "Raw TTL activation differs from durable state")
      if prior = none ∧ command.action.isEnable = false then
        m.ttlRefuse pos region .notEnabled
      else do
        let (clock, batch) ← ttlEffect m.engine command (prior.getD .initial) pos
        let batch :=
          if prior ≠ some clock then batch ++ [.put .default clockKey clock.encode] else batch
        let (m, result) ← m.finish batch pos .plain
        return ({ m with ttlEnabled := true }, result)

/-- Whether a plain write would touch the watermark or a record of expiry. -/
def reservedOp (op : KvOp) : Bool :=
  (op.cf == cfCode .default && op.key == clockKey)
    || (op.cf == cfCode .write && isRawKey op.key)

/-- The operations of a command that does not know expiry, if it is one. -/
def legacyOps : Command → Option (List KvOp)
  | .put cf key value => some [.put cf key value]
  | .write ops => some ops
  | .catalogTxn ops => some ops
  | .fenced _ inner => some inner.ops
  | _ => none

/-- Refuse commands that do not know expiry, once it is enabled, and those that would forge
it before. -/
def guardLegacyTtl (m : Machine) (pos : AppliedPosition) (cmd : Command) :
    Except Error (Option (Machine × ApplyResult)) :=
  match legacyOps cmd with
  | none => .ok none
  | some ops =>
    if (m.ttlEnabled || ops.any reservedOp) = false then
      .ok none
    else if m.ttlEnabled then
      match m.dataIdentity with
      | none => .error (.raft "TTL-enabled engine lacks local data group identity")
      | some identity => do
        let result ← m.ttlRefuse pos identity.region .legacyCommand
        return some result
    else
      .error (.raft "legacy command targets reserved Raw TTL metadata")

/-! ## Entries -/

/-- The refusal of a machine that cannot judge a fence. -/
def missingAdjudicator : Error := .raft
  ("committed fenced entry on a node with no fence adjudicator: "
    ++ "this node cannot compute the log-determined verdict and must "
    ++ "not guess (install the adjudicator before enabling fenced proposals)")

/-- Apply a command that the guard has let through. -/
def applyGuarded (x : Externals) (m : Machine) (pos : AppliedPosition) (cmd : Command) :
    Except Error (Machine × ApplyResult) :=
  match cmd with
  | .dataRange expected next => m.applyDataRange x pos expected next
  | .compactionConfirmed region floor => m.applyCompactionConfirmed pos region floor
  | .manifestChange p => m.applyManifestChange x pos false p
  | .largeManifestChange p => m.applyManifestChange x pos true p
  | cmd => do
    let (batch, outcome) ← m.adjudicate missingAdjudicator cmd
    m.finish batch pos outcome

/-- Apply a command that is not on expiring values. -/
def applyOther (x : Externals) (m : Machine) (pos : AppliedPosition) (cmd : Command) :
    Except Error (Machine × ApplyResult) := do
  let guarded ← m.guardLegacyTtl pos cmd
  match guarded with
  | some result => return result
  | none => m.applyGuarded x pos cmd

/-- Apply a command at a position.  A position that is not above the applied one is skipped. -/
def applyAt (x : Externals) (m : Machine) (pos : AppliedPosition) (cmd : Command) :
    Except Error (Machine × ApplyResult) :=
  if pos.index ≤ m.applied then
    .ok (m, ⟨pos.index, .plain⟩)
  else
    match cmd with
    | .rawTtl command => m.applyRawTtl pos command
    | cmd => m.applyOther x pos cmd

/-! ## Groups -/

/-- The most entries of a group. -/
def maxRawGroupEntries : ℕ := 128

/-- The most bytes of a group. -/
def maxRawGroupBytes : ℕ := 1024 * 1024

/-- Whether a row is the value of a client. -/
def rawKey (cf : UInt8) (key : Bytes) : Bool :=
  cf == cfCode .default &&
    match decodeKey key with
    | .ok k => k.mode == .raw && k.keyspace != systemKeyspace
    | .error _ => false

/-- Whether all operations are on values of clients. -/
def rawOps (ops : List KvOp) : Bool := ops.all fun op => rawKey op.cf op.key

/-- Whether a command may be applied together with others. -/
def canGroupRaw (m : Machine) (cmd : Command) : Bool :=
  if m.ttlEnabled then false
  else
    match cmd with
    | .put cf key _ => rawKey cf key
    | .write ops => rawOps ops
    | .fenced _ inner => rawOps inner.ops && m.dataIdentity.isSome
    | _ => false

/-- The batch and the answers of a group, after a position. -/
def groupLoop (m : Machine) (previous : AppliedPosition) :
    List (AppliedPosition × Command) → Except Error (WriteBatch × List ApplyResult)
  | [] => .ok ([], [])
  | (pos, cmd) :: commands => do
    failIf (pos.index ≤ previous.index ∨ pos.term = 0 ∨ pos.term < previous.term)
      (.raft "Raw apply group positions are not ordered")
    failIf (m.canGroupRaw cmd = false) (.raft "non-independent command in Raw apply group")
    let (next, outcome) ←
      m.adjudicate (.raft "Raw apply group requires fence adjudicator") cmd
    let (batch, results) ← groupLoop m pos commands
    return (next ++ batch, ⟨pos.index, outcome⟩ :: results)

/-- The term of the position applied last, or zero. -/
def appliedTerm (m : Machine) : UInt64 :=
  match m.engine.applied with
  | some pos => pos.term
  | none => 0

/-- Apply a group of commands with one positioned write. -/
def applyRawGroup (m : Machine) (commands : List (AppliedPosition × Command)) :
    Except Error (Machine × List ApplyResult) :=
  match commands.getLast? with
  | none => .error (.raft "invalid Raw apply group length")
  | some last => do
    failIf (maxRawGroupEntries < commands.length) (.raft "invalid Raw apply group length")
    let (batch, results) ← m.groupLoop ⟨m.appliedTerm, m.applied⟩ commands
    let engine ← m.engine.writeApplied batch last.1
    return ({ m with engine := engine, applied := last.1.index }, results)

end Machine

end Kv9.Raft
