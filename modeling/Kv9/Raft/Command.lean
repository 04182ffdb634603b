import Kv9.Common.DataRange
import Kv9.Common.RawTtl

/-!
# Replicated commands

A command is the payload of a log entry.  Plain writes, catalog transactions and fenced
writes lower to mutations; the other commands take effect only in ordered apply.
-/

namespace Kv9.Raft

open Codec Except Engine RawTtl

/-! ## Column families -/

/-- The code of a column family. -/
def cfCode : ColumnFamily → UInt8
  | .default => 0
  | .lock => 1
  | .write => 2

/-- The column family of a code.  Unknown codes name the default column family. -/
def cfFromCode (code : UInt8) : ColumnFamily :=
  if code = 1 then .lock
  else if code = 2 then .write
  else .default

/-- A put or a delete, as it travels in a command. -/
inductive KvOp where
  | put (cf : UInt8) (key value : Bytes)
  | delete (cf : UInt8) (key : Bytes)
deriving DecidableEq

/-- The column family code of an operation. -/
def KvOp.cf : KvOp → UInt8
  | .put cf _ _ => cf
  | .delete cf _ => cf

/-- The key of an operation. -/
def KvOp.key : KvOp → Bytes
  | .put _ key _ => key
  | .delete _ key => key

/-- The mutation an operation lowers to. -/
def KvOp.lower : KvOp → Mutation
  | .put cf key value => .put (cfFromCode cf) key value
  | .delete cf key => .delete (cfFromCode cf) key

/-- Lower a list of operations. -/
def lowerOps (ops : List KvOp) : WriteBatch := ops.map KvOp.lower

/-! ## Commands -/

/-- The epoch a proposer expects a region to have. -/
structure RegionFence where
  regionId : UInt64
  confVer : UInt64
  version : UInt64
deriving DecidableEq

/-- What a fence may wrap. -/
inductive FencedInner where
  | write (ops : List KvOp)
deriving DecidableEq

/-- The operations behind a fence. -/
def FencedInner.ops : FencedInner → List KvOp
  | .write ops => ops

/-- The batch of a fenced command whose fence was checked. -/
def FencedInner.toWriteBatch (inner : FencedInner) : WriteBatch := lowerOps inner.ops

/-- A change of the manifest of a region. -/
structure ManifestChangePayload where
  region : UInt64
  changeId : Bytes
  expectedGeneration : UInt64
  changeset : Bytes
  watermarkTerm : UInt64
  watermarkIndex : UInt64
deriving DecidableEq

/-- A put or a delete of an expiring value. -/
inductive RawTtlMutation where
  | put (key value : Bytes)
  | delete (key : Bytes)
deriving DecidableEq

/-- The user key of a mutation. -/
def RawTtlMutation.key : RawTtlMutation → Bytes
  | .put key _ => key
  | .delete key => key

/-- What a command on expiring values does. -/
inductive RawTtlAction where
  | enable (observed : ClockWatermark)
  | observe (observed : ClockWatermark)
  | write (plan : ExpiryPlan) (mutations : List RawTtlMutation)
  | cleanup (candidates : List (Bytes × ExpiryRecord))
deriving DecidableEq

/-- Whether an action enables expiring values. -/
def RawTtlAction.isEnable : RawTtlAction → Bool
  | .enable _ => true
  | _ => false

/-- A command on expiring values, for one keyspace of one group at one epoch. -/
structure RawTtlCommand where
  root : RootDigest
  creation : RootDigest
  fence : RegionFence
  keyspace : KeyspaceId
  action : RawTtlAction
deriving DecidableEq

/-- The user keys a command names. -/
def RawTtlCommand.keys (command : RawTtlCommand) : List Bytes :=
  match command.action with
  | .write _ mutations => mutations.map RawTtlMutation.key
  | .cleanup candidates => candidates.map Prod.fst
  | _ => []

/-- The commands a group replicates. -/
inductive Command where
  | rawTtl (command : RawTtlCommand)
  | dataRange (expected : Option RootDigest) (next : DataRange)
  | put (cf : UInt8) (key value : Bytes)
  | catalogTxn (ops : List KvOp)
  | write (ops : List KvOp)
  | confChange (add : Bool) (node : UInt64)
  | noop
  | manifestChange (payload : ManifestChangePayload)
  | largeManifestChange (payload : ManifestChangePayload)
  | fenced (fence : RegionFence) (inner : FencedInner)
  | compactionConfirmed (region : UInt64) (floor : AppliedPosition)
deriving DecidableEq

/-- The batch of a command that needs no check. -/
def Command.toWriteBatch : Command → Except Error WriteBatch
  | .rawTtl _ => .error (.raft "Raw TTL requires ordered apply")
  | .dataRange _ _ => .error (.raft "data range requires ordered ownership CAS")
  | .put cf key value => .ok [.put (cfFromCode cf) key value]
  | .catalogTxn ops => .ok (lowerOps ops)
  | .write ops => .ok (lowerOps ops)
  | .confChange _ _ => .ok []
  | .noop => .ok []
  | .fenced _ _ => .error (.raft
      ("a fenced command cannot be lowered without its fence check; "
        ++ "the ordered-apply loop must adjudicate and lower the inner ops"))
  | .manifestChange _ | .largeManifestChange _ => .error (.raft
      ("a manifest change cannot be lowered without its generation CAS; "
        ++ "the ordered-apply loop must run the discriminator and write the "
        ++ "pair atomically (task #9 P4: no other path writes either field)"))
  | .compactionConfirmed _ _ => .error (.raft
      ("a compaction confirmation requires ordered identity + monotonic "
        ++ "CAS; the ordered-apply loop writes the reserved floor key"))

/-! ## Decoding -/

/-- The refusal of an entry that ends too early. -/
def truncated : Error := .raft "truncated command entry"

/-- Read a byte string with its length. -/
def readBytes : Parser Error Bytes := do
  let n ← takeBe32 truncated
  take truncated n.toNat

/-- Read an operation. -/
def readOp (ctx : String) : Parser Error KvOp := do
  let tag ← takeByte truncated
  if tag = 1 then do
    let cf ← takeByte truncated
    let key ← readBytes
    let value ← readBytes
    return .put cf key value
  else if tag = 2 then do
    let cf ← takeByte truncated
    let key ← readBytes
    return .delete cf key
  else
    throw (.raft ("unknown " ++ ctx ++ " op tag " ++ toString tag))

/-- Read a list of operations. -/
def readOps (ctx : String) : Parser Error (List KvOp) := do
  let count ← takeBe32 truncated
  times (readOp ctx) count.toNat

/-- Read a fence. -/
def readFence : Parser Error RegionFence := do
  let regionId ← takeBe64 truncated
  let confVer ← takeBe64 truncated
  let version ← takeBe64 truncated
  return ⟨regionId, confVer, version⟩

/-- Read what a fence wraps. -/
def readInner : Parser Error FencedInner := do
  let tag ← takeByte truncated
  if tag = 5 then do
    let ops ← readOps "Fenced(Write)"
    return .write ops
  else if tag = 6 then
    throw (.raft "fenced command cannot nest a fence")
  else
    throw (.raft ("command tag " ++ toString tag ++ " is not fenceable"))

/-- Read a manifest change. -/
def readManifestChange : Parser Error ManifestChangePayload := do
  let region ← takeBe64 truncated
  let changeId ← readBytes
  let expectedGeneration ← takeBe64 truncated
  let changeset ← readBytes
  let watermarkTerm ← takeBe64 truncated
  let watermarkIndex ← takeBe64 truncated
  return ⟨region, changeId, expectedGeneration, changeset, watermarkTerm, watermarkIndex⟩

/-- The digest a range command expects, if any. -/
def expectedDigest (bytes : Bytes) : Except Error (Option RootDigest) :=
  if bytes = [] then .ok none
  else if h : bytes.length = 32 then .ok (some ⟨bytes, h⟩)
  else .error (.raft "invalid range predecessor digest")

/-- Read a range command. -/
def readDataRange : Parser Error Command := do
  let expected ← readBytes
  let expected ← (expectedDigest expected : Except Error _)
  let next ← readBytes
  let next ← (DataRange.decode next : Except Error _)
  return .dataRange expected next

/-! ### Commands on expiring values -/

/-- The largest command on expiring values. -/
def maxCommandBytes : ℕ := 16 * 1024 * 1024

/-- The most mutations of a command on expiring values. -/
def maxMutations : ℕ := 4096

/-- The largest user key of a command on expiring values. -/
def maxKeyBytes : ℕ := 65536

/-- The refusal of a command on expiring values. -/
def badTtl : Error := .raft "invalid or oversized Raw TTL command"

/-- The encoded size of a mutation. -/
def RawTtlMutation.size : RawTtlMutation → ℕ
  | .put key value => 9 + key.length + value.length
  | .delete key => 5 + key.length

/-- `KV9TPL01`. -/
def planMagic : Bytes := "KV9TPL01".toUTF8.toList

/-- Whether the fields of a plan can be read back: the deadline is not before the time
observed. -/
def validPlan (plan : ExpiryPlan) : Except Error Unit :=
  failIf (∃ deadline ∈ plan.expiresAtMs, deadline < plan.observed.unixMs)
    (.engine "invalid Raw TTL proposal deadline")

/-- The encoded size of an action after its tag. -/
def RawTtlAction.size : RawTtlAction → ℕ
  | .enable _ | .observe _ => 16
  | .write _ mutations => 25 + 4 + (mutations.map RawTtlMutation.size).sum
  | .cleanup candidates => 4 + (candidates.map fun c => 4 + 64 + c.1.length).sum

/-- Check the scope, the plan and the sizes of a command. -/
def RawTtlCommand.validate (command : RawTtlCommand) : Except Error Unit := do
  failIf (command.root = .zero ∨ command.creation = .zero ∨ command.fence.regionId < 100
    ∨ command.fence.confVer = 0 ∨ command.fence.version = 0 ∨ command.keyspace = systemKeyspace
    ∨ maxKeyspace < command.keyspace ∨ ∃ key ∈ command.keys, maxKeyBytes < key.length) badTtl
  match command.action with
  | .enable _ | .observe _ => .ok ()
  | .write plan mutations => do
    failIf (mutations = [] ∨ maxMutations < mutations.length) badTtl
    validPlan plan
  | .cleanup candidates =>
    failIf (candidates = [] ∨ maxMutations < candidates.length) badTtl
  failIf (maxCommandBytes < 2 + 32 + 32 + 24 + 4 + 1 + command.action.size) badTtl

/-- Read a plan. -/
def readPlan : Parser Error ExpiryPlan := do
  let magic ← take truncated 8
  guardOr (magic = planMagic) (.engine "invalid Raw TTL proposal time encoding")
  let observed ← takeBe64 truncated
  let tag ← takeByte truncated
  let deadline ← takeBe64 truncated
  if tag = 0 ∧ deadline = 0 then
    return ⟨⟨observed⟩, none⟩
  else if tag = 1 ∧ observed ≤ deadline then
    return ⟨⟨observed⟩, some deadline⟩
  else
    throw (.engine "invalid Raw TTL proposal deadline")

/-- Read a number of mutations or candidates. -/
def boundedCount : Parser Error ℕ := do
  let count ← takeBe32 truncated
  guardOr (0 < count.toNat ∧ count.toNat ≤ maxMutations)
    (.raft "Raw TTL mutation count exceeds budget")
  return count.toNat

/-- Read a mutation of an expiring value. -/
def readTtlMutation : Parser Error RawTtlMutation := do
  let tag ← takeByte truncated
  if tag = 1 then do
    let key ← readBytes
    let value ← readBytes
    return .put key value
  else if tag = 2 then do
    let key ← readBytes
    return .delete key
  else
    throw (.raft "unknown Raw TTL mutation")

/-- Read a candidate of a cleanup. -/
def readCandidate : Parser Error (Bytes × ExpiryRecord) := do
  let key ← readBytes
  let record ← take truncated 64
  let record ← (ExpiryRecord.decode record : Except Error _)
  return (key, record)

/-- Read an action. -/
def readAction : Parser Error RawTtlAction := do
  let tag ← takeByte truncated
  if tag = 1 ∨ tag = 2 then do
    let observed ← take truncated 16
    let observed ← (ClockWatermark.decode observed : Except Error _)
    return if tag = 1 then .enable observed else .observe observed
  else if tag = 3 then do
    let plan ← readPlan
    let count ← boundedCount
    let mutations ← times readTtlMutation count
    return .write plan mutations
  else if tag = 4 then do
    let count ← boundedCount
    let candidates ← times readCandidate count
    return .cleanup candidates
  else
    throw (.raft "unknown Raw TTL action")

/-- Read a command on expiring values. -/
def readRawTtl : Parser Error RawTtlCommand := do
  let root ← take truncated 32
  let creation ← take truncated 32
  let fence ← readFence
  let keyspace ← takeBe32 truncated
  let action ← readAction
  if h : root.length = 32 ∧ creation.length = 32 then do
    let command : RawTtlCommand := ⟨⟨root, h.1⟩, ⟨creation, h.2⟩, fence, keyspace, action⟩
    let _ ← (command.validate : Except Error _)
    return command
  else
    throw truncated

/-! ### Entries -/

/-- The entry format of this version. -/
def entryVersion : UInt8 := 1

/-- Read the payload of a command of a tag; `size` is the length of the entry. -/
def readPayload (size : ℕ) (tag : UInt8) : Parser Error Command := do
  match tag with
  | 1 =>
    let cf ← takeByte truncated
    let key ← readBytes
    let value ← readBytes
    return .put cf key value
  | 2 =>
    let ops ← readOps "CatalogTxn"
    return .catalogTxn ops
  | 3 =>
    let add ← takeByte truncated
    let node ← takeBe64 truncated
    return .confChange (add != 0) node
  | 4 => return .noop
  | 5 =>
    let ops ← readOps "Write"
    return .write ops
  | 6 =>
    let fence ← readFence
    let inner ← readInner
    return .fenced fence inner
  | 7 =>
    let payload ← readManifestChange
    return .manifestChange payload
  | 8 => readDataRange
  | 9 =>
    let region ← takeBe64 truncated
    let term ← takeBe64 truncated
    let index ← takeBe64 truncated
    return .compactionConfirmed region ⟨term, index⟩
  | 10 =>
    guardOr (size ≤ maxCommandBytes) (.raft "Raw TTL command exceeds byte budget")
    let command ← readRawTtl
    return .rawTtl command
  | 14 =>
    let payload ← readManifestChange
    return .largeManifestChange payload
  | other => throw (.raft ("unknown command tag " ++ toString other))

/-- Read a version, a tag and the payload of the tag. -/
def readCommand (size : ℕ) : Parser Error Command := do
  let version ← takeByte truncated
  guardOr (version = entryVersion)
    (.raft ("unknown command entry version " ++ toString version ++ " (this binary speaks "
      ++ toString entryVersion ++ ")"))
  let tag ← takeByte truncated
  readPayload size tag

/-- Decode the command of an entry. -/
def Command.decode (bytes : Bytes) : Except Error Command := do
  let (command, rest) ← readCommand bytes.length bytes
  failIf (rest ≠ []) (.raft (toString rest.length ++ " trailing bytes after command"))
  return command

/-! ## Lemmas -/

theorem mem_lowerOps {ops : List KvOp} {m : Mutation} :
  m ∈ lowerOps ops ↔ ∃ op ∈ ops, op.lower = m
  := List.mem_map

@[simp]
theorem KvOp.cf_lower (op : KvOp) :
  op.lower.cf = cfFromCode op.cf
  := by
  cases op
  · rfl
  · rfl

@[simp]
theorem KvOp.key_lower (op : KvOp) :
  op.lower.key = op.key
  := by
  cases op
  · rfl
  · rfl

/-- Only its own code names the write column family. -/
theorem cfFromCode_eq_write {code : UInt8} :
  cfFromCode code = .write ↔ code = cfCode .write
  := by
  rw [cfFromCode, cfCode]
  split_ifs with h1 h2
  · simp [h1]
  · simp [h2]
  · simp [h2]

end Kv9.Raft
