import Kv9.Raft.Lease.Policy
import Kv9.Raft.Storage.Memory

/-!
# Configurations on record

Besides the current configuration the storage keeps three accounts of the configurations it has
seen: the history, which answers for a past index; the origins, which say who asked for a change;
and the membership observations, which name every node that was ever a member.  All three grow
by one record at a time, and the last two carry a digest of everything recorded so far.
-/

namespace Kv9.Raft.Storage

open Except Codec

/-- What an origin asks for. -/
inductive Action where
  | attach
  | promote
  | remove
  | detach
deriving DecidableEq, Repr

def Action.taskKind : Action → ℕ
  | .attach => 103
  | .promote => 104
  | .remove => 106
  | .detach => 108

def Action.byte : Action → UInt8
  | .attach => 1
  | .promote => 2
  | .remove => 3
  | .detach => 4

/-- The metadata task that asked for a change of configuration. -/
structure ConfigurationOrigin where
  root : RootDigest
  creation : RootDigest
  region : UInt64
  operation : Bytes
  task : UInt64
  node : UInt64
  store : Bytes
  sourceDigest : RootDigest
  action : Action
deriving DecidableEq

def ConfigurationOrigin.encode (o : ConfigurationOrigin) : Except Error Bytes := do
  failIf (o.root = .zero ∨ o.creation = .zero ∨ o.region < 100 ∨ o.operation = List.replicate 16 0
    ∨ o.task < 100 ∨ o.node = 0 ∨ o.store = List.replicate 16 0 ∨ o.sourceDigest = .zero)
    (.raft "invalid DATA configuration origin")
  return "KV9CFO01".toUTF8.toList ++ o.root.bytes ++ o.creation.bytes ++ be64 o.region
    ++ o.operation ++ be64 o.task ++ be 8 o.action.taskKind ++ be64 o.node ++ o.store
    ++ o.sourceDigest.bytes ++ [o.action.byte]

/-- What the storage takes from its libraries: a digest, the text forms of the messages, and
what a configuration entry says of its origin. -/
structure Wire where
  sha256 : Bytes → RootDigest
  confState : ConfState → Bytes
  hardState : HardState → Bytes
  entry : Entry → Bytes
  snapshot : Snapshot → Bytes
  leaseEpoch : Lease.LeaseEpoch → Bytes
  fromChange : Bytes → Except Error (Option ConfigurationOrigin)
  length_hardState : ∀ hs, hs.unknownFields = [] → (hardState hs).length ≤ 64

/-! ## The history -/

/-- The initial configuration and the applied ones, in the order of their indices. -/
structure ConfigurationHistory where
  initial : Option ConfState
  applied : List (ℕ × ConfState)
  ambiguous : Bool
deriving DecidableEq, Repr

namespace ConfigurationHistory

def default : ConfigurationHistory := ⟨none, [], false⟩

/-- Put a configuration in its place, unless its index is taken. -/
def insertNew (index : ℕ) (state : ConfState) : List (ℕ × ConfState) → List (ℕ × ConfState)
  | [] => [(index, state)]
  | (i, s) :: rest =>
    if index < i then (index, state) :: (i, s) :: rest
    else if index = i then (i, s) :: rest
    else (i, s) :: insertNew index state rest

/-- Record the initial configuration. -/
def recordInitial (h : ConfigurationHistory) (state : ConfState) : ConfigurationHistory where
  initial := h.initial.or (some state)
  applied := h.applied
  ambiguous := h.ambiguous || h.initial.isSome || !h.applied.isEmpty

/-- Record a configuration applied at an index. -/
def recordApplied (h : ConfigurationHistory) (index : ℕ) (state : ConfState) :
    ConfigurationHistory where
  initial := h.initial
  applied := insertNew index state h.applied
  ambiguous := h.ambiguous || index == 0 ||
    h.applied.getLast?.any fun last => index < last.1 || (last.1 == index && last.2 != state)

/-- The records that say a history again.  An ambiguous one is refused. -/
def reserialize (h : ConfigurationHistory) :
    Except Error (Option ConfState × List (ℕ × ConfState)) := do
  failIf h.ambiguous (.raft "cannot reclaim a group with an ambiguous configuration history")
  return (h.initial, h.applied)

/-- The last configuration applied in `(low, high]`. -/
def lastIn (h : ConfigurationHistory) (low high : ℕ) : Option (ℕ × ConfState) :=
  (h.applied.filter fun a => low < a.1 && a.1 ≤ high).getLast?

end ConfigurationHistory

/-! ## The origins -/

/-- An origin with the position of its entry. -/
structure AppliedConfigurationOrigin where
  position : Position
  origin : ConfigurationOrigin
deriving DecidableEq

def originInvalid : Error := .raft "invalid durable DATA configuration origin"

/-- The text form of an origin with its position. -/
def AppliedConfigurationOrigin.observationBytes (r : AppliedConfigurationOrigin) :
    Except Error Bytes := do
  failIf (r.position.term = 0 ∨ r.position.index = 0 ∨ r.position.index = maxIndex) originInvalid
  let origin ← r.origin.encode
  return be 8 r.position.term ++ be 8 r.position.index ++ origin

/-- The origins in the order of their indices, each with its ordinal; a digest of all of them;
and whether a change without an origin was seen. -/
structure Origins where
  entries : List (ℕ × AppliedConfigurationOrigin)
  chain : RootDigest
  legacyUnknown : Bool
deriving DecidableEq

namespace Origins

def new (w : Wire) : Origins := ⟨[], w.sha256 "KV9 origin chain 1".toUTF8.toList, false⟩

/-- The origin of the change at an index. -/
def get (o : Origins) (index : ℕ) : Option AppliedConfigurationOrigin :=
  (o.entries.find? fun e => e.2.position.index = index).map (·.2)

def observeLegacy (o : Origins) : Origins := { o with legacyUnknown := true }

/-- An origin is recorded once, and after all origins of earlier changes. -/
def validateInsert (o : Origins) (record : AppliedConfigurationOrigin) : Except Error Unit := do
  let _ ← record.observationBytes
  match o.get record.position.index with
  | some old => failIf (old ≠ record) originInvalid
  | none =>
    failIf (o.entries.getLast?.any fun last =>
      record.position.index ≤ last.2.position.index) originInvalid

def insert (w : Wire) (o : Origins) (record : AppliedConfigurationOrigin) : Except Error Origins := do
  o.validateInsert record
  if (o.get record.position.index).isSome then return o
  let bytes ← record.observationBytes
  return {
    entries := o.entries ++ [(o.entries.length + 1, record)]
    chain := w.sha256 (o.chain.bytes ++ bytes)
    legacyUnknown := o.legacyUnknown }

end Origins

/-! ## The timeline -/

/-- The most members of a set that are looked at. -/
def maxAnchorMembers : ℕ := 1024

/-- A configuration in its canonical form: its sets in order. -/
structure ConfigurationState where
  voters : List UInt64
  outgoing : List UInt64
  learners : List UInt64
  learnersNext : List UInt64
  autoLeave : Bool
deriving DecidableEq, Repr

namespace ConfState

/-- The sets of members. -/
def sets (cs : ConfState) : List (List UInt64) :=
  [cs.voters, cs.votersOutgoing, cs.learners, cs.learnersNext]

/-- Whether a configuration has unknown fields or too many members to be looked at. -/
def Unsupported (cs : ConfState) : Prop :=
  cs.unknownFields ≠ [] ∨ ∃ nodes ∈ cs.sets, maxAnchorMembers < nodes.length

instance (cs : ConfState) : Decidable cs.Unsupported := inferInstanceAs (Decidable (_ ∨ _))

/-- Whether the sets of a configuration contradict each other. -/
def Inconsistent (cs : ConfState) : Prop :=
  cs.voters = [] ∨ (∃ n ∈ cs.learners, n ∈ cs.voters ∨ n ∈ cs.votersOutgoing)
    ∨ (∃ n ∈ cs.learnersNext, n ∉ cs.votersOutgoing ∨ n ∈ cs.voters ∨ n ∈ cs.learners)
    ∨ (cs.votersOutgoing = [] ∧ (cs.autoLeave ∨ cs.learnersNext ≠ []))

instance (cs : ConfState) : Decidable cs.Inconsistent := inferInstanceAs (Decidable (_ ∨ _))

end ConfState

namespace ConfigurationState

def sets (s : ConfigurationState) : List (List UInt64) :=
  [s.voters, s.outgoing, s.learners, s.learnersNext]

def validate (s : ConfigurationState) : Except Error Unit :=
  failIf ((∃ nodes ∈ s.sets, maxAnchorMembers < nodes.length ∨ nodes.head? = some 0
      ∨ ¬ nodes.IsChain (· < ·))
    ∨ s.voters = [] ∨ (∃ n ∈ s.learners, n ∈ s.voters ∨ n ∈ s.outgoing)
    ∨ (∃ n ∈ s.learnersNext, n ∉ s.outgoing ∨ n ∈ s.voters ∨ n ∈ s.learners)
    ∨ (s.outgoing = [] ∧ (s.autoLeave ∨ s.learnersNext ≠ [])))
    (.raft "invalid local configuration timeline")

/-- The canonical form of a configuration, if it has one. -/
def observe (cs : ConfState) : Option ConfigurationState :=
  if cs.Unsupported then none
  else
    let state : ConfigurationState := {
      voters := cs.voters.insertionSort (· ≤ ·)
      outgoing := cs.votersOutgoing.insertionSort (· ≤ ·)
      learners := cs.learners.insertionSort (· ≤ ·)
      learnersNext := cs.learnersNext.insertionSort (· ≤ ·)
      autoLeave := cs.autoLeave }
    state.validate.toOption.map fun _ => state

def encode (s : ConfigurationState) : Except Error Bytes := do
  s.validate
  return s.autoLeave.toUInt8 :: s.sets.flatMap fun nodes =>
    be 2 nodes.length ++ nodes.flatMap be64

end ConfigurationState

/-- What a record of the timeline is about. -/
inductive RecordKind where
  | initial
  | applied (index : ℕ)
  | snapshot (cut : Position)
deriving DecidableEq, Repr

/-- A record of the timeline. -/
structure ConfigurationRecord where
  ordinal : ℕ
  kind : RecordKind
  state : Option ConfigurationState
  origin : Option AppliedConfigurationOrigin
deriving DecidableEq

/-- The text form of the kind of a record. -/
def RecordKind.encode : RecordKind → Except Error Bytes
  | .initial => .ok (0 :: (be 8 0 ++ be 8 0))
  | .applied index => .ok (1 :: (be 8 0 ++ be 8 index))
  | .snapshot cut => do
    failIf (cut.term = 0 ∨ cut.index = 0 ∨ cut.index = maxIndex)
      (.raft "invalid local configuration timeline")
    return 2 :: (be 8 cut.term ++ be 8 cut.index)

def ConfigurationRecord.encode (r : ConfigurationRecord) : Except Error Bytes := do
  let invalid : Error := .raft "invalid local configuration timeline"
  failIf (r.ordinal = 0) invalid
  let kind ← r.kind.encode
  let origin ← match r.origin with
    | none => .ok [0]
    | some o => do
      failIf (r.kind ≠ .applied o.position.index ∨ o.position.term = 0 ∨ o.position.index = 0
        ∨ o.position.index = maxIndex) invalid
      let origin ← o.origin.encode
      return 1 :: (be 8 o.position.term ++ be 8 o.position.index ++ origin)
  let state ← match r.state with
    | none => .ok [0]
    | some s => do
      let state ← s.encode
      return 1 :: state
  let bytes := "KV9CTR01".toUTF8.toList ++ be 8 r.ordinal ++ kind ++ origin ++ state
  failIf (33024 < bytes.length) invalid
  return bytes

/-- The records in order, and a digest of all of them. -/
structure ConfigurationTimeline where
  records : List ConfigurationRecord
  chain : RootDigest
deriving DecidableEq

namespace ConfigurationTimeline

def new (w : Wire) : ConfigurationTimeline :=
  ⟨[], w.sha256 "KV9 configuration timeline 1".toUTF8.toList⟩

/-- Add a record.  The same change, seen again, is no new record. -/
def observe (w : Wire) (t : ConfigurationTimeline) (kind : RecordKind) (cs : ConfState)
    (origin : Option AppliedConfigurationOrigin) : ConfigurationTimeline :=
  let record : ConfigurationRecord :=
    ⟨t.records.length + 1, kind, ConfigurationState.observe cs, origin⟩
  let again : Bool := match kind with
    | .applied _ => t.records.getLast?.any fun last =>
      last.kind == kind && last.state == record.state && last.origin == origin
    | _ => false
  if again then t
  else
    match record.encode with
    -- The code stops here; what is observed always has a text form.
    | .error _ => t
    | .ok bytes => ⟨t.records ++ [record], w.sha256 (t.chain.bytes ++ bytes)⟩

end ConfigurationTimeline

end Kv9.Raft.Storage
