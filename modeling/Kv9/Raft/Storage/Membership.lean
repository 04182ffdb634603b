import Kv9.Raft.Storage.History

/-!
# Nodes that were ever members

The membership observations collect every node that a configuration named, with the roles it
had.  What could not be understood is kept as a gap.  A digest over all of it tells two
observations apart: if the records seen so far agree, then equal digests mean that the nodes and
the gaps agree as well, unless the digest has a collision there.
-/

namespace Kv9.Raft.Storage

open Except Codec

/-- What is known of the first configuration. -/
inductive InitialConfiguration where
  | missing
  | ambiguous
  | unsupported
  | voters (nodes : List UInt64)
deriving DecidableEq, Repr

namespace InitialConfiguration

def observe (cs : ConfState) : InitialConfiguration :=
  if cs.unknownFields ≠ [] ∨ cs.voters.length ∉ [3, 5, 7] ∨ cs.votersOutgoing ≠ []
      ∨ cs.learners ≠ [] ∨ cs.learnersNext ≠ [] ∨ cs.autoLeave then .unsupported
  else
    let nodes := cs.voters.insertionSort (· ≤ ·)
    if nodes.head? = some 0 ∨ ¬ nodes.IsChain (· ≠ ·) then .unsupported else .voters nodes

def encode : InitialConfiguration → Except Error Bytes
  | .missing => .ok [0]
  | .ambiguous => .ok [1]
  | .unsupported => .ok [2]
  | .voters nodes => do
    failIf (nodes.length ∉ [3, 5, 7] ∨ nodes.head? = some 0 ∨ ¬ nodes.IsChain (· < ·))
      (.raft "invalid native initial configuration")
    return 3 :: UInt8.ofNat nodes.length :: nodes.flatMap be64

end InitialConfiguration

/-- What is missing from the observations. -/
structure MembershipGaps where
  missingInitial : Bool
  snapshotPrefixUnknown : Bool
  ambiguousRecords : Bool
  unsupportedConfiguration : Bool
  memberLimitExceeded : Bool
deriving DecidableEq, Repr

/-- The gaps before any record. -/
def MembershipGaps.new : MembershipGaps := ⟨true, false, false, false, false⟩

def MembershipGaps.encode (g : MembershipGaps) : Bytes :=
  [g.missingInitial.toUInt8, g.snapshotPrefixUnknown.toUInt8, g.ambiguousRecords.toUInt8,
    g.unsupportedConfiguration.toUInt8, g.memberLimitExceeded.toUInt8]

/-- The most nodes that are kept. -/
def maxKnownMembers : ℕ := 4096

/-- The bits of the roles, in the order of the sets of a configuration. -/
def seenRoles : List UInt8 := [1, 2, 4, 8]

/-- Add a role to a node.  The nodes are in order. -/
def addRole (node : UInt64) (role : UInt8) : List (UInt64 × UInt8) → List (UInt64 × UInt8)
  | [] => [(node, role)]
  | (n, roles) :: rest =>
    if node < n then (node, role) :: (n, roles) :: rest
    else if node = n then (n, roles ||| role) :: rest
    else (n, roles) :: addRole node role rest

/-- The observations. -/
structure MembershipHistory where
  members : List (UInt64 × UInt8)
  initial : Bool
  timeline : ConfigurationTimeline
  initialObservation : InitialConfiguration
  gaps : MembershipGaps
  lastChange : Option (ℕ × RootDigest)
  snapshot : Option Position
  fingerprint : RootDigest
deriving DecidableEq

namespace MembershipHistory

/-- The index of the last change or snapshot. -/
def lastIndex (h : MembershipHistory) : ℕ :=
  max ((h.lastChange.map (·.1)).getD 0) ((h.snapshot.map (·.index)).getD 0)

/-- What the fingerprint is a digest of. -/
def text (h : MembershipHistory) : Bytes :=
  "KV9MEM01".toUTF8.toList ++ h.timeline.chain.bytes
    ++ h.initialObservation.encode.toOption.getD [] ++ h.gaps.encode ++ be 8 h.lastIndex
    ++ (match h.snapshot with
      | some cut => be 8 cut.term ++ be 8 cut.index
      | none => List.replicate 16 0)
    ++ h.members.flatMap fun m => be64 m.1 ++ [m.2]

def rehash (w : Wire) (h : MembershipHistory) : MembershipHistory :=
  { h with fingerprint := w.sha256 h.text }

/-- The observations before any record. -/
def new (w : Wire) : MembershipHistory :=
  rehash w {
    members := []
    initial := false
    timeline := .new w
    initialObservation := .missing
    gaps := .new
    lastChange := none
    snapshot := none
    fingerprint := .zero }

def unsupported (h : MembershipHistory) : MembershipHistory :=
  { h with gaps := { h.gaps with unsupportedConfiguration := true } }

/-- Keep a node and a role.  Past the limit the nodes with the lowest numbers are kept. -/
def observeNode (role : UInt8) (node : UInt64) (h : MembershipHistory) : MembershipHistory :=
  if (h.members.any fun m => m.1 = node) ∨ h.members.length < maxKnownMembers then
    { h with members := addRole node role h.members }
  else
    let h := { h with gaps := { h.gaps with memberLimitExceeded := true } }
    if h.members.getLast?.any fun last => node < last.1 then
      { h with members := addRole node role h.members.dropLast }
    else h

/-- Look at the nodes of a set, the ones before them in the set being known. -/
def observeNodes (role : UInt8) :
    List UInt64 → List UInt64 → MembershipHistory → MembershipHistory
  | _, [], h => h
  | before, node :: rest, h =>
    observeNodes role (before ++ [node]) rest
      (if node = 0 ∨ node ∈ before then h.unsupported else h.observeNode role node)

/-- Look at a configuration. -/
def observe (cs : ConfState) (h : MembershipHistory) : MembershipHistory :=
  if cs.Unsupported then h.unsupported
  else
    (seenRoles.zip cs.sets).foldl (fun h set => observeNodes set.1 [] set.2 h)
      (if cs.Inconsistent then h.unsupported else h)

/-- Record the initial configuration. -/
def recordInitial (w : Wire) (h : MembershipHistory) (cs : ConfState) : MembershipHistory :=
  let again := h.initial || h.lastChange.isSome || h.snapshot.isSome
  rehash w (observe cs { h with
    timeline := h.timeline.observe w .initial cs none
    initialObservation := if again then .ambiguous else .observe cs
    initial := true
    gaps := { h.gaps with
      missingInitial := false
      ambiguousRecords := h.gaps.ambiguousRecords || again } })

/-- The digest of a configuration that can be looked at. -/
def digest (w : Wire) (cs : ConfState) : RootDigest :=
  if cs.Unsupported then .zero else w.sha256 (w.confState cs)

/-- Record a configuration applied at an index. -/
def appliedOrigin (w : Wire) (h : MembershipHistory) (index : ℕ) (cs : ConfState)
    (origin : Option AppliedConfigurationOrigin) : MembershipHistory :=
  let value := digest w cs
  let ambiguous := index == 0 || index == maxIndex
    || (h.lastChange.any fun last => index < last.1 || (last.1 == index && last.2 != value))
    || h.snapshot.any fun cut => index ≤ cut.index
  rehash w (observe cs { h with
    timeline := h.timeline.observe w (.applied index) cs origin
    gaps := { h.gaps with ambiguousRecords := h.gaps.ambiguousRecords || ambiguous }
    lastChange := if h.lastChange.all fun last => last.1 ≤ index then some (index, value)
      else h.lastChange })

/-- Record a configuration applied at an index, without an origin. -/
def recordApplied (w : Wire) (h : MembershipHistory) (index : ℕ) (cs : ConfState) :
    MembershipHistory :=
  h.appliedOrigin w index cs none

/-- Record the configuration of a protocol snapshot. -/
def installed (w : Wire) (h : MembershipHistory) (cut : Position) (cs : ConfState) :
    MembershipHistory :=
  rehash w (observe cs { h with
    timeline := h.timeline.observe w (.snapshot cut) cs none
    gaps := { h.gaps with snapshotPrefixUnknown := true }
    snapshot := some cut
    lastChange := none })

/-- Record the configuration of a compacted base. -/
def retainedBase (w : Wire) (h : MembershipHistory) (cs : ConfState) : MembershipHistory :=
  rehash w (observe cs h)

/-- Whether two observations have the same digest. -/
def SameObservations (h h' : MembershipHistory) : Prop := h.fingerprint = h'.fingerprint

instance (h h' : MembershipHistory) : Decidable (SameObservations h h') :=
  inferInstanceAs (Decidable (_ = _))

/-! ## What a digest tells -/

variable {w : Wire} {h h' h'' : MembershipHistory}

/-- The fingerprint is the digest of the observations. -/
def Hashed (w : Wire) (h : MembershipHistory) : Prop := h.fingerprint = w.sha256 h.text

/-- The records of two observations agree; the nodes and the gaps need not. -/
structure SameRecords (h h' : MembershipHistory) : Prop where
  initial : h.initial = h'.initial
  timeline : h.timeline = h'.timeline
  initialObservation : h.initialObservation = h'.initialObservation
  lastChange : h.lastChange = h'.lastChange
  snapshot : h.snapshot = h'.snapshot

theorem SameRecords.refl (h : MembershipHistory) :
  SameRecords h h
  := ⟨rfl, rfl, rfl, rfl, rfl⟩

theorem SameRecords.symm (hs : SameRecords h h') :
  SameRecords h' h
  := ⟨hs.1.symm, hs.2.symm, hs.3.symm, hs.4.symm, hs.5.symm⟩

theorem SameRecords.trans (hs : SameRecords h h') (hs' : SameRecords h' h'') :
  SameRecords h h''
  := ⟨hs.1.trans hs'.1, hs.2.trans hs'.2, hs.3.trans hs'.3, hs.4.trans hs'.4, hs.5.trans hs'.5⟩

theorem sameRecords_rehash (h : MembershipHistory) :
  SameRecords (rehash w h) h
  := ⟨rfl, rfl, rfl, rfl, rfl⟩

theorem sameRecords_unsupported (h : MembershipHistory) :
  SameRecords h.unsupported h
  := ⟨rfl, rfl, rfl, rfl, rfl⟩

theorem sameRecords_observeNode (role : UInt8) (node : UInt64) (h : MembershipHistory) :
  SameRecords (h.observeNode role node) h
  := by
  unfold observeNode
  split_ifs
  · exact ⟨rfl, rfl, rfl, rfl, rfl⟩
  · dsimp only
    split_ifs
    · exact ⟨rfl, rfl, rfl, rfl, rfl⟩
    · exact ⟨rfl, rfl, rfl, rfl, rfl⟩

theorem sameRecords_observeNodes (role : UInt8) (before nodes : List UInt64)
    (h : MembershipHistory) :
  SameRecords (observeNodes role before nodes h) h
  := by
  induction nodes generalizing before h with
  | nil => apply SameRecords.refl
  | cons node rest ih =>
    apply (ih _ _).trans
    split_ifs
    · apply sameRecords_unsupported
    · apply sameRecords_observeNode

/-- Looking at a configuration adds no record. -/
theorem sameRecords_observe (cs : ConfState) (h : MembershipHistory) :
  SameRecords (h.observe cs) h
  := by
  have hsets : ∀ (sets : List (UInt8 × List UInt64)) (h : MembershipHistory),
      SameRecords (sets.foldl (fun h set => observeNodes set.1 [] set.2 h) h) h := by
    intro sets
    induction sets with
    | nil => apply SameRecords.refl
    | cons set sets ih =>
      intro h
      apply (ih _).trans
      apply sameRecords_observeNodes
  unfold observe
  split_ifs
  · apply sameRecords_unsupported
  · apply (hsets _ _).trans
    apply sameRecords_unsupported
  · apply hsets

theorem sameRecords_retainedBase (h : MembershipHistory) (cs : ConfState) :
  SameRecords (h.retainedBase w cs) h
  := (sameRecords_rehash _).trans (sameRecords_observe cs h)

/-- The records after the initial configuration depend on the records before it only. -/
theorem SameRecords.recordInitial (hs : SameRecords h h') (cs : ConfState) :
  SameRecords (h.recordInitial w cs) (h'.recordInitial w cs)
  := by
  apply (sameRecords_rehash _).trans
  apply (sameRecords_observe cs _).trans
  apply SameRecords.symm
  apply (sameRecords_rehash _).trans
  apply (sameRecords_observe cs _).trans
  constructor
  · rfl
  · simp [hs.timeline]
  · simp [hs.initial, hs.lastChange, hs.snapshot]
  · exact hs.lastChange.symm
  · exact hs.snapshot.symm

/-- The records after an applied configuration depend on the records before it only. -/
theorem SameRecords.appliedOrigin (hs : SameRecords h h') (index : ℕ) (cs : ConfState)
    (origin : Option AppliedConfigurationOrigin) :
  SameRecords (h.appliedOrigin w index cs origin) (h'.appliedOrigin w index cs origin)
  := by
  apply (sameRecords_rehash _).trans
  apply (sameRecords_observe cs _).trans
  apply SameRecords.symm
  apply (sameRecords_rehash _).trans
  apply (sameRecords_observe cs _).trans
  constructor
  · exact hs.initial.symm
  · simp [hs.timeline]
  · exact hs.initialObservation.symm
  · simp [hs.lastChange]
  · exact hs.snapshot.symm

theorem toUInt8_injective :
  Function.Injective Bool.toUInt8
  := by
  decide

theorem encode_gaps_injective :
  Function.Injective MembershipGaps.encode
  := by
  rintro ⟨a, b, c, d, e⟩ ⟨a', b', c', d', e'⟩ hencode
  simpa [MembershipGaps.encode, toUInt8_injective.eq_iff] using hencode

/-- The nodes can be read back from the text, nine bytes at a time. -/
theorem flatMap_members_injective :
  Function.Injective fun members : List (UInt64 × UInt8) =>
    members.flatMap fun m => be64 m.1 ++ [m.2]
  := by
  intro members members' heq
  induction members generalizing members' with
  | nil =>
    cases members' with
    | nil => rfl
    | cons m members' => simp at heq
  | cons m members ih =>
    cases members' with
    | nil => simp at heq
    | cons m' members' =>
      obtain ⟨hm, hrest⟩ := List.append_inj heq (by simp)
      obtain ⟨hnode, hroles⟩ := List.append_inj hm (by simp)
      have hnode := congrArg fromBe64 hnode
      rw [fromBe64_be64, fromBe64_be64] at hnode
      rw [ih hrest, Prod.ext hnode (List.singleton_inj.mp hroles)]

/-- If the records of two observations agree and so do their digests, the observations agree,
unless the digest has a collision at them. -/
theorem SameRecords.eq (hs : SameRecords h h') (hh : Hashed w h) (hh' : Hashed w h')
    (hsame : h.SameObservations h') (hdigest : w.sha256 h.text = w.sha256 h'.text → h.text = h'.text) :
  h = h'
  := by
  have htext : h.text = h'.text := by
    apply hdigest
    rw [← hh, ← hh', hsame]
  obtain ⟨hinitial, htimeline, hobservation, hchange, hsnapshot⟩ := hs
  have hlast : h.lastIndex = h'.lastIndex := by
    rw [lastIndex, lastIndex, hchange, hsnapshot]
  unfold text at htext
  rw [htimeline, hobservation, hlast, hsnapshot] at htext
  simp only [List.append_assoc, List.append_cancel_left_eq] at htext
  obtain ⟨hgaps, hrest⟩ := List.append_inj htext rfl
  have hmembers := List.append_cancel_left (List.append_cancel_left hrest)
  obtain ⟨members, initial, timeline, observation, gaps, change, snapshot, fingerprint⟩ := h
  obtain rfl := encode_gaps_injective hgaps
  obtain rfl := flatMap_members_injective hmembers
  congr

end MembershipHistory

end Kv9.Raft.Storage
