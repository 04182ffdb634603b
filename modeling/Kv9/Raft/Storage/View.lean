import Kv9.Raft.Storage.Membership

/-!
# The log on disk

The log on disk is a list of records.  Opening it replays the records from the first to the last
and so rebuilds what the storage knows: the log in memory, the accounts of the configurations, the
base that a compaction or a snapshot left, the lease epoch and the protocol snapshot.
-/

namespace Kv9.Raft.Storage

open Except

/-- A record of the log on disk. -/
inductive Record where
  /-- The configuration the group starts with. -/
  | confState (cs : ConfState)
  | hardState (hs : HardState)
  | entry (e : Entry)
  /-- A configuration applied at an index. -/
  | confStateAt (index : ℕ) (cs : ConfState)
  | leaseEpoch (epoch : Lease.LeaseEpoch)
  | snapshot (image : Snapshot) (hs : HardState)
  /-- The entries up to the floor are dropped; the decision to do so, and the configuration. -/
  | compaction (floor : Position) (decision : RootDigest) (cs : ConfState)
  /-- The cut from which a rewritten log goes on. -/
  | retainedBase (base : Position) (cs : ConfState)
  /-- A configuration applied at the position of its origin. -/
  | origin (record : AppliedConfigurationOrigin) (cs : ConfState)
deriving DecidableEq

/-- The length of the payload of a record. -/
def Record.length (w : Wire) : Record → ℕ
  | .confState cs => (w.confState cs).length
  | .hardState hs => (w.hardState hs).length
  | .entry e => (w.entry e).length
  | .confStateAt _ cs => 8 + (w.confState cs).length
  | .leaseEpoch epoch => (w.leaseEpoch epoch).length
  | .snapshot image hs => 16 + (w.snapshot image).length + (w.hardState hs).length
  | .compaction _ _ cs => 48 + (w.confState cs).length
  | .retainedBase _ cs => 16 + (w.confState cs).length
  | .origin _ cs => 16 + 169 + (w.confState cs).length

/-- The limit on the payload of a record. -/
def maxRecordLen : ℕ := 64 * 1024 * 1024

/-- What the storage knows. -/
structure View where
  mem : MemStorage
  confIndex : ℕ
  confHistory : ConfigurationHistory
  origins : Origins
  membership : MembershipHistory
  configurationBase : Option (Position × ConfState)
  leaseEpoch : Option Lease.LeaseEpoch
  snapshot : Option Snapshot
deriving DecidableEq

/-- What the storage knows before any record. -/
def View.new (w : Wire) : View where
  mem := .new
  confIndex := 0
  confHistory := .default
  origins := .new w
  membership := .new w
  configurationBase := none
  leaseEpoch := none
  snapshot := none

/-! ## Protocol snapshots -/

def maxProtocolSnapshotBytes : ℕ := 2 * 1024 * 1024

def snapshotInvalid (reason : String) : Error := .raft ("protocol snapshot: " ++ reason)

/-- Whether a snapshot and the hard state that goes with it are well formed. -/
def validate (w : Wire) (image : Snapshot) (hs : HardState) : Except Error Unit := do
  failIf (maxProtocolSnapshotBytes < (w.snapshot image).length ∨ image.data = []
      ∨ image.unknownFields ≠ [] ∨ image.confState.unknownFields ≠ [] ∨ hs.unknownFields ≠ [])
    (snapshotInvalid "oversized, empty or unsupported snapshot")
  failIf (image.cut.index = 0 ∨ image.cut.index = maxIndex ∨ image.cut.term = 0
      ∨ hs.commit ≠ image.cut.index ∨ hs.term < image.cut.term)
    (snapshotInvalid "snapshot cut and HardState disagree")
  failIf (∃ nodes ∈ image.confState.sets, maxAnchorMembers < nodes.length ∨ 0 ∈ nodes
      ∨ ¬ nodes.Nodup)
    (snapshotInvalid "invalid configuration members")
  failIf image.confState.Inconsistent (snapshotInvalid "invalid joint configuration")

/-- Whether a snapshot may replace what the storage holds. -/
def validateTransition (w : Wire) (mem : MemStorage) (prior : Option Snapshot) (image : Snapshot)
    (hs : HardState) : Except Error Unit := do
  validate w image hs
  let old := mem.hardState
  failIf (hs.term < old.term ∨ (hs.term = old.term ∧ old.vote ≠ 0 ∧ hs.vote ≠ old.vote)
      ∨ image.cut.index ≤ old.commit ∨ ∃ p ∈ prior, image.cut.index ≤ p.cut.index)
    (snapshotInvalid "installation lowers term/vote or replaces committed history")
  if old.commit = 0 then return ()
  else do
    let term ← (mem.term old.commit).mapError fun e => snapshotInvalid e.text
    failIf (image.cut.term < term) (snapshotInvalid "snapshot term predates committed history")

/-- What a snapshot that may replace the log keeps: it goes back on nothing. -/
structure Transition (mem : MemStorage) (prior : Option Snapshot) (image : Snapshot)
    (hs : HardState) : Prop where
  pos : 0 < image.cut.index
  commit_eq : hs.commit = image.cut.index
  term_le : mem.hardState.term ≤ hs.term
  vote_eq : hs.term = mem.hardState.term → mem.hardState.vote ≠ 0 → hs.vote = mem.hardState.vote
  commit_lt : mem.hardState.commit < image.cut.index
  prior_lt : ∀ p ∈ prior, p.cut.index < image.cut.index

variable {mem : MemStorage}

theorem transition_of_validateTransition {w : Wire} {prior : Option Snapshot} {image : Snapshot}
    {hs : HardState} (h : validateTransition w mem prior image hs = .ok ()) :
  Transition mem prior image hs
  := by
  unfold validateTransition validate at h
  simp only [bind_eq_ok, failIf_eq_ok] at h
  obtain ⟨-, ⟨-, -, -, hcut, -⟩, -, hforward, -⟩ := h
  simp only [not_or, not_and, not_lt, not_le, not_exists, ne_eq, not_not] at hcut hforward
  exact {
    pos := by omega
    commit_eq := hcut.2.2.2.1
    term_le := hforward.1
    vote_eq := hforward.2.1
    commit_lt := hforward.2.2.1
    prior_lt := hforward.2.2.2 }

/-- Go on from a snapshot that was applied to the log in memory. -/
def View.select (w : Wire) (v : View) (image : Snapshot) (hs : HardState) (mem : MemStorage) :
    View :=
  { v with
    mem := mem.setHardstate hs
    confIndex := image.cut.index
    confHistory := .default
    membership := v.membership.installed w image.cut image.confState
    configurationBase := some (image.cut, image.confState)
    snapshot := some image }

/-! ## Compaction -/

/-- The entries above a floor. -/
def retainedTail (mem : MemStorage) (floor : Position) : Except MemError (List Entry) :=
  if floor.index < mem.lastIndex then mem.slice (floor.index + 1) (mem.lastIndex + 1) else .ok []

/-- Drop the entries up to a floor and keep the rest, the hard state and the configuration. -/
def compactMemory (mem : MemStorage) (floor : Position) (conf : ConfState) :
    Except Error MemStorage :=
  let raftErr : MemError → Error := fun e => .raft e.text
  if floor.index < mem.firstIndex then .ok mem
  else do
    let notRetained : Error := .raft "compaction floor is not in the retained log"
    failIf (mem.lastIndex < floor.index) notRetained
    let term ← (mem.term floor.index).mapError raftErr
    failIf (term ≠ floor.term) notRetained
    let tail ← (retainedTail mem floor).mapError raftErr
    let image ← (mem.applySnapshot floor conf).mapError raftErr
    let image ← (image.append tail).mapError raftErr
    return (image.setHardstate mem.hardState).setConfState mem.confState

theorem retainedTail_eq (h : mem.Wf) {floor : Position} (habove : mem.cut.index < floor.index) :
  retainedTail mem floor = .ok (mem.entries.drop (floor.index - mem.cut.index))
  := by
  have hlast := h.lastIndex
  unfold retainedTail
  split_ifs with hlt
  · rw [h.slice_tail (by omega) (by omega)]
    congr 2
    omega
  · rw [List.drop_eq_nil_of_le (by omega)]

/-- The entries above a floor go on from it. -/
theorem continues_drop {mem' : MemStorage} (h : mem.Wf) (habove : mem.cut.index < mem'.cut.index) :
  mem'.Continues (mem.entries.drop (mem'.cut.index - mem.cut.index))
  := by
  have hcont := Contiguous.drop h (mem'.cut.index - mem.cut.index)
  cases htail : mem.entries.drop (mem'.cut.index - mem.cut.index) with
  | nil => apply MemStorage.continues_nil
  | cons e es =>
    rw [htail] at hcont
    have he := hcont.1
    constructor
    · rintro _ ⟨⟩
      rw [he]
      apply hcont
    · rintro _ ⟨⟩
      omega
    · rintro _ ⟨⟩
      omega

/-- Compacting drops the entries up to the floor and nothing else. -/
theorem compactMemory_eq (h : mem.Wf) {floor : Position} {conf : ConfState}
    (habove : mem.cut.index < floor.index) (hlast : floor.index ≤ mem.lastIndex)
    (hterm : mem.term floor.index = .ok floor.term) :
  compactMemory mem floor conf = .ok { mem with
    cut := floor
    entries := mem.entries.drop (floor.index - mem.cut.index) }
  := by
  have hfirst := h.firstIndex
  have hwf : (mem.restart floor conf).Wf := trivial
  have hcontinues : (mem.restart floor conf).Continues
      (mem.entries.drop (floor.index - mem.cut.index)) := continues_drop h habove
  have happend := hwf.append hcontinues
  unfold compactMemory
  dsimp only
  rw [if_neg (by omega), failIf_neg (by omega), ok_bind, hterm, retainedTail_eq h habove,
    h.applySnapshot conf habove]
  simp only [Except.mapError, ok_bind, ne_eq, not_true_eq_false, not_false_eq_true, failIf_neg,
    happend, pure_eq_ok, ok.injEq]
  cases mem.entries.drop (floor.index - mem.cut.index) with
  | nil => rfl
  | cons e es =>
    simp [MemStorage.overwrite, MemStorage.restart, MemStorage.setHardstate,
      MemStorage.setConfState]

/-! ## Replaying -/

/-- Replay a record. -/
def View.replayRecord (w : Wire) (v : View) : Record → Except Error View
  | .snapshot image hs => do
    failIf v.leaseEpoch.isSome (.raft "snapshot cannot replace a lease configuration")
    validateTransition w v.mem v.snapshot image hs
    let mem ← (v.mem.applySnapshot image.cut image.confState).mapError fun e =>
      .raft ("replay snapshot: " ++ e.text)
    return v.select w image hs mem
  | .leaseEpoch next => do
    failIf v.snapshot.isSome (.raft "lease policy cannot adopt a snapshot base")
    let epoch ← Lease.LeaseEpoch.successor v.leaseEpoch next.policy
    failIf (epoch ≠ next) (.raft "non-sequential durable lease incarnation")
    return { v with leaseEpoch := some next }
  | .confState cs =>
    return { v with
      confHistory := v.confHistory.recordInitial cs
      membership := v.membership.recordInitial w cs
      mem := v.mem.setConfState cs }
  | .origin record cs => do
    let origins ← v.origins.insert w record
    return { v with
      origins := origins
      confHistory := v.confHistory.recordApplied record.position.index cs
      membership := v.membership.appliedOrigin w record.position.index cs (some record)
      mem := v.mem.setConfState cs
      confIndex := record.position.index }
  | .confStateAt index cs =>
    return { v with
      origins := v.origins.observeLegacy
      confHistory := v.confHistory.recordApplied index cs
      membership := v.membership.recordApplied w index cs
      mem := v.mem.setConfState cs
      confIndex := index }
  | .hardState hs => return { v with mem := v.mem.setHardstate hs }
  | .entry e => do
    let mem ← (v.mem.append [e]).mapError fun err => .raft ("replay append: " ++ err.text)
    return { v with mem := mem }
  | .compaction floor _ cs => do
    let advances := v.mem.firstIndex ≤ floor.index
    let mem ← compactMemory v.mem floor cs
    return { v with
      mem := mem
      membership := v.membership.retainedBase w cs
      configurationBase := if advances then some (floor, cs) else v.configurationBase }
  | .retainedBase base cs => do
    failIf (v.leaseEpoch.isSome ∨ v.snapshot.isSome)
      (.raft "a retained base cannot follow a lease or snapshot")
    let mem ← (v.mem.applySnapshot base cs).mapError fun e =>
      .raft ("replay retained base: " ++ e.text)
    return { v with
      mem := mem
      membership := v.membership.retainedBase w cs
      configurationBase := some (base, cs) }

/-- Replay records. -/
def View.replay (w : Wire) (v : View) (records : List Record) : Except Error View :=
  records.foldlM (View.replayRecord w) v

section

variable {w : Wire} {v v' : View} {r : Record} {rs rs' : List Record}

@[simp]
theorem View.replay_nil :
  v.replay w [] = .ok v
  := rfl

theorem View.replay_cons :
  v.replay w (r :: rs) = v.replayRecord w r >>= (View.replay w · rs)
  := List.foldlM_cons

theorem View.replay_append :
  v.replay w (rs ++ rs') = v.replay w rs >>= (View.replay w · rs')
  := List.foldlM_append

theorem View.replay_singleton :
  v.replay w [r] = v.replayRecord w r
  := by
  rw [View.replay_cons]
  cases v.replayRecord w r with
  | error e => rfl
  | ok v' => rfl

end

end Kv9.Raft.Storage
