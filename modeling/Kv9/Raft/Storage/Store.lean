import Kv9.Raft.Storage.Configuration

/-!
# The storage and its calls

A store is its log on disk, what it knows, and whether it can write.  Every call that writes adds
records to the log, synchronises them, and then publishes what they say.  A write that fails
leaves some of the records in the log, publishes nothing, and takes the writer away: the store
must be opened again, which replays the log.  Rewriting replaces the log by records that say what
the store knows now.
-/

namespace Kv9.Raft.Storage

open Except

/-- A store. -/
structure Store where
  log : List Record
  view : View
  writer : Bool

/-- How writing some records ended: they are all on disk, or only some front part of them is. -/
inductive Written where
  | synced
  | failed (survived : ℕ)
deriving DecidableEq, Repr

/-- How rewriting ended: the new log is in place; it was not built or not renamed; or it is in
place but could not be opened. -/
inductive Rewritten where
  | renamed
  | notBuilt
  | notReopened
deriving DecidableEq, Repr

namespace Store

/-- Write records and publish what they say. -/
def write (w : Wire) (io : Written) (s : Store) (records : List Record)
    (published : Except Error View) : Except Error Unit × Store :=
  let fits := records.takeWhile fun r => r.length w < maxRecordLen
  match io with
  | .failed survived =>
    (.error (.raft "raft log append"),
      { s with log := s.log ++ fits.take survived, writer := false })
  | .synced =>
    if fits ≠ records then
      (.error (.raft "raft log record exceeds the replay format limit"),
        { s with log := s.log ++ fits, writer := false })
    else
      match published with
      | .error e => (.error e, { s with log := s.log ++ records, writer := false })
      | .ok view => (.ok (), ⟨s.log ++ records, view, true⟩)

/-- Run an action that says what to write and what is known then. -/
def withWriter (w : Wire) (io : Written) (s : Store)
    (action : View → Except Error (List Record × Except Error View)) : Except Error Unit × Store :=
  if ¬ s.writer then
    (.error (.raft "raft log writer unavailable after persistence failure; reopen required"), s)
  else
    match action s.view with
    | .error e => (.error e, { s with writer := false })
    | .ok (records, published) => s.write w io records published

def append (w : Wire) (io : Written) (s : Store) (entries : List Entry) :
    Except Error Unit × Store :=
  s.withWriter w io fun v =>
    .ok (entries.map .entry, do
      let mem ← (v.mem.append entries).mapError fun e => .raft e.text
      return { v with mem := mem })

def persistReady (w : Wire) (io : Written) (s : Store) (entries : List Entry)
    (hs : Option HardState) : Except Error Unit × Store :=
  s.withWriter w io fun v =>
    .ok (entries.map .entry ++ hs.toList.map .hardState, do
      let mem ← (v.mem.append entries).mapError fun e => .raft e.text
      return { v with mem := hs.elim mem mem.setHardstate })

def setHardstate (w : Wire) (io : Written) (s : Store) (hs : HardState) :
    Except Error Unit × Store :=
  s.withWriter w io fun v => .ok ([.hardState hs], .ok { v with mem := v.mem.setHardstate hs })

/-- The origin that the entry at an index names. -/
def originFromEntry (w : Wire) (v : View) (index : ℕ) :
    Except Error (Option AppliedConfigurationOrigin) :=
  if index = maxIndex then .error originInvalid
  else if index < v.mem.firstIndex ∨ v.mem.lastIndex < index then .ok none
  else
    match v.mem.slice index (index + 1) with
    | .ok (e :: _) =>
      if e.entryType ≠ .confChangeV2 then .ok none
      else do
        match ← w.fromChange e.data with
        | none => return none
        | some origin =>
          failIf (v.mem.hardState.commit < index) originInvalid
          return some ⟨⟨e.term, index⟩, origin⟩
    | _ => .ok none

/-- Record the configuration applied at an index, with its origin if the entry names one. -/
def setConfState (w : Wire) (io : Written) (s : Store) (cs : ConfState) (index : ℕ) :
    Except Error Unit × Store :=
  s.withWriter w io fun v => do
    let origin ← originFromEntry w v index
    failIf (∃ old ∈ v.origins.get index, some old ≠ origin)
      (.raft "cannot replace a configuration origin")
    let known : View := { v with
      mem := v.mem.setConfState cs
      confIndex := index
      confHistory := v.confHistory.recordApplied index cs
      membership := v.membership.appliedOrigin w index cs origin }
    match origin with
    | some record =>
      v.origins.validateInsert record
      return ([.origin record cs], do
        let origins ← v.origins.insert w record
        return { known with origins := origins })
    | none =>
      return ([.confStateAt index cs], .ok { known with origins := v.origins.observeLegacy })

def beginLeaseIncarnation (w : Wire) (io : Written) (s : Store) (policy : Lease.LeasePolicy) :
    Except Error Unit × Store :=
  s.withWriter w io fun v => do
    failIf v.snapshot.isSome (.raft "lease policy cannot adopt a snapshot base")
    let next ← Lease.LeaseEpoch.successor v.leaseEpoch policy
    return ([.leaseEpoch next], .ok { v with leaseEpoch := some next })

/-- Write a compaction and drop the entries up to its floor. -/
def writeCompaction (w : Wire) (io : Written) (s : Store) (floor : Position) (conf : ConfState)
    (decision : Bytes) : Except Error Unit × Store :=
  s.withWriter w io fun v =>
    .ok ([.compaction floor (w.sha256 decision) conf], do
      let mem ← compactMemory v.mem floor conf
      return { v with
        mem := mem
        membership := v.membership.retainedBase w conf
        configurationBase := some (floor, conf) })

/-- Drop the entries up to a floor.  Answers the first index that is still held. -/
def compactRetainedPrefix (w : Wire) (io : Written) (s : Store) (floor : Position)
    (conf : ConfState) (decision : Bytes) : Except Error ℕ × Store :=
  let mem := s.view.mem
  if floor.index = 0 ∨ floor.term = 0 ∨ decision = [] then
    (.error (.raft "compaction requires an exact floor"), s)
  else if floor.index < mem.firstIndex then (.ok mem.firstIndex, s)
  else if mem.hardState.commit < floor.index then
    (.error (.raft "compaction floor exceeds the durable commit"), s)
  else
    match mem.term floor.index with
    | .error e => (.error (.raft e.text), s)
    | .ok term =>
      if term ≠ floor.term then
        (.error (.raft "compaction floor term differs from the retained log"), s)
      else
        let written := s.writeCompaction w io floor conf decision
        (written.1.map fun _ => written.2.view.mem.firstIndex, written.2)

/-- Go on from a protocol snapshot.  The same one, installed again, changes nothing. -/
def installProtocolSnapshot (w : Wire) (io : Written) (s : Store) (image : Snapshot)
    (hs : HardState) : Except Error Unit × Store :=
  let v := s.view
  match validate w image hs with
  | .error e => (.error e, s)
  | .ok () =>
    if ¬ s.writer then (.error (snapshotInvalid "failed writer requires recovery"), s)
    else if v.leaseEpoch.isSome then
      (.error (snapshotInvalid "lease configuration cannot be replaced"), s)
    else if v.snapshot = some image ∧ v.mem.hardState = hs then (.ok (), s)
    else
      match validateTransition w v.mem v.snapshot image hs with
      | .error e => (.error e, s)
      | .ok () =>
        s.write w io [.snapshot image hs] (do
          let mem ← (v.mem.applySnapshot image.cut image.confState).mapError fun e =>
            snapshotInvalid e.text
          return v.select w image hs mem)

/-- The configuration in force at a committed cut. -/
def configurationAtCommitted (s : Store) (cut : Position) : Except Error ConfigurationLookup :=
  if ¬ s.writer then .error (.raft "configuration lookup requires recovered durable storage")
  else s.view.configurationAtCommitted cut

/-! ## Opening -/

/-- Open a log that must not be empty. -/
def recover (w : Wire) (log : List Record) : Except Error Store := do
  let view ← (View.new w).replay w log
  failIf (log = [])
    (.raft "activated store has no recoverable Raft log; refusing reinitialization")
  return ⟨log, view, true⟩

/-- Open a log.  An empty one starts with the given voters. -/
def openOn (w : Wire) (io : Written) (log : List Record) (voters : List UInt64) :
    Except Error Store := do
  let view ← (View.new w).replay w log
  let opened : Store := ⟨log, view, true⟩
  if log ≠ [] then return opened
  else
    let cs := ConfState.ofVoters voters
    let written := opened.withWriter w io fun v =>
      .ok ([.confState cs], .ok { v with
        confHistory := v.confHistory.recordInitial cs
        membership := v.membership.recordInitial w cs
        mem := v.mem.setConfState cs })
    written.1.map fun _ => written.2

end Store

/-! ## Rewriting -/

namespace View

/-- The entries from one index to another, one at a time. -/
def retainedEntries (v : View) (first last : ℕ) : Except Error (List Entry) :=
  if last < first then .ok []
  else do
    failIf (v.mem.lastIndex < last) (.raft "retained entry range exceeds log tail")
    failIf (maxIndex ≤ last) (.raft "retained log index exhausted")
    (List.range' first (last + 1 - first)).mapM fun index => do
      let entries ← (v.mem.slice index (index + 1)).mapError fun e => Error.raft e.text
      match entries.head? with
      | none => throw (.raft "missing retained log entry")
      | some e => return e

/-- The record of the base, and the observations that start with it. -/
def baseRecords (w : Wire) (v : View) : Except Error (List Record × MembershipHistory) := do
  let membership := MembershipHistory.new w
  if 1 < v.mem.firstIndex then do
    match ← v.compactedBase with
    | none => throw (.raft "first_index>1 without a durable base")
    | some base =>
      let cs ← v.configurationAtBase base
      return ([.retainedBase base cs], membership.retainedBase w cs)
  else return ([], membership)

/-- The record of an applied configuration. -/
def changeRecord (index : ℕ) (cs : ConfState) :
    Option AppliedConfigurationOrigin → Except Error Record
  | some record => do
    let _ ← record.observationBytes
    return .origin record cs
  | none => return .confStateAt index cs

/-- The records of the configurations, and the observations that replaying them would give.  They
are refused if origins would be lost. -/
def configurationRecords (w : Wire) (v : View) :
    Except Error (List Record × MembershipHistory) := do
  let (base, membership) ← v.baseRecords w
  let (initial, applied) ← v.confHistory.reserialize
  let changes := applied.map fun a => (a.1, a.2, v.origins.get a.1)
  let changeRecords ← changes.mapM fun c => changeRecord c.1 c.2.1 c.2.2
  failIf (changes.countP (fun c => c.2.2.isSome) ≠ v.origins.entries.length
      ∨ (changes.any fun c => c.2.2.isNone) ≠ v.origins.legacyUnknown)
    (.raft "reclamation would lose configuration origins")
  return (base ++ initial.toList.map .confState ++ changeRecords,
    changes.foldl (fun m c => m.appliedOrigin w c.1 c.2.1 c.2.2)
      (initial.elim membership (membership.recordInitial w)))

/-- The records that say what is known.  They are refused if observations would be lost. -/
def reclamationRecords (w : Wire) (v : View) : Except Error (List Record) := do
  let (records, membership) ← v.configurationRecords w
  failIf (¬ v.membership.SameObservations membership)
    (.raft "reclamation would lose local membership observations")
  let entries ← v.retainedEntries v.mem.firstIndex v.mem.lastIndex
  return records ++ entries.map .entry ++ [.hardState v.mem.hardState]

/-- The digest tells the observations that a rewrite compares apart. -/
def Distinct (w : Wire) (v : View) : Prop :=
  ∀ records membership, v.configurationRecords w = .ok (records, membership) →
    w.sha256 v.membership.text = w.sha256 membership.text → v.membership.text = membership.text

end View

/-- Replace the log by records that say what the store knows.  Answers whether it was replaced;
`granted` says whether the budget had room for the new log. -/
def Store.rewriteLog (w : Wire) (io : Rewritten) (granted : Bool) (s : Store) :
    Except Error Bool × Store :=
  if ¬ s.writer then (.error (.raft "reclamation requires recovered durable storage"), s)
  else if s.view.snapshot.isSome ∨ s.view.leaseEpoch.isSome then (.ok false, s)
  else
    match s.view.reclamationRecords w with
    | .error e => (.error e, s)
    | .ok records =>
      if ∃ r ∈ records, maxRecordLen ≤ r.length w then
        (.error (.raft "reclamation record exceeds replay limit"), s)
      else if ¬ granted then (.ok false, s)
      else
        match io with
        | .notBuilt => (.error (.raft "raft log reclamation"), s)
        | .notReopened =>
          (.error (.raft "raft log reclamation"), { s with log := records, writer := false })
        | .renamed => (.ok true, { s with log := records })

end Kv9.Raft.Storage
