import Kv9.Lib.Ring
import Kv9.Raft.Redelivery

/-!
# The pump of a driver and what it publishes

The pump hands committed entries to the state machine and to the peer, and leaves traces for
those who wait: a bounded ring of applied commands, bounded lists of configuration receipts
and of read confirmations, and the watermark of everything processed.  It takes the locks of
these one after another, so that others may look in between.  The ring and the state machine
are locked together while commands are applied; a configuration change is applied under the
lock of the peer and receipted afterwards; the watermark follows when all entries that were
handed over are processed.

A driver is opened over a machine that may have applied commands in an earlier life.  The log
is then handed over again, and the machine skips what it has applied.
-/

namespace Kv9.Raft

open Codec Engine Except

/-- How many applied commands the ring keeps. -/
def appliedRing : ℕ := 1024

/-- How many receipts of configuration changes are kept. -/
def confReceiptsKept : ℕ := 64

/-- A command the pump has applied. -/
structure RingEntry where
  index : UInt64
  term : UInt64
  outcome : ApplyOutcome
deriving DecidableEq

/-- The position of an applied command. -/
def RingEntry.pos (e : RingEntry) : AppliedPosition := ⟨e.term, e.index⟩

/-- Who votes and who only learns. -/
structure Members where
  voters : List UInt64
  learners : List UInt64
deriving DecidableEq

/-- The receipt of a configuration change. -/
structure ConfReceiptEntry where
  index : UInt64
  term : UInt64
  members : Members
deriving DecidableEq

/-- The position of a configuration change. -/
def ConfReceiptEntry.pos (r : ConfReceiptEntry) : AppliedPosition := ⟨r.term, r.index⟩

/-- Whether an entry changes the configuration. -/
def CommittedEntry.isConf (e : CommittedEntry) : Bool :=
  e.kind = .confChangeV1 || e.kind = .confChangeV2

/-- Whether an entry carries a command. -/
def CommittedEntry.isCommand (e : CommittedEntry) : Bool := e.kind = .command

/-- Why a driver stopped. -/
inductive Fatal where
  /-- An entry could not be processed. -/
  | entry (pos : AppliedPosition) (cause : Error)
  /-- The peer could not persist. -/
  | persistence (cause : Error)
deriving DecidableEq

/-- What the driver sees of its peer. -/
structure PeerView where
  /-- The index of the configuration change applied last. -/
  confApplied : UInt64
  members : Members
  leader : Bool
  leaderHint : Option UInt64
  /-- Whether the leader has committed an entry of its term. -/
  ready : Bool
  /-- The contexts for which a read index was asked. -/
  submitted : List Bytes

/-- Where the pump stands. -/
inductive PumpAt where
  | idle
  /-- The entries `rest` are still to be processed; `last` is the one seen last. -/
  | applying (rest : List CommittedEntry) (last : AppliedPosition)
  /-- The peer has applied a configuration change, and its receipt is not there yet. -/
  | receipting (entry : CommittedEntry) (members : Members) (rest : List CommittedEntry)
  /-- An entry could not be processed, and the driver does not know yet. -/
  | failing (pos : AppliedPosition) (cause : Error) (rest : List CommittedEntry)
  | stopped (rest : List CommittedEntry)

/-- The entries that were handed to the pump and are not yet processed. -/
def PumpAt.entries : PumpAt → List CommittedEntry
  | idle => []
  | applying rest _ => rest
  | receipting entry _ rest => entry :: rest
  | failing _ _ rest => rest
  | stopped rest => rest

/-- The configuration change that the peer has applied and that is not yet receipted. -/
def PumpAt.unreceipted : PumpAt → List CommittedEntry
  | receipting entry _ _ => [entry]
  | _ => []

theorem PumpAt.mem_entries_of_unreceipted {pump : PumpAt} {e : CommittedEntry}
    (h : e ∈ pump.unreceipted) :
  e ∈ pump.entries
  := by
  cases pump with
  | receipting entry members rest =>
    rw [List.mem_singleton.mp h]
    apply List.mem_cons_self
  | _ => nomatch h

/-- What happened, for statements about it; no code reads this. -/
structure DriverHistory where
  /-- The entries that are processed. -/
  processed : List CommittedEntry
  /-- All commands that entered the ring. -/
  receipts : List RingEntry
  /-- The commands that took effect, also in earlier lives, with their outcomes. -/
  applications : List (AppliedPosition × ApplyOutcome)
  /-- All receipts of configuration changes. -/
  confReceipts : List ConfReceiptEntry
  /-- The configuration changes that took effect, also in earlier lives. -/
  confChanges : List AppliedPosition
  /-- All confirmed reads. -/
  confirmed : List (Bytes × UInt64)
  /-- The contexts minted for asynchronous reads. -/
  asyncContexts : List Bytes

/-- A driver, as its threads share it. -/
structure NodeDriver where
  machine : Machine
  /-- `applied`. -/
  ring : List RingEntry
  confReceipts : List ConfReceiptEntry
  readReceipts : List (Bytes × UInt64)
  driverApplied : Option AppliedPosition
  fatal : Option Fatal
  readIncarnation : Bytes
  readSeq : UInt64
  peer : PeerView
  pump : PumpAt
  /-- The committed entries that were not handed over yet. -/
  left : List CommittedEntry
  history : DriverHistory

namespace Driver

/-- Apply one command, or a group of them; the answers. -/
def answerCommands (x : Externals) (m : Machine) (pos : AppliedPosition) (cmd : Command) :
    List (AppliedPosition × Command) → Except Error (Machine × List ApplyResult)
  | [] => do
    let (m, result) ← m.applyAt x pos cmd
    return (m, [result])
  | more => m.applyRawGroup ((pos, cmd) :: more)

/-- The commands that are applied together with the first one, and the entries after them. -/
def grouped (m : Machine) (entry : CommittedEntry) (cmd : Command) (rest : List CommittedEntry) :
    List (AppliedPosition × Command) × List CommittedEntry :=
  if entry.data.length ≤ Machine.maxRawGroupBytes ∧ m.applied < entry.index
      ∧ m.canGroupRaw cmd = true then
    gather m entry.data.length 1 rest
  else
    ([], rest)

/-- What enters the ring for commands with their answers. -/
def ringEntries (commands : List (AppliedPosition × Command)) (results : List ApplyResult) :
    List RingEntry :=
  List.zipWith (fun c r => ⟨c.1.index, c.1.term, r.outcome⟩) commands results

/-- The position of the last of some commands. -/
def lastPos (pos : AppliedPosition) (more : List (AppliedPosition × Command)) : AppliedPosition :=
  (more.getLast?.map (·.1)).getD pos

end Driver

namespace NodeDriver

open Driver

/-- Publish a candidate for the watermark, unless it is not above the current one. -/
def publishDriverApplied (d : NodeDriver) (candidate : AppliedPosition) : NodeDriver :=
  if d.driverApplied.all fun cur => cur.index < candidate.index then
    { d with driverApplied := some candidate }
  else
    d

/-- Record applied commands, with both locks held. -/
def recordCommands (d : NodeDriver) (m : Machine) (entries : List CommittedEntry)
    (receipts : List RingEntry) : NodeDriver :=
  { d with
    machine := m
    ring := receipts.foldl (Ring.push appliedRing) d.ring
    history :=
      { d.history with
        processed := d.history.processed ++ entries
        receipts := d.history.receipts ++ receipts
        applications := d.history.applications
          ++ (receipts.filter fun r => d.machine.applied < r.index).map fun r => (r.pos, r.outcome) } }

/-- The peer has applied a configuration change that is new to it. -/
def recordConfChange (d : NodeDriver) (entry : CommittedEntry) (members : Members) : NodeDriver :=
  { d with
    peer := { d.peer with confApplied := entry.index, members := members }
    history := { d.history with confChanges := d.history.confChanges ++ [entry.pos] } }

/-- Record the receipt of a configuration change. -/
def recordConfReceipt (d : NodeDriver) (entry : CommittedEntry) (members : Members) : NodeDriver :=
  let receipt : ConfReceiptEntry := ⟨entry.index, entry.term, members⟩
  { d with
    confReceipts := Ring.push confReceiptsKept d.confReceipts receipt
    history :=
      { d.history with
        processed := d.history.processed ++ [entry]
        confReceipts := d.history.confReceipts ++ [receipt] } }

/-- Record the read states of the peer; those of asynchronous reads go elsewhere. -/
def recordReads (d : NodeDriver) (states : List (Bytes × UInt64)) (async : Bytes → Bool) :
    NodeDriver :=
  { d with
    readReceipts := Ring.keep appliedRing
      (d.readReceipts ++ states.filter fun state => !async state.1)
    history := { d.history with confirmed := d.history.confirmed ++ states } }

/-- The context of a read: the incarnation of the driver and a number. -/
def readContext (d : NodeDriver) (seq : UInt64) : Bytes := d.readIncarnation ++ be64 seq

/-- Mint a context. -/
def mintReadContext (d : NodeDriver) : Option (Bytes × NodeDriver) :=
  (checkedAdd64 d.readSeq 1).map fun next => (d.readContext d.readSeq, { d with readSeq := next })

/-- A minted context has the number that the next one no longer gets. -/
theorem mintReadContext_eq_some {d d' : NodeDriver} {context : Bytes}
    (h : d.mintReadContext = some (context, d')) :
  context = d.readContext d.readSeq ∧ ∃ next, d' = { d with readSeq := next } ∧ d.readSeq < next
  := by
  obtain ⟨next, hnext, heq⟩ := Option.map_eq_some_iff.mp h
  cases heq
  use rfl, next, rfl
  rw [checkedAdd64, Option.ite_none_right_eq_some] at hnext
  obtain ⟨hfits, hnext⟩ := hnext
  rw [← Option.some_inj.mp hnext, UInt64.lt_iff_toNat_lt, UInt64.toNat_add, Nat.mod_eq_of_lt hfits]
  apply Nat.lt_succ_self

/-- Hand a context to the peer. -/
def submitRead (d : NodeDriver) (context : Bytes) : NodeDriver :=
  { d with peer := { d.peer with submitted := d.peer.submitted ++ [context] } }

end NodeDriver

namespace Driver

open NodeDriver

/-- One action of the pump.  `confer` is the peer's change of a configuration. -/
inductive Pump (x : Externals) (confer : Members → CommittedEntry → Except Error Members) :
    NodeDriver → NodeDriver → Prop where
  /-- Committed entries are handed over. -/
  | take {d : NodeDriver} (n : ℕ) (hidle : d.pump = .idle) (hfatal : d.fatal = none)
      (hleft : d.left ≠ []) :
      Pump x confer d
        { d with pump := .applying (d.left.take (n + 1)) ⟨0, 0⟩, left := d.left.drop (n + 1) }
  /-- A barrier has nothing to apply. -/
  | noop {d : NodeDriver} {entry : CommittedEntry} {rest : List CommittedEntry}
      {last : AppliedPosition} (hpump : d.pump = .applying (entry :: rest) last)
      (hkind : entry.kind = .noop) :
      Pump x confer d { d with
          pump := .applying rest entry.pos
          history := { d.history with processed := d.history.processed ++ [entry] } }
  /-- A command that cannot be read stops the driver. -/
  | undecodable {d : NodeDriver} {entry : CommittedEntry} {rest : List CommittedEntry}
      {last : AppliedPosition} {cause : Error} (hpump : d.pump = .applying (entry :: rest) last)
      (hkind : entry.kind = .command) (hdecode : entry.decode = .error cause) :
      Pump x confer d { d with pump := .failing entry.pos cause (entry :: rest) }
  /-- Commands are applied and enter the ring, with both locks held. -/
  | commands {d : NodeDriver} {entry : CommittedEntry} {rest rest' : List CommittedEntry}
      {last : AppliedPosition} {cmd : Command} {more : List (AppliedPosition × Command)}
      {m : Machine} {results : List ApplyResult}
      (hpump : d.pump = .applying (entry :: rest) last) (hkind : entry.kind = .command)
      (hdecode : entry.decode = .ok cmd) (hgroup : grouped d.machine entry cmd rest = (more, rest'))
      (hanswer : answerCommands x d.machine entry.pos cmd more = .ok (m, results)) :
      Pump x confer d { d.recordCommands m ((entry :: rest).take (more.length + 1))
            (ringEntries ((entry.pos, cmd) :: more) results) with
          pump := .applying rest' (lastPos entry.pos more) }
  /-- Commands that cannot be applied stop the driver. -/
  | unapplied {d : NodeDriver} {entry : CommittedEntry} {rest rest' : List CommittedEntry}
      {last : AppliedPosition} {cmd : Command} {more : List (AppliedPosition × Command)}
      {cause : Error} (hpump : d.pump = .applying (entry :: rest) last)
      (hkind : entry.kind = .command) (hdecode : entry.decode = .ok cmd)
      (hgroup : grouped d.machine entry cmd rest = (more, rest'))
      (hanswer : answerCommands x d.machine entry.pos cmd more = .error cause) :
      Pump x confer d { d with pump := .failing (lastPos entry.pos more) cause (entry :: rest) }
  /-- The peer has applied a configuration change in an earlier life. -/
  | replay {d : NodeDriver} {entry : CommittedEntry} {rest : List CommittedEntry}
      {last : AppliedPosition} (hpump : d.pump = .applying (entry :: rest) last)
      (hkind : entry.isConf = true) (hindex : entry.index ≤ d.peer.confApplied) :
      Pump x confer d { d with pump := .receipting entry d.peer.members rest }
  /-- The peer applies a configuration change. -/
  | confChange {d : NodeDriver} {entry : CommittedEntry} {rest : List CommittedEntry}
      {last : AppliedPosition} {members : Members}
      (hpump : d.pump = .applying (entry :: rest) last) (hkind : entry.isConf = true)
      (hindex : d.peer.confApplied < entry.index)
      (hconfer : confer d.peer.members entry = .ok members) :
      Pump x confer d
        { d.recordConfChange entry members with pump := .receipting entry members rest }
  /-- A configuration change that the peer refuses or cannot persist stops the driver. -/
  | unconferred {d : NodeDriver} {entry : CommittedEntry} {rest : List CommittedEntry}
      {last : AppliedPosition} (cause : Error) (hpump : d.pump = .applying (entry :: rest) last)
      (hkind : entry.isConf = true) (hindex : d.peer.confApplied < entry.index) :
      Pump x confer d { d with pump := .failing entry.pos cause (entry :: rest) }
  /-- A configuration change is receipted. -/
  | receipt {d : NodeDriver} {entry : CommittedEntry} {rest : List CommittedEntry}
      {members : Members} (hpump : d.pump = .receipting entry members rest) :
      Pump x confer d { d.recordConfReceipt entry members with pump := .applying rest entry.pos }
  /-- All entries that were handed over are processed. -/
  | publish {d : NodeDriver} {last : AppliedPosition} (hpump : d.pump = .applying [] last) :
      Pump x confer d { d.publishDriverApplied last with pump := .idle }
  /-- The driver learns that an entry could not be processed. -/
  | poison {d : NodeDriver} {pos : AppliedPosition} {cause : Error} {rest : List CommittedEntry}
      (hpump : d.pump = .failing pos cause rest) :
      Pump x confer d { d with fatal := some (.entry pos cause), pump := .stopped rest }
  /-- The driver learns that the peer could not persist. -/
  | unpersisted {d : NodeDriver} (cause : Error) (hidle : d.pump = .idle) :
      Pump x confer d { d with fatal := some (d.fatal.getD (.persistence cause)) }
  /-- The peer hands over confirmed reads. -/
  | reads {d : NodeDriver} (states : List (Bytes × UInt64)) (async : Bytes → Bool)
      (hidle : d.pump = .idle) (hfatal : d.fatal = none)
      (hstates : ∀ state ∈ states, state.1 ∈ d.peer.submitted) :
      Pump x confer d (d.recordReads states async)

/-- What happens beside the pump and the waiting threads. -/
inductive Beside : NodeDriver → NodeDriver → Prop where
  /-- Leadership changes. -/
  | role {d : NodeDriver} (leader : Bool) (hint : Option UInt64) (ready : Bool) :
      Beside d
        { d with peer := { d.peer with leader := leader, leaderHint := hint, ready := ready } }
  /-- An asynchronous read mints its context. -/
  | mint {d d' : NodeDriver} {context : Bytes} (hmint : d.mintReadContext = some (context, d')) :
      Beside d { d' with
          history := { d'.history with asyncContexts := d'.history.asyncContexts ++ [context] } }
  /-- The context of a group of asynchronous reads is handed to the peer. -/
  | submit {d : NodeDriver} {context : Bytes} (hcontext : context ∈ d.history.asyncContexts) :
      Beside d (d.submitRead context)

/-- What happens to a driver beside its waiting threads. -/
def Env (x : Externals) (confer : Members → CommittedEntry → Except Error Members)
    (d d' : NodeDriver) : Prop :=
  Pump x confer d d' ∨ Beside d d'

/-- What a driver is opened over: a machine and a peer as an earlier life left them, with what
took effect in it, and the log that will be handed over. -/
structure Opening where
  machine : Machine
  base : Option AppliedPosition
  confApplied : UInt64
  members : Members
  readIncarnation : Bytes
  log : List CommittedEntry
  applications : List (AppliedPosition × ApplyOutcome)
  confChanges : List AppliedPosition
  committed : CommittedLog log
  base_le : ∀ b ∈ base, b.index ≤ machine.applied
  base_lt : ∀ b ∈ base, ∀ e ∈ log, b.index < e.index
  applications_le : ∀ a ∈ applications, a.1.index ≤ machine.applied
  confChanges_le : ∀ pos ∈ confChanges, pos.index ≤ confApplied

/-- The driver that is opened. -/
def Opening.driver (o : Opening) : NodeDriver where
  machine := o.machine
  ring := []
  confReceipts := []
  readReceipts := []
  driverApplied := o.base
  fatal := none
  readIncarnation := o.readIncarnation
  readSeq := 0
  peer := ⟨o.confApplied, o.members, false, none, false, []⟩
  pump := .idle
  left := o.log
  history := ⟨[], [], o.applications, [], o.confChanges, [], []⟩

end Driver

end Kv9.Raft
