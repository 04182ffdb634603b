import Kv9.Lib.Threads
import Kv9.Raft.Driver.Traces

/-!
# Those who wait for the pump

Three kinds of calls read what the pump leaves behind, each in several moments between which
the pump may act.  An inspection asks what became of a proposed command; it reads the
watermark, and then the ring and the machine under one lock.  A waiter for a configuration
change reads the receipts, the peer and the machine one after another.  A read barrier mints a
context, hands it to the peer, and waits for the confirmation of that context and then for the
watermark to reach the confirmed index.
-/

namespace Kv9.Raft

open Codec Engine Except RawTtl

/-! ## Inspections -/

/-- What became of a proposed command. -/
inductive ApplyWaitOutcome where
  | applied (pos : AppliedPosition)
  /-- The position was consumed by a different entry. -/
  | replaced
  | fenceRejected (pos : AppliedPosition) (region : RegionId)
  | rawTtlRejected (pos : AppliedPosition) (region : RegionId) (reason : TtlRejection)
  | manifest (pos : AppliedPosition) (verdict : ManifestVerdict)
deriving DecidableEq

/-- Why nothing can be said about a proposed command. -/
inductive ApplyWaitError where
  | unconfirmed (index : UInt64)
  | failed (cause : Fatal)
deriving DecidableEq

/-- The verdict on a command that was applied with an outcome. -/
def ApplyWaitOutcome.verdict (pos : AppliedPosition) : ApplyOutcome → ApplyWaitOutcome
  | .manifest verdict => .manifest pos verdict
  | .fenceRejected region => .fenceRejected pos region
  | .rawTtlRejected region reason => .rawTtlRejected pos region reason
  | .plain => .applied pos

namespace NodeDriver

/-- Whether the watermark has reached an index. -/
def reached (d : NodeDriver) (index : UInt64) : Bool :=
  d.driverApplied.any fun wm => index ≤ wm.index

/-- The part of `inspect_applied` with the ring and the machine locked. -/
def inspectRing (d : NodeDriver) (pos : AppliedPosition) (wmPassed : Bool) :
    Option (Except ApplyWaitError ApplyWaitOutcome) :=
  match d.ring.find? fun e => e.index = pos.index with
  | some e =>
    some (.ok (if e.term = pos.term then .verdict e.pos e.outcome else .replaced))
  | none =>
    -- A full ring may have held the index once.
    if d.ring.length = appliedRing ∧ d.ring.head?.any (fun e => pos.index < e.index) then
      some (.error (.unconfirmed pos.index))
    else if pos.index ≤ d.machine.applied ∨ wmPassed then
      some (.ok .replaced)
    else
      none

end NodeDriver

/-- Where an inspection stands. -/
inductive Inspecting where
  | start
  | unpoisoned
  | sampled (wmPassed : Bool)
  | told (answer : Option (Except ApplyWaitError ApplyWaitOutcome))

/-- One action of `inspect_applied`. -/
inductive Inspecting.Step (d : NodeDriver) (pos : AppliedPosition) :
    Inspecting → Inspecting → Prop where
  | poisoned {cause : Fatal} (h : d.fatal = some cause) :
      Step d pos start (told (some (.error (.failed cause))))
  | unpoisoned (h : d.fatal = none) : Step d pos start unpoisoned
  | sample : Step d pos unpoisoned (sampled (d.reached pos.index))
  | inspect {wmPassed : Bool} : Step d pos (sampled wmPassed) (told (d.inspectRing pos wmPassed))

/-! ## Waiters for configuration changes -/

/-- Why a wait for a configuration change ended without it. -/
inductive ConfWaitError where
  | poisoned (cause : Fatal)
  /-- "conf change at term … index … was overwritten by another leader". -/
  | overwritten (pos : AppliedPosition)
  /-- "wait_conf_applied deadline: index … not reached". -/
  | deadline (index : UInt64)
  /-- The driver was stopped. -/
  | stopped
deriving DecidableEq

/-- The receipt of a configuration change, as the waiter is handed it. -/
structure ConfChangeReceipt where
  applied : AppliedPosition
  confIndex : UInt64
  members : Members
deriving DecidableEq

/-- Where a waiter for a configuration change stands.  `seen` is how many receipts there had
ever been when it looked at them. -/
inductive ConfWaiting where
  | start
  | unpoisoned
  | missed (seen : ℕ)
  | behind (seen : ℕ)
  | told (answer : Except ConfWaitError ConfChangeReceipt) (seen : ℕ)

/-- What a waiter reads in the receipt at its index. -/
def ConfReceiptEntry.answer (r : ConfReceiptEntry) (pos : AppliedPosition) :
    Except ConfWaitError ConfChangeReceipt :=
  if r.term ≠ pos.term then .error (.overwritten pos) else .ok ⟨pos, r.index, r.members⟩

/-- One action of `wait_conf_applied`. -/
inductive ConfWaiting.Step (d : NodeDriver) (pos : AppliedPosition) :
    ConfWaiting → ConfWaiting → Prop where
  | stopped : Step d pos start (told (.error .stopped) 0)
  | poisoned {cause : Fatal} (h : d.fatal = some cause) :
      Step d pos start (told (.error (.poisoned cause)) 0)
  | unpoisoned (h : d.fatal = none) : Step d pos start unpoisoned
  | found {r : ConfReceiptEntry} (h : d.confReceipts.find? (fun r => r.index = pos.index) = some r) :
      Step d pos unpoisoned (told (r.answer pos) d.history.confReceipts.length)
  | missed (h : d.confReceipts.find? (fun r => r.index = pos.index) = none) :
      Step d pos unpoisoned (missed d.history.confReceipts.length)
  /-- The position was passed without a receipt, says the peer. -/
  | passedPeer {seen : ℕ} (h : pos.index < d.peer.confApplied) :
      Step d pos (missed seen) (told (.error (.overwritten pos)) seen)
  | notPassedPeer {seen : ℕ} (h : ¬ pos.index < d.peer.confApplied) :
      Step d pos (missed seen) (behind seen)
  /-- The position was passed without a receipt, says the machine. -/
  | passedMachine {seen : ℕ} (h : pos.index ≤ d.machine.applied) :
      Step d pos (behind seen) (told (.error (.overwritten pos)) seen)
  | deadline {seen : ℕ} (h : ¬ pos.index ≤ d.machine.applied) :
      Step d pos (behind seen) (told (.error (.deadline pos.index)) seen)
  | again {seen : ℕ} (h : ¬ pos.index ≤ d.machine.applied) : Step d pos (behind seen) start

/-! ## Read barriers -/

/-- What a barrier was waiting for. -/
inductive BarrierPhase where
  | quorumConfirmation
  | applyCatchUp
deriving DecidableEq

/-- Why a barrier was not established. -/
inductive ReadIndexError where
  | notLeader (hint : Option UInt64)
  | unconfirmed (phase : BarrierPhase)
  | poisoned (cause : Fatal)
  /-- "read context sequence exhausted". -/
  | exhausted
  /-- The driver or its peer was stopped. -/
  | stopped
deriving DecidableEq

/-- Where a read barrier stands. -/
inductive Barrier where
  | start
  | leading
  | minted (context : Bytes)
  | submitted (context : Bytes)
  | polling (context : Bytes)
  | confirmed (context : Bytes) (index : UInt64)
  | catchingUp (context : Bytes) (index : UInt64)
  | established (context : Bytes) (index : UInt64)
  | refused (context : Option Bytes) (cause : ReadIndexError)

/-- The context a barrier has minted. -/
def Barrier.context : Barrier → Option Bytes
  | start => none
  | leading => none
  | minted context => some context
  | submitted context => some context
  | polling context => some context
  | confirmed context _ => some context
  | catchingUp context _ => some context
  | established context _ => some context
  | refused context _ => context

/-- One action of `read_barrier`. -/
inductive Barrier.Step : NodeDriver → Barrier → NodeDriver → Barrier → Prop where
  | notLeader {d : NodeDriver} (h : d.peer.leader = false) :
      Step d start d (refused none (.notLeader d.peer.leaderHint))
  | leading {d : NodeDriver} (h : d.peer.leader = true) : Step d start d leading
  | exhausted {d : NodeDriver} (h : d.mintReadContext = none) :
      Step d leading d (refused none .exhausted)
  | mint {d d' : NodeDriver} {context : Bytes} (h : d.mintReadContext = some (context, d')) :
      Step d leading d' (minted context)
  | deposed {d : NodeDriver} {context : Bytes} (h : d.peer.leader = false) :
      Step d (minted context) d (refused context (.notLeader d.peer.leaderHint))
  /-- The leader has not committed an entry of its term; the context is kept. -/
  | unready {d : NodeDriver} {context : Bytes} (h : d.peer.leader = true)
      (hready : d.peer.ready = false) : Step d (minted context) d (minted context)
  | unreadyDeadline {d : NodeDriver} {context : Bytes} (h : d.peer.leader = true)
      (hready : d.peer.ready = false) :
      Step d (minted context) d (refused context (.unconfirmed .quorumConfirmation))
  | submit {d : NodeDriver} {context : Bytes} (h : d.peer.leader = true)
      (hready : d.peer.ready = true) :
      Step d (minted context) (d.submitRead context) (submitted context)
  | unconfirmedPoisoned {d : NodeDriver} {context : Bytes} {cause : Fatal}
      (h : d.fatal = some cause) :
      Step d (submitted context) d (refused context (.poisoned cause))
  | poll {d : NodeDriver} {context : Bytes} (h : d.fatal = none) :
      Step d (submitted context) d (polling context)
  | hit {d : NodeDriver} {context : Bytes} {receipt : Bytes × UInt64}
      (h : d.readReceipts.find? (fun receipt => receipt.1 = context) = some receipt) :
      Step d (polling context) d (confirmed context receipt.2)
  | unconfirmed {d : NodeDriver} {context : Bytes}
      (h : d.readReceipts.find? (fun receipt => receipt.1 = context) = none) :
      Step d (polling context) d (submitted context)
  | unconfirmedDeadline {d : NodeDriver} {context : Bytes}
      (h : d.readReceipts.find? (fun receipt => receipt.1 = context) = none) :
      Step d (polling context) d (refused context (.unconfirmed .quorumConfirmation))
  | confirmedPoisoned {d : NodeDriver} {context : Bytes} {index : UInt64} {cause : Fatal}
      (h : d.fatal = some cause) :
      Step d (confirmed context index) d (refused context (.poisoned cause))
  | catchUp {d : NodeDriver} {context : Bytes} {index : UInt64} (h : d.fatal = none) :
      Step d (confirmed context index) d (catchingUp context index)
  | establish {d : NodeDriver} {context : Bytes} {index : UInt64} (h : d.reached index = true) :
      Step d (catchingUp context index) d (established context index)
  | behind {d : NodeDriver} {context : Bytes} {index : UInt64} (h : d.reached index = false) :
      Step d (catchingUp context index) d (confirmed context index)
  | behindDeadline {d : NodeDriver} {context : Bytes} {index : UInt64}
      (h : d.reached index = false) :
      Step d (catchingUp context index) d (refused context (.unconfirmed .applyCatchUp))
  /-- The driver or its peer was stopped. -/
  | stopped {d : NodeDriver} {barrier : Barrier}
      (h : ∀ context index, barrier ≠ established context index)
      (h' : ∀ context cause, barrier ≠ refused context cause) :
      Step d barrier d (refused barrier.context .stopped)

/-! ## Tasks -/

/-- A call that waits for the pump. -/
inductive Task where
  | inspect (pos : AppliedPosition) (st : Inspecting)
  | confWait (pos : AppliedPosition) (st : ConfWaiting)
  | barrier (st : Barrier)

/-- Calls that have not begun. -/
def Task.Fresh : Task → Prop
  | inspect _ st => st = .start
  | confWait _ st => st = .start
  | barrier st => st = .start

/-- One action of a call. -/
inductive Task.Step : NodeDriver → Task → NodeDriver → Task → Prop where
  | inspect {d : NodeDriver} {pos : AppliedPosition} {st st' : Inspecting}
      (h : Inspecting.Step d pos st st') : Step d (inspect pos st) d (inspect pos st')
  | confWait {d : NodeDriver} {pos : AppliedPosition} {st st' : ConfWaiting}
      (h : ConfWaiting.Step d pos st st') : Step d (confWait pos st) d (confWait pos st')
  | barrier {d d' : NodeDriver} {st st' : Barrier} (h : Barrier.Step d st d' st') :
      Step d (barrier st) d' (barrier st')

end Kv9.Raft
