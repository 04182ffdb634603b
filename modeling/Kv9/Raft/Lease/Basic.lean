import Kv9.Lib.Stateful

/-!
# Leader leases

A leader asks the voters for promises not to vote, and reads locally while a quorum of them is
bound.  It counts its own time from before it asks; a voter counts the time of a promise from
when it makes it, and after a restart refuses to vote for as long as a promise it has forgotten
could last.  Clocks drift, so the leader's time is shorter than the promise, and the time after a
restart is longer.
-/

namespace Kv9.Raft.Lease

open Stateful

/-- Why the lease refuses. -/
inductive Refused where
  | invalidConfiguration
  | invalidTiming
  | overflow
  | clockChanged
  | clockRegressed
  | clockUnavailable
  | fenced
  | revoked
  | wrongAuthority
  | noCurrentTermCommit
  | commitRegressed
  | noCertificate
  | expired
  | deadline
  | wrongRound
  | wrongVoter
  | noQuorum
  | applyLag
  | invalidView
  | recoveryQuarantine
  | votingPromise
deriving DecidableEq, Repr

/-- The largest 64-bit number. -/
def maxU64 : ℕ := 2 ^ 64 - 1

/-- The sum of two numbers, if it fits 64 bits. -/
def checkedAdd (a b : ℕ) : Option ℕ := if a + b ≤ maxU64 then some (a + b) else none

theorem eq_of_checkedAdd {a b c : ℕ} (h : checkedAdd a b = some c) :
  c = a + b
  := by
  grind [checkedAdd]

/-! ## Timing -/

/-- Parts per billion. -/
def rateScale : ℕ := 1000000000

/-- How long a promise lasts, how long the leader relies on one, and how long a voter waits after
a restart, in nanoseconds. -/
structure Timing where
  promiseNs : ℕ
  leaderNs : ℕ
  recoveryNs : ℕ
deriving DecidableEq, Repr

/-- The times for a drift and a margin.  The leader's time is rounded down, the voter's up. -/
def Timing.new (promiseNs driftPpb marginNs : ℕ) : Except Refused Timing :=
  if promiseNs = 0 ∨ rateScale ≤ driftPpb then .error .invalidTiming
  else
    let a := rateScale - driftPpb
    let b := rateScale + driftPpb
    if promiseNs * a / b ≤ marginNs then .error .invalidTiming
    else
      let leader := promiseNs * a / b - marginNs
      let recovery := (promiseNs * b + a - 1) / a + marginNs
      if maxU64 < leader ∨ maxU64 < recovery then .error .overflow
      else .ok ⟨promiseNs, leader, recovery⟩

/-- A sample of a node's own clock. -/
structure ClockReading where
  domain : ℕ
  nanos : ℕ
deriving DecidableEq, Repr

/-- The last sample.  A clock does not change and does not go back. -/
structure ClockFence where
  last : ClockReading
deriving DecidableEq, Repr

namespace ClockFence

def new (now : ClockReading) : Except Refused ClockFence :=
  if now.domain = 0 then .error .clockChanged else .ok ⟨now⟩

def observe (now : ClockReading) : Stateful Refused ClockFence ℕ := do
  let fence ← get
  if now.domain ≠ fence.last.domain then throw .clockChanged
  if now.nanos < fence.last.nanos then throw .clockRegressed
  set (ClockFence.mk now)
  return now.nanos

theorem eq_nanos_of_observe {now : ClockReading} {fence fence' : ClockFence} {time : ℕ}
    (h : (observe now).run fence = (.ok time, fence')) :
  time = now.nanos
  := by
  have hwp : Stateful.wp (observe now) (Stateful.ends (fun time _ => time = now.nanos)
      (fun _ => True)) fence := by
    simp only [observe, wp_bind, wp_get, wp_ite, wp_throw,
      wp_set, wp_pure, ends_ok, ends_error, implies_true,
      and_self]
  unfold Stateful.wp at hwp
  rw [h] at hwp
  apply hwp

end ClockFence

/-! ## Who takes part -/

def maxVoters : ℕ := 64

/-- The identifier of a node. -/
abbrev NodeId := ℕ

/-- A set of voters with its identifier. -/
structure FixedConfiguration where
  id : ℕ
  voters : Finset NodeId
deriving DecidableEq

namespace FixedConfiguration

/-- The voters are few, and none is zero or named twice. -/
def new (id : ℕ) (voters : List NodeId) : Except Refused FixedConfiguration :=
  if id = 0 ∨ voters = [] ∨ maxVoters < voters.length then .error .invalidConfiguration
  else if 0 ∈ voters ∨ ¬ voters.Nodup then .error .invalidConfiguration
  else .ok ⟨id, voters.toFinset⟩

def quorum (c : FixedConfiguration) : ℕ := c.voters.card / 2 + 1

end FixedConfiguration

/-- A leader in one term and one process. -/
structure Authority where
  group : ℕ
  configuration : ℕ
  leader : NodeId
  term : ℕ
  incarnation : ℕ
deriving DecidableEq, Repr

/-- One round of promises a leader asks for. -/
structure Renewal where
  authority : Authority
  generation : ℕ
  sequence : ℕ
  promiseNs : ℕ
deriving DecidableEq, Repr

/-- A promise of a voter. -/
structure Grant where
  renewal : Renewal
  voter : NodeId
deriving DecidableEq, Repr

/-- What the leader observes of its own log. -/
structure Progress where
  configuration : ℕ
  leader : NodeId
  term : ℕ
  committed : ℕ
  committedTerm : ℕ
deriving DecidableEq, Repr

/-- A round and the end of the time the leader may rely on it. -/
structure Certificate where
  renewal : Renewal
  stop : ℕ
deriving DecidableEq, Repr

/-- A round that is being collected. -/
structure Pending where
  certificate : Certificate
  acknowledgements : Finset NodeId
deriving DecidableEq

inductive Mode where
  | leader
  | revoked
  | fenced
deriving DecidableEq, Repr

/-- What a read has captured. -/
structure ReadTicket where
  certificate : Certificate
  clockDomain : ℕ
  committed : ℕ
  deadline : ℕ
deriving DecidableEq, Repr

/-- A read that may be answered. -/
structure ReadDecision where
  committed : ℕ
  viewIndex : ℕ
deriving DecidableEq, Repr

/-! ## The leader -/

/-- The leader's side: one round that is being collected, one that is relied on. -/
structure LeaderLease where
  configuration : FixedConfiguration
  authority : Authority
  timing : Timing
  clock : ClockFence
  mode : Mode
  generation : ℕ
  sequence : ℕ
  known : ℕ
  pending : Option Pending
  active : Option Certificate
deriving DecidableEq

namespace LeaderLease

def new (configuration : FixedConfiguration) (authority : Authority) (timing : Timing)
    (now : ClockReading) : Except Refused LeaderLease :=
  if authority.configuration ≠ configuration.id ∨ authority.leader ∉ configuration.voters
      ∨ authority.term = 0 ∨ authority.incarnation = 0 then .error .wrongAuthority
  else do
    let clock ← ClockFence.new now
    return ⟨configuration, authority, timing, clock, .leader, 0, 0, 0, none, none⟩

/-- Give up for good. -/
def fence (l : LeaderLease) : LeaderLease :=
  { l with mode := .fenced, generation := maxU64, pending := none, active := none }

/-- Give up what was promised so far. -/
def revoke (l : LeaderLease) : LeaderLease :=
  if l.mode ≠ .leader then l
  else
    let l := { l with pending := none, active := none, generation := l.generation + 1 }
    if l.generation = maxU64 then l.fence else { l with mode := .revoked }

/-- Sample the clock.  A clock that is not to be trusted fences the leader. -/
def observe (now : ClockReading) : Stateful Refused LeaderLease ℕ := do
  let l ← get
  if l.mode = .fenced then throw .fenced
  match (ClockFence.observe now).run l.clock with
  | (.ok time, clock) =>
    set { l with clock := clock }
    return time
  | (.error reason, clock) =>
    set { l with clock := clock }.fence
    throw reason

/-- Take note of the leader's own log. -/
def progress (p : Progress) : Stateful Refused LeaderLease Unit := do
  let l ← get
  if p.configuration ≠ l.authority.configuration ∨ p.leader ≠ l.authority.leader
      ∨ p.term ≠ l.authority.term then
    set l.fence
    throw .wrongAuthority
  if p.committed < l.known then
    set l.fence
    throw .commitRegressed
  set { l with known := p.committed }
  if p.committed = 0 ∨ p.committedTerm ≠ l.authority.term then throw .noCurrentTermCommit

def live : Stateful Refused LeaderLease Unit := do
  match (← get).mode with
  | .leader => return
  | .revoked => throw .revoked
  | .fenced => throw .fenced

/-- Begin a round.  The leader's time runs from here. -/
def start (now : ClockReading) (p : Progress) : Stateful Refused LeaderLease Renewal := do
  let time ← observe now
  progress p
  live
  let l ← get
  match checkedAdd time l.timing.leaderNs with
  | none =>
    set l.fence
    throw .overflow
  | some stop =>
    match checkedAdd l.sequence 1 with
    | none =>
      set l.fence
      throw .overflow
    | some sequence =>
      let renewal : Renewal := ⟨l.authority, l.generation, sequence, l.timing.promiseNs⟩
      set { l with sequence := sequence, pending := some ⟨⟨renewal, stop⟩, ∅⟩ }
      return renewal

/-- Collect a promise.  The answer is whether a quorum is reached. -/
def acknowledge (now : ClockReading) (grant : Grant) : Stateful Refused LeaderLease Bool := do
  let time ← observe now
  live
  let l ← get
  if grant.voter ∉ l.configuration.voters then throw .wrongVoter
  match l.pending with
  | none => throw .wrongRound
  | some pending =>
    if pending.certificate.renewal ≠ grant.renewal then throw .wrongRound
    if pending.certificate.stop ≤ time then throw .expired
    let acknowledgements := insert grant.voter pending.acknowledgements
    set { l with pending := some { pending with acknowledgements := acknowledgements } }
    return l.configuration.quorum ≤ acknowledgements.card

/-- The round that is being collected, if it is the one named and its time is not over. -/
def currentRound (now : ClockReading) (p : Progress) (renewal : Renewal) :
    Stateful Refused LeaderLease Pending := do
  let time ← observe now
  progress p
  live
  match (← get).pending with
  | none => throw .wrongRound
  | some pending =>
    if pending.certificate.renewal ≠ renewal then throw .wrongRound
    if pending.certificate.stop ≤ time then throw .expired
    return pending

/-- Rely on a round that a quorum has promised. -/
def publish (now : ClockReading) (p : Progress) (renewal : Renewal) :
    Stateful Refused LeaderLease Unit := do
  let pending ← currentRound now p renewal
  let l ← get
  if pending.acknowledgements.card < l.configuration.quorum then throw .noQuorum
  set { l with active := some pending.certificate, pending := none }

/-- Whether a request may still be sent. -/
def validateRenewal (now : ClockReading) (p : Progress) (renewal : Renewal) :
    Stateful Refused LeaderLease Unit := do
  let _ ← currentRound now p renewal

/-- Capture what a read relies on. -/
def beginRead (now : ClockReading) (p : Progress) (requestDeadline : ℕ) :
    Stateful Refused LeaderLease ReadTicket := do
  let time ← observe now
  progress p
  live
  if requestDeadline ≤ time then throw .deadline
  match (← get).active with
  | none => throw .noCertificate
  | some certificate =>
    if certificate.stop ≤ time then throw .expired
    return ⟨certificate, now.domain, p.committed, requestDeadline⟩

/-- Check what a read relied on, once its view is there. -/
def finishRead (now : ClockReading) (p : Progress) (ticket : ReadTicket) (viewIndex : ℕ) :
    Stateful Refused LeaderLease ReadDecision := do
  let time ← observe now
  progress p
  live
  let l ← get
  if ticket.certificate.renewal.authority ≠ l.authority
      ∨ ticket.certificate.renewal.generation ≠ l.generation ∨ ticket.clockDomain ≠ now.domain then
    throw .wrongAuthority
  if ticket.deadline ≤ time then throw .deadline
  if ticket.certificate.stop ≤ time then throw .expired
  if viewIndex < ticket.committed then throw .applyLag
  if p.committed < viewIndex then throw .invalidView
  return ⟨ticket.committed, viewIndex⟩

end LeaderLease

/-! ## The voter -/

/-- The last promise, and when it ends. -/
structure HeldGrant where
  renewal : Renewal
  stop : ℕ
deriving DecidableEq, Repr

/-- The voter's side. -/
structure VoterLease where
  node : NodeId
  group : ℕ
  configuration : FixedConfiguration
  timing : Timing
  clock : ClockFence
  term : ℕ
  holdUntil : ℕ
  recoveryUntil : ℕ
  lastGrant : Option HeldGrant
  fenced : Bool
deriving DecidableEq

namespace VoterLease

/-- Every start of the process begins with a wait. -/
def recover (node : NodeId) (group : ℕ) (configuration : FixedConfiguration) (timing : Timing)
    (now : ClockReading) (durableTerm : ℕ) : Except Refused VoterLease :=
  if node ∉ configuration.voters then .error .wrongVoter
  else
    match checkedAdd now.nanos timing.recoveryNs with
    | none => .error .overflow
    | some recoveryUntil => do
      let clock ← ClockFence.new now
      return ⟨node, group, configuration, timing, clock, durableTerm, 0, recoveryUntil, none, false⟩

def fence (v : VoterLease) : VoterLease := { v with fenced := true }

/-- Sample the clock and the term. -/
def observe (now : ClockReading) (raftTerm : ℕ) : Stateful Refused VoterLease ℕ := do
  let v ← get
  if v.fenced then throw .fenced
  if raftTerm < v.term then
    set v.fence
    throw .wrongAuthority
  let v := { v with term := raftTerm }
  match (ClockFence.observe now).run v.clock with
  | (.ok time, clock) =>
    set { v with clock := clock }
    return time
  | (.error reason, clock) =>
    set { v with clock := clock }.fence
    throw reason

/-- Whether the node may vote. -/
def mayVote (now : ClockReading) (raftTerm : ℕ) : Stateful Refused VoterLease Unit := do
  let time ← observe now raftTerm
  let v ← get
  if time < v.recoveryUntil then throw .recoveryQuarantine
  if time < v.holdUntil then throw .votingPromise

/-- A promise that was not made before. -/
def newPromise (time : ℕ) (renewal : Renewal) : Stateful Refused VoterLease Grant := do
  let v ← get
  match checkedAdd time v.timing.promiseNs with
  | none =>
    set v.fence
    throw .overflow
  | some stop =>
    set { v with holdUntil := max v.holdUntil stop, lastGrant := some ⟨renewal, stop⟩ }
    return ⟨renewal, v.node⟩

/-- Promise not to vote.  The same round again gives the same promise, and does not extend it. -/
def promise (now : ClockReading) (raftTerm : ℕ) (raftLeader : NodeId) (renewal : Renewal) :
    Stateful Refused VoterLease Grant := do
  let time ← observe now raftTerm
  let v ← get
  if time < v.recoveryUntil then throw .recoveryQuarantine
  let authority := renewal.authority
  if authority.group ≠ v.group ∨ authority.configuration ≠ v.configuration.id
      ∨ authority.leader ∉ v.configuration.voters ∨ authority.leader ≠ raftLeader
      ∨ authority.term ≠ v.term ∨ authority.term = 0 ∨ authority.incarnation = 0
      ∨ renewal.sequence = 0 ∨ renewal.generation = maxU64
      ∨ renewal.promiseNs ≠ v.timing.promiseNs then
    throw .wrongAuthority
  match v.lastGrant with
  | none => newPromise time renewal
  | some last =>
    if last.renewal.authority = authority then
      if renewal.sequence < last.renewal.sequence
          ∨ renewal.generation < last.renewal.generation then
        throw .wrongRound
      if renewal.sequence = last.renewal.sequence then
        if renewal ≠ last.renewal then throw .wrongRound
        if last.stop ≤ time then throw .expired
        return ⟨renewal, v.node⟩
      newPromise time renewal
    else
      if time < v.holdUntil then throw .votingPromise
      newPromise time renewal

end VoterLease

end Kv9.Raft.Lease
