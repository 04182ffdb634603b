import Kv9.Raft.Lease.Policy

/-!
# The lease of a peer

A peer holds its voter's lease and, while it leads, its leader's lease.  Each call samples the
clock once, under the lock of the peer; a clock that fails stops the lease for good.  A call
stages what is to be sent; what is staged is captured when the peer has stored its state, and is
sent after the turn is completed, if it still holds then.
-/

namespace Kv9.Raft.Lease

open Stateful

/-- The role of a peer. -/
inductive StateRole where
  | follower
  | candidate
  | leader
  | preCandidate
deriving DecidableEq, Repr

/-- The members of a group, as a peer knows them. -/
structure ConfState where
  voters : List NodeId
  votersOutgoing : List NodeId
  learnersNext : List NodeId
  autoLeave : Bool
deriving DecidableEq, Repr

/-- What the lease observes of a peer. -/
structure RawNode where
  term : ℕ
  state : StateRole
  leaderId : NodeId
  committed : ℕ
  commitToCurrentTerm : Bool
  conf : ConfState
deriving DecidableEq, Repr

/-- The installation of a lease, of which no two are alike: a node and its incarnation. -/
structure Owner where
  node : NodeId
  incarnation : ℕ
deriving DecidableEq, Repr

/-- The lease of a peer. -/
structure InstalledLease where
  epoch : LeaseEpoch
  voter : VoterLease
  configuration : FixedConfiguration
  timing : Timing
  lastClock : ClockReading
  fenced : Bool
  owner : Owner
  leader : Option LeaderLease
  leaderTerm : ℕ
  nextRenewal : ℕ
  request : Option Renewal
  grant : Option Grant
  confirmed : Option Renewal
  captured : ℕ
deriving DecidableEq

/-- What one turn is to publish. -/
structure LeaseBatch where
  owner : Owner
  sequence : ℕ
  request : Option Renewal
  grant : Option Grant
  confirmed : Option Renewal
deriving DecidableEq, Repr

/-- A read that is under way. -/
structure LeaseRead where
  owner : Owner
  ticket : ReadTicket
deriving DecidableEq, Repr

/-- The text of a refusal. -/
def Refused.text : Refused → String
  | .invalidConfiguration => "InvalidConfiguration"
  | .invalidTiming => "InvalidTiming"
  | .overflow => "Overflow"
  | .clockChanged => "ClockChanged"
  | .clockRegressed => "ClockRegressed"
  | .clockUnavailable => "ClockUnavailable"
  | .fenced => "Fenced"
  | .revoked => "Revoked"
  | .wrongAuthority => "WrongAuthority"
  | .noCurrentTermCommit => "NoCurrentTermCommit"
  | .commitRegressed => "CommitRegressed"
  | .noCertificate => "NoCertificate"
  | .expired => "Expired"
  | .deadline => "Deadline"
  | .wrongRound => "WrongRound"
  | .wrongVoter => "WrongVoter"
  | .noQuorum => "NoQuorum"
  | .applyLag => "ApplyLag"
  | .invalidView => "InvalidView"
  | .recoveryQuarantine => "RecoveryQuarantine"
  | .votingPromise => "VotingPromise"

def refusal (reason : Refused) : Error := .raft ("lease voting refused: " ++ reason.text)

/-- Whether the peer's members are the voters of the policy, and no change is under way. -/
def matchesConfiguration (raw : RawNode) (policy : LeasePolicy) : Bool :=
  raw.conf.voters.insertionSort (· ≤ ·) = policy.voters ∧ raw.conf.votersOutgoing = []
    ∧ raw.conf.learnersNext = [] ∧ raw.conf.autoLeave = false

namespace InstalledLease

/-- Install the lease of a peer that starts.  The state is the recorded incarnation: the next one
is recorded before the clock is sampled. -/
def install (node : NodeId) (region : ℕ) (raw : RawNode) (policy : LeasePolicy)
    (validated : Except Refused Unit) (sample : Except Refused ClockReading) :
    Stateful Error (Option LeaseEpoch) InstalledLease := do
  ofExcept policy.validate
  if policy.node ≠ node ∨ policy.group ≠ region then throw (.raft "lease policy names another peer")
  let configuration ← ofExcept ((FixedConfiguration.new policy.configuration policy.voters).mapError
    refusal)
  let timing ← ofExcept ((Timing.new policy.promiseNs policy.driftPpb policy.marginNs).mapError
    refusal)
  if matchesConfiguration raw policy = false then throw (refusal .invalidConfiguration)
  ofExcept (validated.mapError refusal)
  let epoch ← ofExcept (LeaseEpoch.successor (← get) policy)
  set (some epoch)
  if epoch.policy ≠ policy ∨ epoch.incarnation = 0 then
    throw (.raft "storage returned an invalid lease epoch")
  let now ← ofExcept (sample.mapError refusal)
  let voter ← ofExcept ((VoterLease.recover node region configuration timing now raw.term).mapError
    refusal)
  return ⟨epoch, voter, configuration, timing, now, false, ⟨node, epoch.incarnation⟩, none, 0, 0,
    none, none, none, 0⟩

/-- Stop the lease for good. -/
def fence (l : InstalledLease) : InstalledLease :=
  { l with
    fenced := true
    voter := l.voter.fence
    leader := l.leader.map LeaderLease.fence
    request := none
    grant := none
    confirmed := none }

/-- Run a call of the voter. -/
def onVoter {α : Type} (m : Stateful Refused VoterLease α) : Stateful Refused InstalledLease α :=
  zoom voter (fun v l => { l with voter := v }) m

/-- Run a call of the leader, if there is one. -/
def onLeader {α : Type} (m : Stateful Refused LeaderLease α) :
    Stateful Refused InstalledLease (Option α) := do
  let l ← get
  match l.leader with
  | none => return none
  | some leader =>
    let a ← zoom (fun _ => leader) (fun x (l : InstalledLease) => { l with leader := some x }) m
    return some a

/-- Sample the clock. -/
def sampleClock (sample : Except Refused ClockReading) :
    Stateful Error InstalledLease ClockReading := do
  let l ← get
  if l.fenced then throw (refusal .fenced)
  match sample with
  | .error reason =>
    set l.fence
    throw (refusal reason)
  | .ok now =>
    if now.domain ≠ l.lastClock.domain then
      set l.fence
      throw (refusal .clockChanged)
    if now.nanos < l.lastClock.nanos then
      set l.fence
      throw (refusal .clockRegressed)
    set { l with lastClock := now }
    return now

/-- Give up what the leader relies on. -/
def revokeLeader (l : InstalledLease) : InstalledLease :=
  { l with leader := l.leader.map LeaderLease.revoke, request := none, confirmed := none }

/-- Follow the peer's role and term.  A new term of a leader begins a new lease. -/
def synchronize (raw : RawNode) (sample : Except Refused ClockReading) :
    Stateful Error InstalledLease ClockReading := do
  let l ← get
  if matchesConfiguration raw l.epoch.policy = false then
    set l.fence
    throw (refusal .invalidConfiguration)
  let now ← sampleClock sample
  let l ← get
  if raw.state ≠ .leader then
    set l.revokeLeader
    return now
  if l.leaderTerm < raw.term then
    let p := l.epoch.policy
    let leader ← ofExcept ((LeaderLease.new l.configuration
      ⟨p.group, p.configuration, p.node, raw.term, l.epoch.incarnation⟩ l.timing now).mapError
      refusal)
    set { l with
      leader := some leader
      leaderTerm := raw.term
      nextRenewal := now.nanos
      request := none
      confirmed := none }
    return now
  if raw.term ≠ l.leaderTerm ∨ l.leader = none then
    set l.fence
    throw (refusal .wrongAuthority)
  return now

/-- What the leader observes of its own log. -/
def progress (l : InstalledLease) (raw : RawNode) : Progress :=
  ⟨l.epoch.policy.configuration, raw.leaderId, raw.term, raw.committed,
    if raw.commitToCurrentTerm then raw.term else 0⟩

/-- Begin a read. -/
def beginRead (raw : RawNode) (sample : Except Refused ClockReading) (remainingNs : ℕ) :
    Stateful Error InstalledLease (Option LeaseRead) := do
  match ← attempt (synchronize raw sample) with
  | .error _ => return none
  | .ok now =>
    if raw.state ≠ .leader then return none
    match checkedAdd now.nanos remainingNs with
    | none => return none
    | some deadline =>
      let l ← get
      match ← attempt (onLeader (LeaderLease.beginRead now (l.progress raw) deadline)) with
      | .ok (some ticket) => return some ⟨l.owner, ticket⟩
      | _ => return none

/-- Finish a read.  The answer is whether its view may be served. -/
def finishRead (raw : RawNode) (sample : Except Refused ClockReading) (read : LeaseRead)
    (viewIndex : ℕ) : Stateful Error InstalledLease Bool := do
  if read.owner ≠ (← get).owner then return false
  match ← attempt (synchronize raw sample) with
  | .error _ => return false
  | .ok now =>
    if raw.state ≠ .leader then return false
    let l ← get
    match ← attempt (onLeader (LeaderLease.finishRead now (l.progress raw) read.ticket
      viewIndex)) with
    | .ok (some _) => return true
    | _ => return false

/-- Whether the peer may vote. -/
def mayVote (raw : RawNode) (sample : Except Refused ClockReading) :
    Stateful Error InstalledLease Unit := do
  let l ← get
  if matchesConfiguration raw l.epoch.policy = false then
    set l.fence
    throw (refusal .invalidConfiguration)
  let now ← sampleClock sample
  mapError refusal (onVoter (VoterLease.mayVote now raw.term))

/-- Collect a promise, and stage the round once a quorum has promised. -/
def collect (now : ClockReading) (grant : Grant) : Stateful Error InstalledLease Unit := do
  match ← attempt (onLeader (LeaderLease.acknowledge now grant)) with
  | .ok (some true) => modify fun l => { l with confirmed := some grant.renewal }
  | _ => return

/-- Begin a round when it is time to.  The leader promises as any voter does. -/
def prepare (raw : RawNode) (sample : Except Refused ClockReading) :
    Stateful Error InstalledLease Unit := do
  match ← attempt (synchronize raw sample) with
  | .error _ => return
  | .ok now =>
    let l ← get
    if raw.state ≠ .leader ∨ now.nanos < l.nextRenewal ∨ raw.commitToCurrentTerm = false then
      return
    match ← attempt (onLeader (LeaderLease.start now (l.progress raw))) with
    | .ok (some renewal) =>
      match checkedAdd now.nanos (max (l.timing.leaderNs / 2) 1) with
      | none => modify fence
      | some next =>
        modify fun l =>
          { l with nextRenewal := next, request := some renewal, confirmed := none }
        match ← attempt (onVoter (VoterLease.promise now raw.term raw.leaderId renewal)) with
        | .ok grant => collect now grant
        | .error _ => return
    | _ => return

/-- Take a message.  For a request, `stepped` is the peer after the heartbeat that the request
stands for, if that is accepted. -/
def receive (raw : RawNode) (stepped : Option RawNode) (sample : Except Refused ClockReading)
    (m : Message) : Stateful Error InstalledLease Unit := do
  let l ← get
  match decode m l.epoch.policy with
  | none => return
  | some (kind, renewal) =>
    if l.fenced then return
    match kind with
    | .request =>
      match stepped with
      | none => return
      | some raw =>
        match ← attempt (synchronize raw sample) with
        | .error _ => return
        | .ok now =>
          if raw.state ≠ .follower then return
          match ← attempt (onVoter (VoterLease.promise now raw.term raw.leaderId renewal)) with
          | .ok grant => modify fun l => { l with grant := some grant }
          | .error _ => return
    | .grant =>
      match ← attempt (synchronize raw sample) with
      | .error _ => return
      | .ok now =>
        if raw.state ≠ .leader ∨ raw.term ≠ renewal.authority.term then return
        collect now ⟨renewal, m.sender⟩

/-- Take what is staged. -/
def capture : Stateful Error InstalledLease (Option LeaseBatch) := do
  let l ← get
  if l.fenced then return none
  match checkedAdd l.captured 1 with
  | none =>
    set l.fence
    return none
  | some sequence =>
    set { l with captured := sequence, request := none, grant := none, confirmed := none }
    return some ⟨l.owner, sequence, l.request, l.grant, l.confirmed⟩

/-- The answer to a request, if the promise still stands. -/
def completeGrant (raw : RawNode) (now : ClockReading) :
    Option Grant → Stateful Error InstalledLease (List Message)
  | none => return []
  | some grant => do
    let l ← get
    match ← attempt (onVoter (VoterLease.promise now raw.term raw.leaderId grant.renewal)) with
    | .ok _ => return [encode .grant grant.renewal l.epoch.policy grant.renewal.authority.leader]
    | .error _ => return []

/-- The requests to the other voters, if the round still stands. -/
def completeRequest (now : ClockReading) (p : Progress) :
    Option Renewal → Stateful Error InstalledLease (List Message)
  | none => return []
  | some request => do
    let policy := (← get).epoch.policy
    match ← attempt (onLeader (LeaderLease.validateRenewal now p request)) with
    | .ok (some _) =>
      return (policy.voters.filter (· ≠ policy.node)).map (encode .request request policy)
    | _ => return []

/-- Rely on a round that was collected before the turn. -/
def completePublish (now : ClockReading) (p : Progress) :
    Option Renewal → Stateful Error InstalledLease Unit
  | none => return
  | some confirmed => do
    let _ ← (attempt (onLeader (LeaderLease.publish now p confirmed)) :
      Stateful Error InstalledLease _)

/-- Publish what a turn has staged. -/
def complete (raw : RawNode) (sample : Except Refused ClockReading) (batch : LeaseBatch) :
    Stateful Error InstalledLease (List Message) := do
  let l ← get
  if batch.owner ≠ l.owner ∨ batch.sequence ≠ l.captured then
    throw (.raft "foreign or superseded lease pump publication")
  match ← attempt (synchronize raw sample) with
  | .error _ => return []
  | .ok now =>
    let p := (← get).progress raw
    let grants ← completeGrant raw now batch.grant
    if raw.state = .leader then
      let requests ← completeRequest now p batch.request
      completePublish now p batch.confirmed
      return grants ++ requests
    else
      return grants

end InstalledLease

end Kv9.Raft.Lease
