import Kv9.Lib.Drift
import Kv9.Raft.Lease.Gate

/-!
# Voters under leases

The voters of a group run side by side.  Messages may be lost, delayed, repeated and reordered;
any voter may stop between two steps and start again, with what it has stored.  What a peer does
between the calls of its lease is left open, but for three things: its term does not go down, a
vote is cast only in a call that passes the gate, and nothing of a vote is published before the
term is stored.
-/

namespace Kv9.Raft.Lease

/-- The policy of a group, and the clocks of its voters: one for each incarnation of a node. -/
structure Deployment where
  policy : LeasePolicy
  timing : Timing
  configuration : FixedConfiguration
  bounds : ClockBounds
  value : NodeId → ℕ → ℚ → ℚ
  timing_eq : Timing.new policy.promiseNs policy.driftPpb policy.marginNs = .ok timing
  configuration_eq : FixedConfiguration.new policy.configuration policy.voters = .ok configuration
  covered : bounds.validatePolicy policy = .ok ()
  rate : ∀ n i, RateWithin (1 - bounds.driftPpb / rateScale) (1 + bounds.driftPpb / rateScale)
    (value n i)

/-- The policy as a node declares it. -/
def Deployment.policyOf (d : Deployment) (n : NodeId) : LeasePolicy := { d.policy with node := n }

/-- A sample is off by at most the error of the clock; a clock may also fail. -/
def Deployment.Truthful (d : Deployment) (n : NodeId) (i : ℕ) (t : ℚ) :
    Except Refused ClockReading → Prop
  | .error _ => True
  | .ok now => |d.value n i t - now.nanos| ≤ d.bounds.errorNs

instance (d : Deployment) (n : NodeId) (i : ℕ) (t : ℚ) (sample : Except Refused ClockReading) :
    Decidable (d.Truthful n i t sample) :=
  match sample with
  | .error _ => isTrue trivial
  | .ok now => inferInstanceAs (Decidable (|d.value n i t - now.nanos| ≤ d.bounds.errorNs))

/-- A node that runs.  Its last votes are those it has not published yet. -/
structure Process where
  raw : RawNode
  lease : Option InstalledLease
  cast : List (ℕ × ℚ)

/-- A node: what it has stored, and its process if it runs. -/
structure Node where
  term : ℕ
  epoch : Option LeaseEpoch
  process : Option Process

/-- A vote for a leader of a term, and when it was cast. -/
structure Vote where
  voter : NodeId
  term : ℕ
  instant : ℚ
deriving DecidableEq

/-- A read that was served under a certificate, and when it finished. -/
structure Served where
  owner : Owner
  certificate : Certificate
  instant : ℚ
deriving DecidableEq

/-- All nodes, all messages that were sent, and all that was published or served.  A message, a
batch or a read may be used any number of times. -/
structure World where
  now : ℚ
  nodes : NodeId → Node
  network : List Message
  batches : List LeaseBatch
  reads : List LeaseRead
  votes : List Vote
  served : List Served

/-- No node runs, and none has ever had a lease. -/
def World.initial (now : ℚ) (terms : NodeId → ℕ) : World :=
  ⟨now, fun n => ⟨terms n, none, none⟩, [], [], [], [], []⟩

def World.setNode (w : World) (n : NodeId) (node : Node) : World :=
  { w with nodes := Function.update w.nodes n node }

def World.setProcess (w : World) (n : NodeId) (p : Process) : World :=
  w.setNode n { w.nodes n with process := some p }

/-- What can happen. -/
inductive Event where
  | wait (duration : ℚ)
  | boot (n : NodeId) (raw : RawNode) (sample : Except Refused ClockReading)
  | bootPlain (n : NodeId) (raw : RawNode)
  | crash (n : NodeId)
  | raft (n : NodeId) (raw : RawNode)
  | gated (n : NodeId) (sample : Except Refused ClockReading) (raw : RawNode) (vote : Option ℕ)
  | persist (n : NodeId)
  | revoke (n : NodeId)
  | fence (n : NodeId)
  | prepare (n : NodeId) (sample : Except Refused ClockReading)
  | receive (n : NodeId) (m : Message) (stepped : Option RawNode)
      (sample : Except Refused ClockReading)
  | capture (n : NodeId)
  | complete (n : NodeId) (batch : LeaseBatch) (sample : Except Refused ClockReading)
  | beginRead (n : NodeId) (sample : Except Refused ClockReading) (remainingNs : ℕ)
  | finishRead (n : NodeId) (sample : Except Refused ClockReading) (read : LeaseRead)
      (viewIndex : ℕ)

namespace Deployment

open Stateful

variable (d : Deployment)

/-- Start a node with its lease. -/
def boot (w : World) (n : NodeId) (raw : RawNode) (sample : Except Refused ClockReading) :
    Option World :=
  let node := w.nodes n
  let result := (InstalledLease.install n d.policy.group raw (d.policyOf n)
    (d.bounds.validatePolicy (d.policyOf n)) sample).run node.epoch
  let incarnation := (result.2.map LeaseEpoch.incarnation).getD 0
  if node.process.isNone ∧ node.term ≤ raw.term ∧ d.Truthful n incarnation w.now sample then
    match result.1 with
    | .ok lease => some (w.setNode n ⟨node.term, result.2, some ⟨raw, some lease, []⟩⟩)
    | .error _ => some (w.setNode n ⟨node.term, result.2, none⟩)
  else none

/-- Start a node without a lease.  A node that ever had one is refused. -/
def bootPlain (w : World) (n : NodeId) (raw : RawNode) : Option World :=
  let node := w.nodes n
  if node.process.isNone ∧ node.epoch = none ∧ node.term ≤ raw.term then
    some (w.setProcess n ⟨raw, none, []⟩)
  else none

/-- A call of the lease of a node, with one sample of the clock.  The answer is the outcome, the
world after it, and the installation. -/
def call {α : Type} (w : World) (n : NodeId) (sample : Except Refused ClockReading)
    (m : RawNode → Stateful Error InstalledLease α) :
    Option (Except Error α × World × Owner) := do
  let p ← (w.nodes n).process
  let l ← p.lease
  let result := (m p.raw).run l
  if d.Truthful n l.epoch.incarnation w.now sample then
    some (result.1, w.setProcess n { p with lease := some result.2 }, l.owner)
  else none

/-- The peer of a node goes on.  Its term does not go down. -/
def advance (w : World) (n : NodeId) (raw : RawNode) (vote : Option ℕ) : Option World := do
  let p ← (w.nodes n).process
  if p.raw.term ≤ raw.term ∧ ∀ u ∈ vote, u ≤ raw.term then
    some (w.setProcess n ⟨raw, p.lease, vote.toList.map (·, w.now) ++ p.cast⟩)
  else none

/-- A call that may cast a vote: the gate first, and the peer only if it passes. -/
def gated (w : World) (n : NodeId) (sample : Except Refused ClockReading) (raw : RawNode)
    (vote : Option ℕ) : Option World := do
  let p ← (w.nodes n).process
  match p.lease with
  | none => advance w n raw vote
  | some _ =>
    match ← d.call w n sample fun raw => InstalledLease.mayVote raw sample with
    | (.ok _, w, _) => advance w n raw vote
    | (.error _, w, _) => some w

/-- Store the term, and then publish the votes. -/
def persist (w : World) (n : NodeId) : Option World := do
  let p ← (w.nodes n).process
  let w' := w.setNode n ⟨p.raw.term, (w.nodes n).epoch, some { p with cast := [] }⟩
  some { w' with votes := p.cast.map (fun v => ⟨n, v.1, v.2⟩) ++ w.votes }

/-- Take a message that was sent. -/
def receive (w : World) (n : NodeId) (m : Message) (stepped : Option RawNode)
    (sample : Except Refused ClockReading) : Option World := do
  let p ← (w.nodes n).process
  if m ∈ w.network ∧ ∀ raw ∈ stepped, p.raw.term ≤ raw.term then
    let (_, w, _) ← d.call w n sample fun raw => InstalledLease.receive raw stepped sample m
    match stepped with
    | none => some w
    | some raw => advance w n raw none
  else none

/-- One event. -/
def step (w : World) : Event → Option World
  | .wait duration => if 0 ≤ duration then some { w with now := w.now + duration } else none
  | .boot n raw sample => d.boot w n raw sample
  | .bootPlain n raw => bootPlain w n raw
  | .crash n => some (w.setNode n { w.nodes n with process := none })
  | .raft n raw => advance w n raw none
  | .gated n sample raw vote => d.gated w n sample raw vote
  | .persist n => persist w n
  | .revoke n => do
    let (_, w, _) ← d.call w n (.error .revoked) fun _ => modify InstalledLease.revokeLeader
    some w
  | .fence n => do
    let (_, w, _) ← d.call w n (.error .fenced) fun _ => modify InstalledLease.fence
    some w
  | .prepare n sample => do
    let (_, w, _) ← d.call w n sample fun raw => InstalledLease.prepare raw sample
    some w
  | .receive n m stepped sample => d.receive w n m stepped sample
  | .capture n => do
    match ← d.call w n (.error .fenced) fun _ => InstalledLease.capture with
    | (.ok (some batch), w, _) => some { w with batches := batch :: w.batches }
    | (_, w, _) => some w
  | .complete n batch sample => do
    if batch ∉ w.batches then none
    match ← d.call w n sample fun raw => InstalledLease.complete raw sample batch with
    | (.ok messages, w, _) => some { w with network := messages ++ w.network }
    | (.error _, w, _) => some w
  | .beginRead n sample remainingNs => do
    match ← d.call w n sample fun raw => InstalledLease.beginRead raw sample remainingNs with
    | (.ok (some read), w, _) => some { w with reads := read :: w.reads }
    | (_, w, _) => some w
  | .finishRead n sample read viewIndex => do
    if read ∉ w.reads then none
    match ← d.call w n sample fun raw => InstalledLease.finishRead raw sample read viewIndex with
    | (.ok true, w, owner) =>
      some { w with served := ⟨owner, read.ticket.certificate, w.now⟩ :: w.served }
    | (_, w, _) => some w

/-- A run. -/
def run (w : World) (events : List Event) : Option World := events.foldlM d.step w

end Deployment

end Kv9.Raft.Lease
