import Kv9.Common.Keys
import Kv9.Raft.Lease.Basic

/-!
# Lease policies and lease messages

Every voter declares the same policy and keeps it for good.  Each start of a voter begins a new
incarnation, which is recorded before the voter takes part.  A message carries the round it is
about and the policy of its sender; a receiver with another policy drops it.
-/

namespace Kv9.Raft.Lease

open Except

/-- The declaration of a voter. -/
structure LeasePolicy where
  node : NodeId
  group : ℕ
  configuration : ℕ
  voters : List NodeId
  promiseNs : ℕ
  driftPpb : ℕ
  marginNs : ℕ
deriving DecidableEq, Repr

/-- The voters are listed in order. -/
def LeasePolicy.validate (p : LeasePolicy) : Except Error Unit :=
  failIf (p.node = 0 ∨ p.configuration = 0 ∨ p.voters = [] ∨ 64 < p.voters.length
    ∨ p.voters.head? = some 0 ∨ ¬ p.voters.IsChain (· < ·) ∨ p.node ∉ p.voters
    ∨ p.promiseNs = 0 ∨ 1000000000 ≤ p.driftPpb) (.raft "invalid durable lease policy")

/-- An incarnation of a voter. -/
structure LeaseEpoch where
  policy : LeasePolicy
  incarnation : ℕ
deriving DecidableEq, Repr

/-- The next incarnation.  A policy does not change. -/
def LeaseEpoch.successor (previous : Option LeaseEpoch) (policy : LeasePolicy) :
    Except Error LeaseEpoch := do
  policy.validate
  match previous with
  | none => return ⟨policy, 1⟩
  | some old =>
    if old.policy = policy then
      match checkedAdd old.incarnation 1 with
      | none => throw (.raft "lease incarnation exhausted")
      | some incarnation => return ⟨policy, incarnation⟩
    else
      throw (.raft "durable lease policy cannot change")

theorem LeaseEpoch.of_successor {previous : Option LeaseEpoch} {policy : LeasePolicy}
    {next : LeaseEpoch} (h : LeaseEpoch.successor previous policy = .ok next) :
  next.policy = policy ∧ ∀ old ∈ previous, old.incarnation < next.incarnation
  := by
  unfold LeaseEpoch.successor at h
  simp only [bind_eq_ok] at h
  obtain ⟨_, -, h⟩ := h
  split at h
  · obtain rfl := ok.inj h
    simp
  · rename_i old
    split_ifs at h with hpolicy
    split at h
    · nomatch h
    · rename_i incarnation hadd
      obtain rfl := ok.inj h
      obtain rfl := eq_of_checkedAdd hadd
      use rfl
      rintro _ ⟨⟩
      apply Nat.lt_succ_self

/-! ## Clocks -/

/-- What is assumed of a clock: its drift, and the error of each sample. -/
structure ClockBounds where
  driftPpb : ℕ
  errorNs : ℕ
deriving DecidableEq, Repr

namespace ClockBounds

/-- The margin that covers the errors of four samples. -/
def minimumMarginNs (bounds : ClockBounds) (policyDriftPpb : ℕ) : Except Refused ℕ :=
  if policyDriftPpb < bounds.driftPpb ∨ rateScale ≤ policyDriftPpb then .error .invalidTiming
  else
    let a := rateScale - policyDriftPpb
    let margin := (4 * bounds.errorNs * rateScale + a - 1) / a
    if maxU64 < margin then .error .overflow else .ok margin

/-- Whether a policy covers the errors of the clock. -/
def validatePolicy (bounds : ClockBounds) (policy : LeasePolicy) : Except Refused Unit := do
  policy.validate.mapError fun _ => Refused.invalidConfiguration
  let minimum ← bounds.minimumMarginNs policy.driftPpb
  failIf (policy.marginNs < minimum) Refused.invalidTiming
  let _ ← Timing.new policy.promiseNs policy.driftPpb policy.marginNs

end ClockBounds

/-! ## Messages -/

inductive Kind where
  | request
  | grant
deriving DecidableEq, Repr

/-- A message about a round, field by field. -/
structure Message where
  kind : Kind
  sender : NodeId
  recipient : NodeId
  term : ℕ
  renewal : Renewal
  driftPpb : ℕ
  marginNs : ℕ
  voters : List NodeId
deriving DecidableEq, Repr

def encode (kind : Kind) (renewal : Renewal) (policy : LeasePolicy) (recipient : NodeId) : Message :=
  ⟨kind, policy.node, recipient, renewal.authority.term, renewal, policy.driftPpb, policy.marginNs,
    policy.voters⟩

/-- The kind and the round of a message, if it comes from a voter of the same policy. -/
def decode (m : Message) (policy : LeasePolicy) : Option (Kind × Renewal) :=
  let a := m.renewal.authority
  if m.recipient ≠ policy.node ∨ m.sender = policy.node ∨ m.sender ∉ policy.voters then none
  else if a.group ≠ policy.group ∨ a.configuration ≠ policy.configuration ∨ a.term = 0
      ∨ a.term ≠ m.term ∨ a.incarnation = 0 ∨ m.renewal.sequence = 0
      ∨ m.renewal.generation = maxU64 ∨ m.renewal.promiseNs ≠ policy.promiseNs
      ∨ m.driftPpb ≠ policy.driftPpb ∨ m.marginNs ≠ policy.marginNs ∨ m.voters ≠ policy.voters
      ∨ m.kind = .request ∧ a.leader ≠ m.sender ∨ m.kind = .grant ∧ a.leader ≠ policy.node then
    none
  else some (m.kind, m.renewal)

/-- A message is read as what it says. -/
theorem eq_of_decode {m : Message} {policy : LeasePolicy} {kind : Kind} {renewal : Renewal}
    (h : decode m policy = some (kind, renewal)) :
  m.kind = kind ∧ m.renewal = renewal
  := by
  grind [decode]

end Kv9.Raft.Lease
