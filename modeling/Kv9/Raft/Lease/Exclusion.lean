import Kv9.Raft.Lease.Calls
import Kv9.Raft.Lease.Windows

/-!
# No election while a read is valid

In every run there is a history that explains what the nodes hold.  A vote for a later leader is
cast only when the voter's promises to the earlier one are over, so the votes of a quorum come
after every instant at which a read of the earlier leader is valid: the quorum that votes and the
quorum that has promised share a voter.
-/

namespace Kv9.Raft.Lease

open Stateful History Option Function InstalledLease

/-! ## The clocks -/

namespace Deployment

variable (d : Deployment)

/-- The least rate of a clock. -/
def slow : ℚ := 1 - d.policy.driftPpb / rateScale

/-- The greatest rate of a clock. -/
def fast : ℚ := 1 + d.policy.driftPpb / rateScale

/-- The times of a policy are accepted with the bounds of the clocks. -/
theorem accepted :
  Accepted d.bounds d.policy.promiseNs d.policy.driftPpb d.policy.marginNs d.timing
  := by
  have h := d.covered
  simp only [ClockBounds.validatePolicy, Except.bind_eq_ok, Except.failIf_eq_ok] at h
  obtain ⟨_, -, minimum, hminimum, _, hmargin, -⟩ := h
  use ⟨minimum, hminimum, not_lt.mp hmargin⟩, d.timing_eq

theorem slow_pos :
  0 < d.slow
  := slowest_pos d.accepted.covers.2.1

theorem fast_pos :
  0 < d.fast
  := fastest_pos _

/-- The rate of every clock is within the drift of the policy. -/
theorem rateWithin (o : Owner) :
  RateWithin d.slow d.fast (d.valueOf o)
  := d.accepted.rateWithin (d.rate o.node o.incarnation)

/-- A vote is cast only after the promises to leaders of earlier terms are over. -/
def Separated (H : History) (n : NodeId) (u : ℕ) (t : ℚ) : Prop :=
  ∀ p ∈ H.promises, p.voter = n → p.renewal.authority.term < u →
    (d.timing.promiseNs : ℚ) - 2 * d.bounds.errorNs ≤ d.fast * (t - p.instant)

/-- A read is valid as long as a sample of the leader's clock may be before the end of the
certificate. -/
def ValidAt (read : Served) (t : ℚ) : Prop :=
  d.valueOf read.owner t - d.bounds.errorNs < read.certificate.stop

end Deployment

variable {d : Deployment} {H H' : History} {w w' : World} {n : NodeId} {o : Owner} {term : ℕ}

variable {α : Type} {t : ℚ} {m : RawNode → Stateful Error InstalledLease α} {node : Node}
  {r : Except Error α} {raw : RawNode} {vote : Option ℕ}

theorem Deployment.Separated.mono {u : ℕ} (h : d.Separated H n u t)
    (hnew : ∀ p ∈ H'.promises, p.voter = n → p.renewal.authority.term < u → p ∈ H.promises) :
  d.Separated H' n u t
  := by
  intro p hp hvoter hterm
  apply h p (hnew p hp hvoter hterm) hvoter hterm

/-- A voter that passes the gate has kept all its promises. -/
theorem separated_of_mayVote {v : VoterLease} (h : VoterAgrees d H o v)
    {now : ClockReading} (hnow : |d.valueOf o t - now.nanos| ≤ d.bounds.errorNs)
    (hrecovery : v.recoveryUntil ≤ now.nanos) (hhold : v.holdUntil ≤ now.nanos)
    (hpast : ∀ p ∈ H.promises, p.instant ≤ t) (u : ℕ) :
  d.Separated H o.node u t
  := by
  intro p hp hvoter _
  have hclock := abs_le.mp hnow
  have hrecovery' : (v.recoveryUntil : ℚ) ≤ now.nanos := by exact_mod_cast hrecovery
  have hhold' : (v.holdUntil : ℚ) ≤ now.nanos := by exact_mod_cast hhold
  by_cases hincarnation : p.incarnation = o.incarnation
  · have hheld := h.held p hp hvoter hincarnation
    have helapsed := (d.rateWithin o).elapsed_le (hpast p hp)
    linarith
  · obtain ⟨r, hr, hbefore⟩ := h.waits
    have hpr := hbefore p hp hvoter hincarnation
    have hlong : (d.timing.promiseNs : ℚ) ≤ d.timing.recoveryNs := by
      exact_mod_cast d.accepted.promise_le_recovery
    -- the wait is counted from the restart, which is after the promise
    by_cases hrt : r ≤ t
    · have helapsed := (d.rateWithin o).elapsed_le hrt
      have hmono : d.fast * (t - r) ≤ d.fast * (t - p.instant) := by
        apply mul_le_mul_of_nonneg_left _ d.fast_pos.le
        linarith
      linarith
    · have helapsed := (d.rateWithin o).le_elapsed (not_le.mp hrt).le
      have hback : 0 ≤ d.slow * (r - t) := by
        apply mul_nonneg d.slow_pos.le
        linarith
      have hpos := mul_nonneg d.fast_pos.le (sub_nonneg.mpr (hpast p hp))
      linarith

/-! ## Explaining a world -/

/-- An incarnation of a node is recorded, or a later one. -/
def Recorded (node : Node) (i : ℕ) : Prop := ∃ e ∈ node.epoch, i ≤ e.incarnation

/-- A running node: its votes were cast in time, and its lease agrees with the history. -/
structure ProcessAgrees (d : Deployment) (H : History) (n : NodeId) (node : Node) (p : Process) :
    Prop where
  term : node.term ≤ p.raw.term
  cast : ∀ c ∈ p.cast, c.1 ≤ p.raw.term ∧ d.Separated H n c.1 c.2
  plain : p.lease = none → node.epoch = none
  lease : ∀ l ∈ p.lease, ∃ e ∈ node.epoch, Agrees d H ⟨n, e.incarnation⟩ l

/-- A history explains what the nodes hold, what was sent, and what was published. -/
structure Explains (d : Deployment) (H : History) (w : World) : Prop where
  unique : ∀ s ∈ H.starts, ∀ s' ∈ H.starts, s.renewal = s'.renewal → s.instant = s'.instant
  starts : ∀ s ∈ H.starts, s.instant ≤ w.now
    ∧ Recorded (w.nodes s.renewal.authority.leader) s.renewal.authority.incarnation
  promises : ∀ p ∈ H.promises, p.instant ≤ w.now ∧ Recorded (w.nodes p.voter) p.incarnation
    ∧ ∃ s ∈ H.starts, s.renewal = p.renewal ∧ s.instant ≤ p.instant
  processes : ∀ n, ∀ p ∈ (w.nodes n).process, ProcessAgrees d H n (w.nodes n) p
  votes : ∀ v ∈ w.votes, v.term ≤ (w.nodes v.voter).term
    ∧ d.Separated H v.voter v.term v.instant
  network : ∀ m ∈ w.network, MessageAgrees H m
  batches : ∀ b ∈ w.batches, BatchAgrees H b
  reads : ∀ r ∈ w.reads, ReadAgrees d H r
  served : ∀ r ∈ w.served, CertificateAgrees d H r.owner r.certificate
    ∧ QuorumBound d H r.certificate.renewal ∧ d.ValidAt r r.instant

theorem explains_initial (now : ℚ) (terms : NodeId → ℕ) :
  Explains d ⟨∅, ∅⟩ (World.initial now terms)
  := by
  constructor <;> simp [World.initial]

theorem MessageAgrees.mono {m : Message} (h : MessageAgrees H m) (hstarts : H.starts ⊆ H'.starts)
    (hpromises : H.promises ⊆ H'.promises) :
  MessageAgrees H' m
  := by
  unfold MessageAgrees at h ⊢
  split at h
  · apply h.mono hstarts
  · apply h.mono hpromises

/-- One node changes, and the history grows by what it does.  Others are not concerned. -/
theorem Explains.update (h : Explains d H w) (hextends : Extends o w.now term H H')
    (hterm : (w.nodes o.node).term ≤ term) (hnode : (w.nodes o.node).term ≤ node.term)
    (hepoch : ∀ e ∈ (w.nodes o.node).epoch, ∃ e' ∈ node.epoch, e.incarnation ≤ e'.incarnation)
    (hrecorded : H' ≠ H → Recorded node o.incarnation)
    (hprocess : ∀ p ∈ node.process, ProcessAgrees d H' o.node node p) :
  Explains d H' (w.setNode o.node node)
  := by
  have hrec : ∀ m i, Recorded (w.nodes m) i → Recorded ((w.setNode o.node node).nodes m) i := by
    rintro m i ⟨e, he, hi⟩
    by_cases hm : m = o.node
    · subst hm
      obtain ⟨e', he', hle⟩ := hepoch e he
      simp only [World.setNode, update_self]
      use e', he', hi.trans hle
    · simp only [World.setNode, update_of_ne hm]
      use e, he
  constructor
  case unique =>
    intro s hs s' hs' heq
    by_cases hmem : s ∈ H.starts <;> by_cases hmem' : s' ∈ H.starts
    · apply h.unique s hmem s' hmem' heq
    · apply absurd ⟨s, hmem, heq⟩ (hextends.starts_new s' hs' hmem').2.2.2
    · apply absurd ⟨s', hmem', heq.symm⟩ (hextends.starts_new s hs hmem).2.2.2
    · rw [(hextends.starts_new s hs hmem).1, (hextends.starts_new s' hs' hmem').1]
  case starts =>
    intro s hs
    by_cases hmem : s ∈ H.starts
    · obtain ⟨hle, hr⟩ := h.starts s hmem
      use hle
      apply hrec _ _ hr
    · obtain ⟨ht, hleader, hincarnation, -⟩ := hextends.starts_new s hs hmem
      use ht.le
      rw [hleader, hincarnation]
      simp only [World.setNode, update_self]
      apply hrecorded
      rintro rfl
      apply hmem hs
  case promises =>
    intro p hp
    by_cases hmem : p ∈ H.promises
    · obtain ⟨hle, hr, s, hs, hrest⟩ := h.promises p hmem
      use hle, hrec _ _ hr, s, hextends.starts hs
    · obtain ⟨ht, hvoter, hincarnation, -, s, hs, hrenewal⟩ := hextends.promises_new p hp hmem
      use ht.le
      constructor
      · rw [hvoter, hincarnation]
        simp only [World.setNode, update_self]
        apply hrecorded
        rintro rfl
        apply hmem hp
      · use s, hs, hrenewal
        rw [ht]
        by_cases hmem' : s ∈ H.starts
        · apply (h.starts s hmem').1
        · apply (hextends.starts_new s hs hmem').1.le
  case processes =>
    intro m p hp
    by_cases hm : m = o.node
    · subst hm
      simp only [World.setNode, update_self] at hp ⊢
      apply hprocess p hp
    · simp only [World.setNode, update_of_ne hm] at hp ⊢
      obtain ⟨hterm, hcast, hplain, hlease⟩ := h.processes m p hp
      have hothers : ∀ q ∈ H'.promises, q.voter = m → q ∈ H.promises := by
        intro q hq hvoter
        by_contra hmem
        apply hm
        rw [← hvoter, (hextends.promises_new q hq hmem).2.1]
      have hothers' : ∀ s ∈ H'.starts, s.renewal.authority.leader = m → s ∈ H.starts := by
        intro s hs hleader
        by_contra hmem
        apply hm
        rw [← hleader, (hextends.starts_new s hs hmem).2.1]
      refine ⟨hterm, ?_, hplain, ?_⟩
      · intro c hc
        obtain ⟨hle, hseparated⟩ := hcast c hc
        use hle
        apply hseparated.mono fun q hq hvoter _ => hothers q hq hvoter
      · intro l hl
        obtain ⟨e, he, hagrees⟩ := hlease l hl
        use e, he
        apply hagrees.mono hextends.starts hextends.promises hothers' hothers
  case votes =>
    intro v hv
    obtain ⟨hle, hseparated⟩ := h.votes v hv
    constructor
    · by_cases hm : v.voter = o.node
      · rw [hm] at hle ⊢
        simp only [World.setNode, update_self]
        apply hle.trans hnode
      · simp only [World.setNode, update_of_ne hm]
        apply hle
    · apply hseparated.mono
      intro q hq hvoter hlt
      by_contra hmem
      obtain ⟨-, hnew, -, hqterm, -⟩ := hextends.promises_new q hq hmem
      rw [← hvoter, hnew] at hle
      omega
  case network =>
    intro m hm
    apply (h.network m hm).mono hextends.starts hextends.promises
  case batches =>
    intro b hb g hg
    apply (h.batches b hb g hg).mono hextends.starts
  case reads =>
    intro r hr
    obtain ⟨hcertificate, hquorum⟩ := h.reads r hr
    use hcertificate.mono hextends.starts
    apply hquorum.mono hextends.promises
  case served =>
    intro r hr
    obtain ⟨hcertificate, hquorum, hvalid⟩ := h.served r hr
    use hcertificate.mono hextends.starts, hquorum.mono hextends.promises

/-- One node changes, and does nothing that the history tells of. -/
theorem Explains.setNode (h : Explains d H w) (hnode : (w.nodes n).term ≤ node.term)
    (hepoch : ∀ e ∈ (w.nodes n).epoch, ∃ e' ∈ node.epoch, e.incarnation ≤ e'.incarnation)
    (hprocess : ∀ p ∈ node.process, ProcessAgrees d H n node p) :
  Explains d H (w.setNode n node)
  := by
  apply Explains.update h (o := ⟨n, 0⟩) (Extends.refl _ _ (w.nodes n).term H) le_rfl hnode hepoch
  · intro hne
    apply absurd rfl hne
  · apply hprocess

/-! ## Steps -/

variable {sample : Except Refused ClockReading}

section

variable (h : Explains d H w)
include h

/-- A call of a lease keeps the world explained, and what it answers agrees with the history. -/
theorem Explains.call
    {Q : History → Owner → Except Error α → Prop}
    (hcall : d.call w n sample m = some (r, w', o))
    (hm : ∀ (p : Process) (i : ℕ) (l : InstalledLease), p ∈ (w.nodes n).process →
      Agrees d H ⟨n, i⟩ l → d.Truthful n i w.now sample →
      wp (m p.raw) (fun r l' => ∃ H' term, Extends ⟨n, i⟩ w.now term H H' ∧ p.raw.term ≤ term
        ∧ Agrees d H' ⟨n, i⟩ l' ∧ Q H' ⟨n, i⟩ r) l) :
  ∃ H', Explains d H' w' ∧ Q H' o r ∧ w'.now = w.now
  := by
  simp only [Deployment.call, bind_eq_bind, bind_eq_some_iff] at hcall
  obtain ⟨p, hp, l, hl, hcall⟩ := hcall
  split_ifs at hcall with htruthful
  obtain ⟨rfl, rfl, rfl⟩ := hcall
  obtain ⟨hterm, hcast, hplain, hlease⟩ := h.processes n p hp
  obtain ⟨e, he, hagrees⟩ := hlease l hl
  rw [hagrees.incarnation] at htruthful
  obtain ⟨H', term, hextends, hle, hagrees', hQ⟩ := hm p e.incarnation l hp hagrees htruthful
  rw [hagrees.owner]
  refine ⟨H', ?_, hQ, rfl⟩
  apply Explains.update h hextends (hterm.trans hle)
  · rfl
  · intro e he
    use e, he
  · intro _
    use e, he
  · rintro _ ⟨⟩
    refine ⟨hterm, ?_, nofun, ?_⟩
    · intro c hc
      obtain ⟨hc', hseparated⟩ := hcast c hc
      use hc'
      apply hseparated.mono
      intro q hq hvoter hlt
      by_contra hmem
      have := (hextends.promises_new q hq hmem).2.2.2.1
      omega
    · rintro _ ⟨⟩
      use e, he

/-- A peer goes on, and the votes it casts are in time. -/
theorem Explains.advance (hvote : ∀ u ∈ vote, d.Separated H n u w.now)
    (hadvance : Deployment.advance w n raw vote = some w') :
  Explains d H w'
  := by
  simp only [Deployment.advance, bind_eq_bind, bind_eq_some_iff] at hadvance
  obtain ⟨p, hp, hadvance⟩ := hadvance
  split_ifs at hadvance with hguard
  obtain rfl := Option.some.inj hadvance
  obtain ⟨hterm, hcast, hplain, hlease⟩ := h.processes n p hp
  apply Explains.setNode h
  · rfl
  · intro e he
    use e, he
  · rintro _ ⟨⟩
    refine ⟨hterm.trans hguard.1, ?_, hplain, hlease⟩
    intro c hc
    obtain hc | hc := List.mem_append.mp hc
    · simp only [List.mem_map, Option.mem_toList] at hc
      obtain ⟨u, hu, rfl⟩ := hc
      use hguard.2 u hu
      apply hvote u hu
    · obtain ⟨hle, hseparated⟩ := hcast c hc
      use hle.trans hguard.1

theorem Explains.call_same
    {Q : Owner → Except Error α → Prop}
    (hcall : d.call w n sample m = some (r, w', o))
    (hm : ∀ (p : Process) (i : ℕ) (l : InstalledLease), p ∈ (w.nodes n).process →
      Agrees d H ⟨n, i⟩ l → d.Truthful n i w.now sample →
      wp (m p.raw) (fun r l' => Agrees d H ⟨n, i⟩ l' ∧ Q ⟨n, i⟩ r) l) :
  Explains d H w' ∧ Q o r ∧ w'.now = w.now
  := by
  obtain ⟨H', h', ⟨rfl, hQ⟩, hnow⟩ := h.call (Q := fun H' o r => H' = H ∧ Q o r) hcall (by
    intro p i l hp hagrees htruthful
    apply wp_mono (hm p i l hp hagrees htruthful)
    rintro r l' ⟨hl', hQ⟩
    use H, p.raw.term, Extends.refl _ _ _ _, le_rfl, hl')
  use h', hQ

theorem Explains.gated (hgated : d.gated w n sample raw vote = some w') :
  Explains d H w'
  := by
  simp only [Deployment.gated, bind_eq_bind, bind_eq_some_iff] at hgated
  obtain ⟨p, hp, hgated⟩ := hgated
  split at hgated
  · -- a node without a lease has never promised anything
    rename_i hlease
    apply h.advance _ hgated
    intro u _ q hq hvoter
    obtain ⟨-, ⟨e, he, -⟩, -⟩ := h.promises q hq
    rw [hvoter, (h.processes n p hp).plain hlease] at he
    nomatch he
  · obtain ⟨⟨r, w₁, o⟩, hcall, hgated⟩ := bind_eq_some_iff.mp hgated
    obtain ⟨h₁, hQ, hnow⟩ := h.call_same
      (Q := fun _ r => ∀ u, r = .ok u → ∀ u, d.Separated H n u w.now) hcall (by
        intro p i l hp hagrees htruthful
        apply wp_mono (InstalledLease.mayVote_wp hagrees p.raw sample)
        rintro (e | u) l' hl'
        · use hl'
          nofun
        · obtain ⟨hl', now, hsample, hrecovery, hhold⟩ := hl'
          use hl'
          intro _ _
          apply separated_of_mayVote hagrees.voter
            (abs_le_of_truthful htruthful hsample) hrecovery hhold
          intro q hq
          apply (h.promises q hq).1)
    cases r with
    | ok u =>
      apply h₁.advance _ hgated
      intro v _
      rw [hnow]
      apply hQ u rfl
    | error e =>
      obtain rfl := Option.some.inj hgated
      apply h₁

/-- A node stores its term and publishes its votes. -/
theorem Explains.persist (hpersist : Deployment.persist w n = some w') :
  Explains d H w'
  := by
  simp only [Deployment.persist, bind_eq_bind, bind_eq_some_iff] at hpersist
  obtain ⟨p, hp, hpersist⟩ := hpersist
  obtain rfl := Option.some.inj hpersist
  obtain ⟨hterm, hcast, hplain, hlease⟩ := h.processes n p hp
  have h₁ : Explains d H (w.setNode n ⟨p.raw.term, (w.nodes n).epoch,
      some { p with cast := [] }⟩) := by
    apply Explains.setNode h hterm
    · intro e he
      use e, he
    · rintro _ ⟨⟩
      refine ⟨le_rfl, by simp, hplain, hlease⟩
  refine { h₁ with votes := ?_ }
  intro v hv
  obtain hv | hv := List.mem_append.mp hv
  · obtain ⟨c, hc, rfl⟩ := List.mem_map.mp hv
    simp only [World.setNode, update_self]
    apply hcast c hc
  · apply h₁.votes v hv

theorem Explains.boot (hboot : d.boot w n raw sample = some w') :
  Explains d H w'
  := by
  have hinstall := install_wp (d := d) (t := w.now) (n := n) raw sample
    (fun s hs hleader => hleader ▸ (h.starts s hs).2)
    (fun q hq hvoter => ⟨(h.promises q hq).1, hvoter ▸ (h.promises q hq).2.1⟩)
  obtain ⟨hrecorded, hagrees⟩ := hinstall
  unfold Deployment.boot at hboot
  dsimp only at hboot
  split_ifs at hboot with hguard
  split at hboot
  · rename_i lease hlease
    obtain rfl := Option.some.inj hboot
    obtain ⟨e, he, hl⟩ := hagrees lease hlease
    apply Explains.setNode h
    · rfl
    · apply hrecorded
    · rintro _ ⟨⟩
      refine ⟨hguard.2.1, by simp, nofun, ?_⟩
      rintro _ ⟨⟩
      use e, he
      apply hl
      rw [mem_def.mp he] at hguard
      apply hguard.2.2
  · obtain rfl := Option.some.inj hboot
    apply Explains.setNode h
    · rfl
    · apply hrecorded
    · rintro _ ⟨⟩

theorem Explains.receive {m : Message} {stepped : Option RawNode}
    (hreceive : d.receive w n m stepped sample = some w') :
  ∃ H', Explains d H' w'
  := by
  simp only [Deployment.receive, bind_eq_bind, bind_eq_some_iff] at hreceive
  obtain ⟨p, hp, hreceive⟩ := hreceive
  split_ifs at hreceive with hguard
  obtain ⟨⟨r, w₁, o⟩, hcall, hreceive⟩ := bind_eq_some_iff.mp hreceive
  obtain ⟨H', h₁, -, -⟩ := h.call (Q := fun _ _ _ => True) hcall (by
    intro p' i l hp' hagrees htruthful
    obtain rfl := mem_unique hp hp'
    apply wp_mono (receive_wp hagrees htruthful p.raw stepped (h.network m hguard.1))
    rintro r l' ⟨H', hextends, hl'⟩
    refine ⟨H', _, hextends, ?_, hl', trivial⟩
    cases stepped with
    | none => rfl
    | some raw => apply hguard.2 raw rfl)
  use H'
  cases stepped with
  | none =>
    obtain rfl := Option.some.inj hreceive
    apply h₁
  | some raw =>
    apply h₁.advance _ hreceive
    rintro _ ⟨⟩

theorem Explains.capture (hstep : d.step w (.capture n) = some w') :
  Explains d H w'
  := by
  obtain ⟨⟨r, w₁, o⟩, hcall, hw⟩ := bind_eq_some_iff.mp hstep
  obtain ⟨h₁, hbatch, -⟩ := h.call_same
    (Q := fun _ r => ∀ batch, r = .ok (some batch) → BatchAgrees H batch) hcall (by
      intro p i l _ hagrees _
      apply wp_mono (capture_wp hagrees)
      rintro (e | r) l'
      · nofun
      · rintro ⟨hl', hr⟩
        use hl'
        rintro batch ⟨⟩
        apply hr batch rfl)
  rcases r with e | (- | batch)
  all_goals obtain rfl := Option.some.inj hw
  · apply h₁
  · apply h₁
  · refine { h₁ with batches := ?_ }
    intro b hb
    obtain rfl | hb := List.mem_cons.mp hb
    · apply hbatch b rfl
    · apply h₁.batches b hb

theorem Explains.complete {batch : LeaseBatch}
    (hstep : d.step w (.complete n batch sample) = some w') :
  ∃ H', Explains d H' w'
  := by
  simp only [Deployment.step] at hstep
  split_ifs at hstep with hmem
  swap
  · nomatch hstep
  obtain ⟨⟨r, w₁, o⟩, hcall, hw⟩ := bind_eq_some_iff.mp hstep
  obtain ⟨H', h₁, hmessages, -⟩ := h.call
    (Q := fun H' _ r => ∀ ms, r = .ok ms → ∀ m ∈ ms, MessageAgrees H' m) hcall (by
      intro p i l _ hagrees htruthful
      apply wp_mono (complete_wp hagrees htruthful p.raw (h.batches batch hmem))
      rintro (e | ms) l'
      · intro hl'
        refine ⟨H, p.raw.term, Extends.refl _ _ _ _, le_rfl, hl', nofun⟩
      · rintro ⟨H', hextends, hl', hms⟩
        use H', p.raw.term, hextends, le_rfl, hl'
        rintro _ ⟨⟩
        apply hms)
  use H'
  cases r with
  | error e =>
    obtain rfl := Option.some.inj hw
    apply h₁
  | ok ms =>
    obtain rfl := Option.some.inj hw
    refine { h₁ with network := ?_ }
    intro m hm
    obtain hm | hm := List.mem_append.mp hm
    · apply hmessages ms rfl m hm
    · apply h₁.network m hm

theorem Explains.beginRead {remainingNs : ℕ}
    (hstep : d.step w (.beginRead n sample remainingNs) = some w') :
  Explains d H w'
  := by
  obtain ⟨⟨r, w₁, o⟩, hcall, hw⟩ := bind_eq_some_iff.mp hstep
  obtain ⟨h₁, hread, -⟩ := h.call_same
    (Q := fun _ r => ∀ read, r = .ok (some read) → ReadAgrees d H read) hcall (by
      intro p i l _ hagrees _
      apply wp_mono (InstalledLease.beginRead_wp hagrees p.raw sample remainingNs)
      rintro (e | r) l'
      · nofun
      · rintro ⟨hl', hr⟩
        use hl'
        rintro read ⟨⟩
        apply hr read rfl)
  rcases r with e | (- | read)
  all_goals obtain rfl := Option.some.inj hw
  · apply h₁
  · apply h₁
  · refine { h₁ with reads := ?_ }
    intro r hr
    obtain rfl | hr := List.mem_cons.mp hr
    · apply hread r rfl
    · apply h₁.reads r hr

theorem Explains.finishRead {read : LeaseRead} {viewIndex : ℕ}
    (hstep : d.step w (.finishRead n sample read viewIndex) = some w') :
  Explains d H w'
  := by
  simp only [Deployment.step] at hstep
  split_ifs at hstep with hmem
  swap
  · nomatch hstep
  obtain ⟨⟨r, w₁, o⟩, hcall, hw⟩ := bind_eq_some_iff.mp hstep
  obtain ⟨h₁, hserved, hnow⟩ := h.call_same
    (Q := fun o r => r = .ok true → read.owner = o
      ∧ d.ValidAt ⟨o, read.ticket.certificate, w.now⟩ w.now) hcall (by
      intro p i l _ hagrees htruthful
      apply wp_mono (InstalledLease.finishRead_wp hagrees p.raw sample read viewIndex)
      rintro (e | r) l'
      · nofun
      · rintro ⟨hl', hr⟩
        use hl'
        rintro ⟨⟩
        obtain ⟨howner, now, hsample, hstop⟩ := hr rfl
        use howner
        have hclock := abs_le.mp (abs_le_of_truthful (o := ⟨n, i⟩) htruthful hsample)
        have hstop' : (now.nanos : ℚ) < read.ticket.certificate.stop := by exact_mod_cast hstop
        simp only [Deployment.ValidAt]
        linarith)
  rcases r with e | (- | -)
  all_goals obtain rfl := Option.some.inj hw
  · apply h₁
  · apply h₁
  · obtain ⟨rfl, hvalid⟩ := hserved rfl
    refine { h₁ with served := ?_ }
    intro r hr
    obtain rfl | hr := List.mem_cons.mp hr
    · obtain ⟨hcertificate, hquorum⟩ := h.reads read hmem
      rw [hnow]
      use hcertificate, hquorum
    · apply h₁.served r hr

theorem Explains.step {event : Event} (hstep : d.step w event = some w') :
  ∃ H', Explains d H' w'
  := by
  cases event with
  | wait duration =>
    simp only [Deployment.step] at hstep
    split_ifs at hstep with hduration
    obtain rfl := Option.some.inj hstep
    have hle : w.now ≤ w.now + duration := by linarith
    refine ⟨H, { h with starts := ?_, promises := ?_ }⟩
    · intro s hs
      obtain ⟨hs', hr⟩ := h.starts s hs
      use hs'.trans hle
    · intro q hq
      obtain ⟨hq', hr⟩ := h.promises q hq
      use hq'.trans hle
  | boot n raw sample =>
    use H
    apply h.boot hstep
  | bootPlain n raw =>
    simp only [Deployment.step, Deployment.bootPlain] at hstep
    split_ifs at hstep with hguard
    obtain rfl := Option.some.inj hstep
    use H
    apply Explains.setNode h
    · rfl
    · intro e he
      use e, he
    · rintro _ ⟨⟩
      refine ⟨hguard.2.2, by simp, fun _ => hguard.2.1, ?_⟩
      rintro _ ⟨⟩
  | crash n =>
    obtain rfl := Option.some.inj hstep
    use H
    apply Explains.setNode h
    · rfl
    · intro e he
      use e, he
    · rintro _ ⟨⟩
  | raft n raw =>
    use H
    apply h.advance _ hstep
    rintro _ ⟨⟩
  | gated n sample raw vote =>
    use H
    apply h.gated hstep
  | persist n =>
    use H
    apply h.persist hstep
  | revoke n =>
    obtain ⟨⟨r, w₁, o⟩, hcall, hw⟩ := bind_eq_some_iff.mp hstep
    obtain rfl := Option.some.inj hw
    use H
    apply (h.call_same (Q := fun _ _ => True) hcall _).1
    intro p i l _ hagrees _
    use (weaker_revokeLeader l).agrees hagrees
  | fence n =>
    obtain ⟨⟨r, w₁, o⟩, hcall, hw⟩ := bind_eq_some_iff.mp hstep
    obtain rfl := Option.some.inj hw
    use H
    apply (h.call_same (Q := fun _ _ => True) hcall _).1
    intro p i l _ hagrees _
    use (InstalledLease.weaker_fence l).agrees hagrees
  | prepare n sample =>
    obtain ⟨⟨r, w₁, o⟩, hcall, hw⟩ := bind_eq_some_iff.mp hstep
    obtain rfl := Option.some.inj hw
    obtain ⟨H', h', -, -⟩ := h.call (Q := fun _ _ _ => True) hcall (by
      intro p i l _ hagrees htruthful
      apply wp_mono (prepare_wp hagrees htruthful p.raw)
      rintro r l' ⟨H', hextends, hl'⟩
      exact ⟨H', _, hextends, le_rfl, hl', trivial⟩)
    use H'
  | receive n m stepped sample => apply h.receive hstep
  | capture n =>
    use H
    apply h.capture hstep
  | complete n batch sample => apply h.complete hstep
  | beginRead n sample remainingNs =>
    use H
    apply h.beginRead hstep
  | finishRead n sample read viewIndex =>
    use H
    apply h.finishRead hstep

theorem Explains.run {events : List Event} (hrun : d.run w events = some w') :
  ∃ H', Explains d H' w'
  := by
  induction events generalizing w H with
  | nil =>
    obtain rfl := Option.some.inj hrun
    use H
  | cons event events ih =>
    obtain ⟨w₁, hstep, hrest⟩ := bind_eq_some_iff.mp hrun
    obtain ⟨H₁, h₁⟩ := h.step hstep
    apply ih h₁ hrest

end

/-! ## Exclusion -/

/-- Two quorums share a voter. -/
theorem FixedConfiguration.exists_common (c : FixedConfiguration) {S Q : Finset NodeId}
    (hS : S ⊆ c.voters) (hQ : Q ⊆ c.voters) (hS' : c.quorum ≤ S.card) (hQ' : c.quorum ≤ Q.card) :
  ∃ v, v ∈ S ∧ v ∈ Q
  := by
  have hcard : c.voters.card < S.card + Q.card := by
    unfold FixedConfiguration.quorum at hS' hQ'
    omega
  obtain ⟨v, hv⟩ := Finset.inter_nonempty_of_card_lt_card_add_card hS hQ hcard
  use v
  apply Finset.mem_inter.mp hv

/-- A vote for a later leader comes after every instant at which a read is valid, if the voter
has promised the round the read relies on. -/
theorem Explains.lt_instant (h : Explains d H w) {read : Served} (hread : read ∈ w.served)
    (hvalid : d.ValidAt read t) {vote : Vote} (hvote : vote ∈ w.votes)
    (hbound : H.Bound vote.voter read.certificate.renewal)
    (hterm : read.certificate.renewal.authority.term < vote.term) :
  t < vote.instant
  := by
  obtain ⟨p, hp, hvoter, hrenewal⟩ := hbound
  obtain ⟨s, hs, hs', -, -, hstop⟩ := (h.served read hread).1
  -- the promise was made after the round was begun
  obtain ⟨-, -, s₂, hs₂, hs₂', hle⟩ := h.promises p hp
  have hsp : s.instant ≤ p.instant := by
    rw [h.unique s hs s₂ hs₂ (by rw [hs', hs₂', hrenewal])]
    apply hle
  have hseparated := (h.votes vote hvote).2 p hp hvoter (by rw [hrenewal]; apply hterm)
  obtain ⟨hcount, hpos⟩ := d.accepted.leader_shorter
  unfold Deployment.ValidAt at hvalid
  apply (d.rateWithin read.owner).lt_of_count d.slow_pos d.fast_pos _ hsp hseparated hcount hpos
  linarith

/-- A read that is served is valid when it finishes.  At no instant at which it is valid has a
quorum voted for leaders of later terms. -/
theorem no_election_while_read_valid (d : Deployment) (now : ℚ) (terms : NodeId → ℕ)
    {events : List Event} {w : World} (hrun : d.run (World.initial now terms) events = some w)
    {read : Served} (hread : read ∈ w.served) :
  d.ValidAt read read.instant
    ∧ ∀ t, d.ValidAt read t → ∀ Q ⊆ d.configuration.voters, d.configuration.quorum ≤ Q.card →
      ∃ v ∈ Q, ∀ vote ∈ w.votes, vote.voter = v →
        read.certificate.renewal.authority.term < vote.term → t < vote.instant
  := by
  obtain ⟨H, h⟩ := (explains_initial now terms).run hrun
  obtain ⟨-, ⟨S, hS, hS', hbound⟩, hvalid⟩ := h.served read hread
  use hvalid
  intro t ht Q hQ hQ'
  obtain ⟨v, hvS, hvQ⟩ := d.configuration.exists_common hS hQ hS' hQ'
  use v, hvQ
  rintro vote hvote rfl hterm
  apply h.lt_instant hread ht hvote (hbound _ hvS) hterm

/-- Three voters, the first with a slow clock and the others with fast ones. -/
def threeVoters : Deployment where
  policy := ⟨1, 7, 9, [1, 2, 3], 1000, 100000000, 5⟩
  timing := ⟨1000, 813, 1228⟩
  configuration := ⟨9, {1, 2, 3}⟩
  bounds := ⟨100000000, 1⟩
  value := fun n _ t => (if n = 1 then 9 / 10 else 11 / 10) * t
  timing_eq := by decide +kernel
  configuration_eq := by decide +kernel
  covered := by decide +kernel
  rate := by
    intro n i
    apply RateWithin.of_rate
    · split_ifs <;> norm_num [rateScale]
    · split_ifs <;> norm_num [rateScale]

/-- A peer of three in a term. -/
def peerOfThree (term : ℕ) (state : StateRole) (leaderId : NodeId) : RawNode :=
  ⟨term, state, leaderId, 1, true, ⟨[1, 2, 3], [], [], false⟩⟩

/-- The first round of the first node. -/
def firstRound : Renewal := ⟨⟨7, 9, 1, 1, 1⟩, 0, 1, 1000⟩

/-- The first two nodes start and wait.  The first leads and begins a round; the second promises;
the first serves a read.  The second votes for a later leader when its promise is over. -/
def readThenVote : List Event :=
  [.boot 1 (peerOfThree 0 .follower 0) (.ok ⟨1, 0⟩), .boot 2 (peerOfThree 0 .follower 0) (.ok ⟨1, 0⟩),
    .wait 1400, .raft 1 (peerOfThree 1 .leader 1), .prepare 1 (.ok ⟨1, 1260⟩), .capture 1,
    .complete 1 ⟨⟨1, 1⟩, 1, some firstRound, none, none⟩ (.ok ⟨1, 1260⟩),
    .receive 2 ⟨.request, 1, 2, 1, firstRound, 100000000, 5, [1, 2, 3]⟩
      (some (peerOfThree 1 .follower 1)) (.ok ⟨1, 1540⟩),
    .capture 2, .complete 2 ⟨⟨2, 1⟩, 1, none, some ⟨firstRound, 2⟩, none⟩ (.ok ⟨1, 1540⟩),
    .receive 1 ⟨.grant, 2, 1, 1, firstRound, 100000000, 5, [1, 2, 3]⟩ none (.ok ⟨1, 1261⟩),
    .capture 1, .complete 1 ⟨⟨1, 1⟩, 2, none, none, some firstRound⟩ (.ok ⟨1, 1261⟩), .wait 10,
    .beginRead 1 (.ok ⟨1, 1269⟩) 500, .wait 100,
    .finishRead 1 (.ok ⟨1, 1359⟩) ⟨⟨1, 1⟩, ⟨⟨firstRound, 2073⟩, 1, 1, 1769⟩⟩ 1, .wait 890,
    .gated 2 (.ok ⟨1, 2640⟩) (peerOfThree 2 .follower 3) (some 2), .persist 2]

/-- In that run the read is served, and one of the first two nodes has not voted for a later
leader while it is valid. -/
theorem no_election_while_read_valid_three :
  ∃ w, threeVoters.run (World.initial 0 fun _ => 0) readThenVote = some w
    ∧ w.votes = [⟨2, 2, 2400⟩]
    ∧ ∃ read ∈ w.served, threeVoters.ValidAt read read.instant
      ∧ ∀ t, threeVoters.ValidAt read t → ∃ v ∈ ({1, 2} : Finset NodeId), ∀ vote ∈ w.votes,
        vote.voter = v → read.certificate.renewal.authority.term < vote.term → t < vote.instant
  := by
  have hserved : (threeVoters.run (World.initial 0 fun _ => 0) readThenVote).map
      (fun w => (w.served, w.votes))
      = some ([⟨⟨1, 1⟩, ⟨firstRound, 2073⟩, 1510⟩], [⟨2, 2, 2400⟩]) := by
    decide +kernel
  obtain ⟨w, hrun, heq⟩ := map_eq_some_iff.mp hserved
  obtain ⟨hreads, hvotes⟩ := Prod.mk.inj heq
  have hread : (⟨⟨1, 1⟩, ⟨firstRound, 2073⟩, 1510⟩ : Served) ∈ w.served := by
    rw [hreads]
    apply List.mem_singleton_self
  obtain ⟨hvalid, hexclusion⟩ := no_election_while_read_valid threeVoters 0 _ hrun hread
  refine ⟨w, hrun, hvotes, _, hread, hvalid, ?_⟩
  intro t ht
  apply hexclusion t ht
  · decide
  · decide

end Kv9.Raft.Lease
