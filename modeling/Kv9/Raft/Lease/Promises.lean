import Kv9.Raft.Lease.World

/-!
# What the calls of a lease keep

A history tells which rounds were begun and which promises were made, and when.  The lease of a
peer agrees with a history when its voter is bound by the promises of the history, and its leader
relies only on rounds and promises that are in it.  A call of the lease may add to the history
what it does itself; after the call the lease agrees with what it has become.
-/

namespace Kv9.Raft.Lease

open Stateful

/-- A round, and when it was begun. -/
structure Started where
  renewal : Renewal
  instant : ℚ

/-- A promise of a voter for a round, and when it was made. -/
structure Promised where
  voter : NodeId
  incarnation : ℕ
  renewal : Renewal
  instant : ℚ

/-- The rounds and the promises so far. -/
structure History where
  starts : Set Started
  promises : Set Promised

namespace History

/-- A round was begun. -/
def Begun (H : History) (R : Renewal) : Prop := ∃ s ∈ H.starts, s.renewal = R

/-- A voter has made a promise for a round. -/
def Bound (H : History) (v : NodeId) (R : Renewal) : Prop :=
  ∃ p ∈ H.promises, p.voter = v ∧ p.renewal = R

/-- `H'` is `H` and what an installation adds at instant `t`, when its peer is in a term: rounds
that were not begun before, and promises for rounds of that term. -/
structure Extends (o : Owner) (t : ℚ) (term : ℕ) (H H' : History) : Prop where
  starts : H.starts ⊆ H'.starts
  promises : H.promises ⊆ H'.promises
  starts_new : ∀ s ∈ H'.starts, s ∉ H.starts →
    s.instant = t ∧ s.renewal.authority.leader = o.node
      ∧ s.renewal.authority.incarnation = o.incarnation ∧ ¬ H.Begun s.renewal
  promises_new : ∀ p ∈ H'.promises, p ∉ H.promises →
    p.instant = t ∧ p.voter = o.node ∧ p.incarnation = o.incarnation
      ∧ p.renewal.authority.term = term ∧ H'.Begun p.renewal

variable {o : Owner} {t : ℚ} {term : ℕ} {H H' H'' : History} {R : Renewal} {v : NodeId}

theorem Begun.mono (h : H.Begun R) (hsub : H.starts ⊆ H'.starts) :
  H'.Begun R
  := by
  obtain ⟨s, hs, rfl⟩ := h
  use s, hsub hs

theorem Bound.mono (h : H.Bound v R) (hsub : H.promises ⊆ H'.promises) :
  H'.Bound v R
  := by
  obtain ⟨p, hp, hv, hR⟩ := h
  use p, hsub hp

theorem Extends.refl (o : Owner) (t : ℚ) (term : ℕ) (H : History) :
  Extends o t term H H
  where
  starts := subset_rfl
  promises := subset_rfl
  starts_new := fun _ hs hn => absurd hs hn
  promises_new := fun _ hp hn => absurd hp hn

theorem Extends.trans (h : Extends o t term H H') (h' : Extends o t term H' H'') :
  Extends o t term H H''
  where
  starts := h.starts.trans h'.starts
  promises := h.promises.trans h'.promises
  starts_new := by
    intro s hs hn
    by_cases hmem : s ∈ H'.starts
    · apply h.starts_new s hmem hn
    · obtain ⟨ht, hleader, hincarnation, hfresh⟩ := h'.starts_new s hs hmem
      use ht, hleader, hincarnation
      intro hbegun
      apply hfresh (hbegun.mono h.starts)
  promises_new := by
    intro p hp hn
    by_cases hmem : p ∈ H'.promises
    · obtain ⟨ht, hvoter, hincarnation, hterm, hbegun⟩ := h.promises_new p hmem hn
      use ht, hvoter, hincarnation, hterm
      apply hbegun.mono h'.starts
    · apply h'.promises_new p hp hmem

/-- The history with one more round. -/
def addStart (H : History) (s : Started) : History := { H with starts := insert s H.starts }

/-- The history with one more promise. -/
def addPromise (H : History) (p : Promised) : History :=
  { H with promises := insert p H.promises }

theorem Extends.addStart {s : Started} (ht : s.instant = t)
    (hleader : s.renewal.authority.leader = o.node)
    (hincarnation : s.renewal.authority.incarnation = o.incarnation)
    (hfresh : ¬ H.Begun s.renewal) :
  Extends o t term H (H.addStart s)
  where
  starts := Set.subset_insert s H.starts
  promises := subset_rfl
  starts_new := by
    intro s' hs' hn
    obtain rfl := (Set.mem_insert_iff.mp hs').resolve_right hn
    use ht, hleader, hincarnation
  promises_new := fun _ hp hn => absurd hp hn

theorem Extends.addPromise {p : Promised} (ht : p.instant = t) (hvoter : p.voter = o.node)
    (hincarnation : p.incarnation = o.incarnation) (hterm : p.renewal.authority.term = term)
    (hbegun : H.Begun p.renewal) :
  Extends o t term H (H.addPromise p)
  where
  starts := subset_rfl
  promises := Set.subset_insert p H.promises
  starts_new := fun _ hs hn => absurd hs hn
  promises_new := by
    intro p' hp' hn
    obtain rfl := (Set.mem_insert_iff.mp hp').resolve_right hn
    use ht, hvoter, hincarnation, hterm
    apply hbegun.mono subset_rfl

end History

open History

/-! ## Agreement with a history -/

/-- The value of the clock of an installation. -/
def Deployment.valueOf (d : Deployment) (o : Owner) (t : ℚ) : ℚ := d.value o.node o.incarnation t

/-- A certificate of an installation: its round was begun, and its end was counted from there. -/
def CertificateAgrees (d : Deployment) (H : History) (o : Owner) (c : Certificate) : Prop :=
  ∃ s ∈ H.starts, s.renewal = c.renewal ∧ c.renewal.authority.leader = o.node
    ∧ c.renewal.authority.incarnation = o.incarnation
    ∧ (c.stop : ℚ) ≤ d.valueOf o s.instant + d.bounds.errorNs + d.timing.leaderNs

/-- A quorum of the voters is bound to a round. -/
def QuorumBound (d : Deployment) (H : History) (R : Renewal) : Prop :=
  ∃ S ⊆ d.configuration.voters, d.configuration.quorum ≤ S.card ∧ ∀ v ∈ S, H.Bound v R

/-- A voter holds its promises of this incarnation, and waits for those of earlier ones. -/
structure VoterAgrees (d : Deployment) (H : History) (o : Owner) (v : VoterLease) : Prop where
  node : v.node = o.node
  timing : v.timing = d.timing
  held : ∀ p ∈ H.promises, p.voter = o.node → p.incarnation = o.incarnation →
    d.valueOf o p.instant - d.bounds.errorNs + d.timing.promiseNs ≤ v.holdUntil
  waits : ∃ r, d.valueOf o r - d.bounds.errorNs + d.timing.recoveryNs ≤ v.recoveryUntil
    ∧ ∀ p ∈ H.promises, p.voter = o.node → p.incarnation ≠ o.incarnation → p.instant ≤ r
  last : ∀ h ∈ v.lastGrant, H.Bound o.node h.renewal

/-- A leader relies on rounds it has begun and promises that were made. -/
structure LeaderAgrees (d : Deployment) (H : History) (o : Owner) (l : LeaderLease) : Prop where
  leader : l.authority.leader = o.node
  incarnation : l.authority.incarnation = o.incarnation
  configuration : l.configuration = d.configuration
  timing : l.timing = d.timing
  pending : ∀ p ∈ l.pending, CertificateAgrees d H o p.certificate
    ∧ ∀ v ∈ p.acknowledgements, v ∈ d.configuration.voters ∧ H.Bound v p.certificate.renewal
  active : ∀ c ∈ l.active, CertificateAgrees d H o c ∧ QuorumBound d H c.renewal
  sequence : ∀ s ∈ H.starts, s.renewal.authority = l.authority → s.renewal.sequence ≤ l.sequence

/-- The lease of a peer agrees with a history. -/
structure Agrees (d : Deployment) (H : History) (o : Owner) (l : InstalledLease) : Prop where
  policy : l.epoch.policy = d.policyOf o.node
  incarnation : l.epoch.incarnation = o.incarnation
  configuration : l.configuration = d.configuration
  timing : l.timing = d.timing
  owner : l.owner = o
  voter : VoterAgrees d H o l.voter
  leader : ∀ x ∈ l.leader, LeaderAgrees d H o x ∧ x.authority.term ≤ l.leaderTerm
  terms : ∀ s ∈ H.starts, s.renewal.authority.leader = o.node →
    s.renewal.authority.incarnation = o.incarnation → s.renewal.authority.term ≤ l.leaderTerm
  grant : ∀ g ∈ l.grant, H.Begun g.renewal

section Monotone

variable {d : Deployment} {H H' : History} {o : Owner}

theorem CertificateAgrees.mono {c : Certificate} (h : CertificateAgrees d H o c)
    (hsub : H.starts ⊆ H'.starts) :
  CertificateAgrees d H' o c
  := by
  obtain ⟨s, hs, hrest⟩ := h
  use s, hsub hs

variable {R : Renewal} {v : VoterLease} {l : LeaderLease} {now : ClockReading}

theorem QuorumBound.mono (h : QuorumBound d H R) (hsub : H.promises ⊆ H'.promises) :
  QuorumBound d H' R
  := by
  obtain ⟨S, hS, hquorum, hbound⟩ := h
  use S, hS, hquorum
  intro v hv
  apply (hbound v hv).mono hsub

/-- A voter agrees with more promises of others. -/
theorem VoterAgrees.mono (h : VoterAgrees d H o v) (hsub : H.promises ⊆ H'.promises)
    (hnew : ∀ p ∈ H'.promises, p.voter = o.node → p ∈ H.promises) :
  VoterAgrees d H' o v
  where
  node := h.node
  timing := h.timing
  held := by
    intro p hp hvoter
    apply h.held p (hnew p hp hvoter) hvoter
  waits := by
    obtain ⟨r, hr, hbefore⟩ := h.waits
    use r, hr
    intro p hp hvoter
    apply hbefore p (hnew p hp hvoter) hvoter
  last := by
    intro g hg
    apply (h.last g hg).mono hsub

/-- A leader agrees with more promises, and more rounds of others. -/
theorem LeaderAgrees.mono (h : LeaderAgrees d H o l)
    (hstarts : H.starts ⊆ H'.starts) (hpromises : H.promises ⊆ H'.promises)
    (hnew : ∀ s ∈ H'.starts, s.renewal.authority.leader = o.node → s ∈ H.starts) :
  LeaderAgrees d H' o l
  where
  leader := h.leader
  incarnation := h.incarnation
  configuration := h.configuration
  timing := h.timing
  pending := by
    intro p hp
    obtain ⟨hcertificate, hacks⟩ := h.pending p hp
    use hcertificate.mono hstarts
    intro v hv
    obtain ⟨hmem, hbound⟩ := hacks v hv
    use hmem
    apply hbound.mono hpromises
  active := by
    intro c hc
    obtain ⟨hcertificate, hquorum⟩ := h.active c hc
    use hcertificate.mono hstarts
    apply hquorum.mono hpromises
  sequence := by
    intro s hs hauthority
    apply h.sequence s (hnew s hs _) hauthority
    rw [hauthority, h.leader]

/-- A lease agrees with more rounds and promises of others. -/
theorem Agrees.mono {l : InstalledLease} (h : Agrees d H o l) (hstarts : H.starts ⊆ H'.starts)
    (hpromises : H.promises ⊆ H'.promises)
    (hnew : ∀ s ∈ H'.starts, s.renewal.authority.leader = o.node → s ∈ H.starts)
    (hnew' : ∀ p ∈ H'.promises, p.voter = o.node → p ∈ H.promises) :
  Agrees d H' o l
  where
  policy := h.policy
  incarnation := h.incarnation
  configuration := h.configuration
  timing := h.timing
  owner := h.owner
  voter := h.voter.mono hpromises hnew'
  leader := by
    intro x hx
    obtain ⟨hleader, hterm⟩ := h.leader x hx
    use hleader.mono hstarts hpromises hnew
  terms := by
    intro s hs hleader
    apply h.terms s (hnew s hs hleader) hleader
  grant := by
    intro g hg
    apply (h.grant g hg).mono hstarts

end Monotone

/-! ## The calls of the leader -/

namespace LeaderLease

/-- `l'` is the same leader, and relies on nothing that `l` does not rely on. -/
structure Weaker (l l' : LeaderLease) : Prop where
  configuration : l'.configuration = l.configuration
  authority : l'.authority = l.authority
  timing : l'.timing = l.timing
  sequence : l'.sequence = l.sequence
  pending : ∀ p ∈ l'.pending, p ∈ l.pending
  active : ∀ c ∈ l'.active, c ∈ l.active

theorem Weaker.refl (l : LeaderLease) :
  Weaker l l
  := by
  constructor <;> simp

theorem Weaker.trans {l' l'' : LeaderLease} (h : Weaker l l') (h' : Weaker l' l'') :
  Weaker l l''
  where
  configuration := h'.configuration.trans h.configuration
  authority := h'.authority.trans h.authority
  timing := h'.timing.trans h.timing
  sequence := h'.sequence.trans h.sequence
  pending := fun p hp => h.pending p (h'.pending p hp)
  active := fun c hc => h.active c (h'.active c hc)

theorem weaker_fence (l : LeaderLease) :
  Weaker l l.fence
  := by
  constructor <;> simp [fence]

theorem weaker_revoke (l : LeaderLease) :
  Weaker l l.revoke
  := by
  unfold revoke
  dsimp only
  split_ifs
  · apply Weaker.refl
  · constructor <;> simp [fence]
  · constructor <;> simp

theorem observe_wp (l : LeaderLease) (now : ClockReading) :
  wp (observe now) (ends (fun time l' => Weaker l l' ∧ time = now.nanos) (Weaker l)) l
  := by
  unfold observe
  simp only [wp_bind, wp_get, wp_ite, wp_throw, ends_error]
  constructor
  · intro _
    apply Weaker.refl
  · intro _
    split
    · rename_i time clock hrun
      simp only [wp_bind, wp_set, wp_pure, ends_ok]
      constructor
      · constructor <;> simp
      · apply ClockFence.eq_nanos_of_observe hrun
    · simp only [wp_bind, wp_set, wp_throw, ends_error]
      constructor <;> simp [fence]

theorem progress_wp (l : LeaderLease) (p : Progress) :
  wp (progress p) (ends (fun _ => Weaker l) (Weaker l)) l
  := by
  unfold progress
  simp only [wp_bind, wp_get, wp_ite, wp_set, wp_throw, wp_pure, ends_ok, ends_error]
  have hknown : Weaker l { l with known := p.committed } := by
    constructor <;> simp
  use fun _ => weaker_fence l
  intro _
  use fun _ => weaker_fence l
  intro _
  use fun _ => hknown
  intro _
  apply hknown

theorem live_wp (l : LeaderLease) :
  wp live (ends (fun _ l' => l' = l) (fun l' => l' = l)) l
  := by
  unfold live
  simp only [wp_bind, wp_get]
  split <;> simp

theorem enter_wp {α : Type} {p : Progress} {f : ℕ → Stateful Refused LeaderLease α}
    {Q : Except Refused α → LeaderLease → Prop} (hok : ∀ l', Weaker l l' → wp (f now.nanos) Q l')
    (herror : ∀ e l', Weaker l l' → Q (.error e) l') :
  wp (do let time ← observe now; progress p; live; f time) Q l
  := by
  apply wp_bind_of (observe_wp l now)
  · rintro _ l₁ ⟨h₁, rfl⟩
    apply wp_bind_of (progress_wp l₁ p)
    · intro _ l₂ h₂
      apply wp_bind_of (live_wp l₂)
      · rintro _ _ rfl
        apply hok _ (h₁.trans h₂)
      · rintro e _ rfl
        apply herror e _ (h₁.trans h₂)
    · intro e l₂ h₂
      apply herror e l₂ (h₁.trans h₂)
  · intro e l₁ h₁
    apply herror e l₁ h₁

section Agreement

variable {d : Deployment} {H : History} {o : Owner} {l l' : LeaderLease} {t : ℚ}

theorem Weaker.agrees (hw : Weaker l l') (h : LeaderAgrees d H o l) :
  LeaderAgrees d H o l'
  where
  leader := by rw [hw.authority, h.leader]
  incarnation := by rw [hw.authority, h.incarnation]
  configuration := by rw [hw.configuration, h.configuration]
  timing := by rw [hw.timing, h.timing]
  pending := fun p hp => h.pending p (hw.pending p hp)
  active := fun c hc => h.active c (hw.active c hc)
  sequence := by
    rw [hw.authority, hw.sequence]
    apply h.sequence

/-- A new leader relies on nothing. -/
theorem agrees_new {configuration : FixedConfiguration} {authority : Authority} {timing : Timing} (hnew : LeaderLease.new configuration authority timing now = .ok l)
    (hconfiguration : configuration = d.configuration) (htiming : timing = d.timing)
    (hleader : authority.leader = o.node) (hincarnation : authority.incarnation = o.incarnation)
    (hfresh : ∀ s ∈ H.starts, s.renewal.authority ≠ authority) :
  l.authority = authority ∧ LeaderAgrees d H o l
  := by
  unfold LeaderLease.new at hnew
  split_ifs at hnew
  simp only [Except.bind_eq_ok, Except.pure_eq_ok] at hnew
  obtain ⟨clock, -, hl⟩ := hnew
  obtain rfl := Except.ok.inj hl
  use rfl
  constructor <;> simp_all

/-- The round a leader begins was not begun before. -/
theorem not_begun_of_lt_sequence (h : LeaderAgrees d H o l)
    (hauthority : R.authority = l.authority) (hsequence : l.sequence < R.sequence) :
  ¬ H.Begun R
  := by
  rintro ⟨s, hs, rfl⟩
  apply absurd (h.sequence s hs hauthority)
  apply not_le.mpr hsequence

theorem start_wp (h : LeaderAgrees d H o l) (p : Progress)
    (hnow : |d.valueOf o t - now.nanos| ≤ d.bounds.errorNs) :
  wp (start now p) (ends
    (fun R l' => l'.authority = l.authority ∧ R.authority = l.authority ∧ ¬ H.Begun R
      ∧ LeaderAgrees d (H.addStart ⟨R, t⟩) o l')
    (fun l' => l'.authority = l.authority ∧ LeaderAgrees d H o l')) l
  := by
  apply enter_wp
  · intro l₁ hw
    have h₁ := hw.agrees h
    simp only [wp_bind, wp_get]
    split
    · simp only [wp_bind, wp_set, wp_throw, ends_error]
      use hw.authority
      apply (weaker_fence l₁).agrees h₁
    · rename_i stop hstop
      split
      · simp only [wp_bind, wp_set, wp_throw, ends_error]
        use hw.authority
        apply (weaker_fence l₁).agrees h₁
      · rename_i sequence hsequence
        obtain rfl := eq_of_checkedAdd hstop
        obtain rfl := eq_of_checkedAdd hsequence
        use hw.authority, hw.authority
        use not_begun_of_lt_sequence h₁ rfl (Nat.lt_succ_self _)
        refine ⟨h₁.leader, h₁.incarnation, h₁.configuration, h₁.timing, ?_, ?_, ?_⟩
        · rintro _ ⟨⟩
          refine ⟨⟨_, Set.mem_insert _ _, rfl, h₁.leader, h₁.incarnation, ?_⟩, by simp⟩
          rw [h₁.timing]
          push_cast
          linarith [abs_le.mp hnow]
        · intro c hc
          obtain ⟨hcertificate, hquorum⟩ := h₁.active c hc
          use hcertificate.mono (Set.subset_insert _ _)
          apply hquorum.mono subset_rfl
        · rintro s (rfl | hs) hauthority
          · rfl
          · apply Nat.le_succ_of_le (h₁.sequence s hs hauthority)
  · intro e l₁ hw
    use hw.authority
    apply hw.agrees h

/-- A promise that was made is collected. -/
theorem acknowledge_wp (h : LeaderAgrees d H o l) (now : ClockReading) {grant : Grant}
    (hbound : H.Bound grant.voter grant.renewal) :
  wp (acknowledge now grant) (fun _ l' => l'.authority = l.authority ∧ LeaderAgrees d H o l') l
  := by
  apply wp_bind_of (observe_wp l now)
  · rintro _ l₁ ⟨hw, rfl⟩
    have h₁ := hw.agrees h
    apply wp_bind_of (live_wp l₁)
    · rintro _ _ rfl
      simp only [wp_bind, wp_get, wp_ite, wp_throw]
      use fun _ => ⟨hw.authority, h₁⟩
      intro hvoter
      split
      · use hw.authority
        apply h₁
      · rename_i pending hpending
        simp only [wp_bind, wp_ite, wp_throw, wp_set, wp_pure]
        use fun _ => ⟨hw.authority, h₁⟩
        intro hrenewal
        use fun _ => ⟨hw.authority, h₁⟩
        intro _
        use hw.authority
        obtain ⟨hcertificate, hacks⟩ := h₁.pending pending hpending
        refine { h₁ with pending := ?_ }
        rintro _ ⟨⟩
        use hcertificate
        intro v hv
        obtain rfl | hv := Finset.mem_insert.mp hv
        · rw [← h₁.configuration, not_not.mp hrenewal]
          use not_not.mp hvoter
        · apply hacks v hv
    · rintro e _ rfl
      use hw.authority
  · intro e l₁ hw
    use hw.authority
    apply hw.agrees h

/-- The round that is being collected, as it stands. -/
theorem currentRound_wp (l : LeaderLease) (now : ClockReading) (p : Progress) (renewal : Renewal) :
  wp (currentRound now p renewal) (ends
    (fun pending l' => Weaker l l' ∧ pending ∈ l'.pending ∧ pending.certificate.renewal = renewal)
    (Weaker l)) l
  := by
  apply enter_wp
  · intro l₁ hw
    simp only [wp_bind, wp_get]
    split
    · apply hw
    · rename_i pending hpending
      simp only [wp_bind, wp_ite, wp_throw, wp_pure, ends_ok, ends_error]
      use fun _ => hw
      intro hrenewal
      use fun _ => hw
      intro _
      use hw, hpending, not_not.mp hrenewal
  · intro e l₁ hw
    apply hw

theorem validateRenewal_wp (l : LeaderLease) (now : ClockReading) (p : Progress)
    (renewal : Renewal) :
  wp (validateRenewal now p renewal) (ends
    (fun _ l' => Weaker l l' ∧ ∃ pending ∈ l.pending, pending.certificate.renewal = renewal)
    (Weaker l)) l
  := by
  apply wp_bind_of (currentRound_wp l now p renewal)
  · rintro pending l' ⟨hw, hpending, hrenewal⟩
    use hw, pending, hw.pending pending hpending
  · intro e l' hw
    apply hw

/-- A round that a quorum has promised is relied on. -/
theorem publish_wp (h : LeaderAgrees d H o l) (now : ClockReading) (p : Progress)
    (renewal : Renewal) :
  wp (publish now p renewal) (fun _ l' => l'.authority = l.authority ∧ LeaderAgrees d H o l') l
  := by
  apply wp_bind_of (currentRound_wp l now p renewal)
  · rintro pending l₁ ⟨hw, hpending, -⟩
    have h₁ := hw.agrees h
    simp only [wp_bind, wp_get, wp_ite, wp_throw, wp_set]
    use fun _ => ⟨hw.authority, h₁⟩
    intro hquorum
    use hw.authority
    obtain ⟨hcertificate, hacks⟩ := h₁.pending pending hpending
    refine { h₁ with pending := by simp, active := ?_ }
    rintro _ ⟨⟩
    use hcertificate, pending.acknowledgements
    rw [h₁.configuration, not_lt] at hquorum
    use fun v hv => (hacks v hv).1, hquorum
    intro v hv
    apply (hacks v hv).2
  · intro e l₁ hw
    use hw.authority
    apply hw.agrees h

theorem beginRead_wp (l : LeaderLease) (now : ClockReading) (p : Progress) (deadline : ℕ) :
  wp (beginRead now p deadline) (ends
    (fun ticket l' => Weaker l l' ∧ ticket.certificate ∈ l.active) (Weaker l)) l
  := by
  apply enter_wp
  · intro l₁ hw
    simp only [wp_bind, wp_get, wp_ite, wp_throw, ends_error]
    use fun _ => hw
    intro _
    split
    · apply hw
    · rename_i certificate hactive
      simp only [wp_bind, wp_ite, wp_throw, wp_pure, ends_ok, ends_error]
      use fun _ => hw
      intro _
      use hw
      apply hw.active _ hactive
  · intro e l₁ hw
    apply hw

/-- A read that finishes does so before the end of its certificate. -/
theorem finishRead_wp (l : LeaderLease) (now : ClockReading) (p : Progress) (ticket : ReadTicket)
    (viewIndex : ℕ) :
  wp (finishRead now p ticket viewIndex) (ends
    (fun _ l' => Weaker l l' ∧ now.nanos < ticket.certificate.stop) (Weaker l)) l
  := by
  apply enter_wp
  · intro l₁ hw
    simp only [wp_bind, wp_get, wp_ite, wp_throw, wp_pure, ends_ok, ends_error]
    use fun _ => hw
    intro _
    use fun _ => hw
    intro _
    use fun _ => hw
    intro hstop
    use fun _ => hw
    intro _
    use fun _ => hw
    intro _
    use hw
    apply not_le.mp hstop
  · intro e l₁ hw
    apply hw

end Agreement

end LeaderLease

/-! ## The calls of the voter -/

namespace VoterLease

/-- `v'` is the same voter with the same promises. -/
structure Same (v v' : VoterLease) : Prop where
  node : v'.node = v.node
  timing : v'.timing = v.timing
  holdUntil : v'.holdUntil = v.holdUntil
  recoveryUntil : v'.recoveryUntil = v.recoveryUntil
  lastGrant : v'.lastGrant = v.lastGrant

theorem Same.refl (v : VoterLease) :
  Same v v
  := by
  constructor <;> rfl

theorem Same.agrees {d : Deployment} {H : History} {o : Owner} {v' : VoterLease}
    (hs : Same v v') (h : VoterAgrees d H o v) :
  VoterAgrees d H o v'
  where
  node := hs.node.trans h.node
  timing := hs.timing.trans h.timing
  held := by
    rw [hs.holdUntil]
    apply h.held
  waits := by
    rw [hs.recoveryUntil]
    apply h.waits
  last := by
    rw [hs.lastGrant]
    apply h.last

theorem observe_wp (v : VoterLease) (now : ClockReading) (term : ℕ) :
  wp (observe now term)
    (ends (fun time v' => Same v v' ∧ time = now.nanos ∧ v'.term = term) (Same v)) v
  := by
  unfold observe
  simp only [wp_bind, wp_get, wp_ite, wp_throw, wp_set, ends_error]
  use fun _ => Same.refl v
  intro _
  use fun _ => by constructor <;> rfl
  intro _
  split
  · rename_i time clock hrun
    simp only [wp_bind, wp_set, wp_pure, ends_ok]
    use by constructor <;> rfl
    use ClockFence.eq_nanos_of_observe hrun
  · simp only [wp_bind, wp_set, wp_throw, ends_error]
    constructor <;> rfl

/-- A voter that may vote has waited, and is not held. -/
theorem mayVote_wp (v : VoterLease) (now : ClockReading) (term : ℕ) :
  wp (mayVote now term) (ends
    (fun _ v' => Same v v' ∧ v.recoveryUntil ≤ now.nanos ∧ v.holdUntil ≤ now.nanos) (Same v)) v
  := by
  apply wp_bind_of (observe_wp v now term)
  · rintro _ v' ⟨hs, rfl, -⟩
    simp only [wp_bind, wp_get, wp_ite, wp_throw, wp_pure, ends_ok, ends_error, not_lt,
      hs.recoveryUntil, hs.holdUntil]
    use fun _ => hs
    intro hrecovery
    use fun _ => hs
    intro hhold
    use hs, hrecovery
  · intro e v' hs
    apply hs

section Agreement

variable {d : Deployment} {H : History} {o : Owner} {v : VoterLease} {t : ℚ} {now : ClockReading}
variable {R : Renewal} {term : ℕ}

theorem newPromise_wp (h : VoterAgrees d H o v) (hbegun : H.Begun R)
    (hterm : R.authority.term = term) (hnow : |d.valueOf o t - now.nanos| ≤ d.bounds.errorNs) :
  wp (newPromise now.nanos R) (ends
    (fun g v' => g = ⟨R, o.node⟩ ∧ ∃ H', Extends o t term H H' ∧ H'.starts = H.starts
      ∧ VoterAgrees d H' o v' ∧ H'.Bound o.node R)
    (VoterAgrees d H o)) v
  := by
  unfold newPromise
  simp only [wp_bind, wp_get]
  split
  · simp only [wp_bind, wp_set, wp_throw, ends_error]
    apply Same.agrees _ h
    constructor <;> rfl
  · rename_i stop hstop
    simp only [wp_bind, wp_set, wp_pure, ends_ok]
    obtain rfl := eq_of_checkedAdd hstop
    have hbound : (H.addPromise ⟨o.node, o.incarnation, R, t⟩).Bound o.node R :=
      ⟨_, Set.mem_insert _ _, rfl, rfl⟩
    use by rw [h.node]
    use H.addPromise ⟨o.node, o.incarnation, R, t⟩
    use Extends.addPromise rfl rfl rfl hterm hbegun
    use rfl
    refine ⟨⟨h.node, h.timing, ?_, ?_, ?_⟩, hbound⟩
    · rintro p (rfl | hp) hvoter hincarnation
      · rw [h.timing]
        push_cast
        apply le_max_of_le_right
        linarith [abs_le.mp hnow]
      · push_cast
        apply le_max_of_le_left
        apply h.held p hp hvoter hincarnation
    · obtain ⟨r, hr, hbefore⟩ := h.waits
      use r, hr
      rintro p (rfl | hp) hvoter hincarnation
      · apply absurd rfl hincarnation
      · apply hbefore p hp hvoter hincarnation
    · rintro _ ⟨⟩
      apply hbound

/-- A promise binds the voter, whether it is new or made again. -/
theorem promise_wp (h : VoterAgrees d H o v) (raftLeader : NodeId) (hbegun : H.Begun R)
    (hnow : |d.valueOf o t - now.nanos| ≤ d.bounds.errorNs) :
  wp (promise now term raftLeader R) (ends
    (fun g v' => g = ⟨R, o.node⟩ ∧ ∃ H', Extends o t term H H' ∧ H'.starts = H.starts
      ∧ VoterAgrees d H' o v' ∧ H'.Bound o.node R)
    (VoterAgrees d H o)) v
  := by
  apply wp_bind_of (observe_wp v now term)
  · rintro _ v₁ ⟨hs, rfl, hv₁⟩
    have h₁ := hs.agrees h
    simp only [wp_bind, wp_get, wp_ite, wp_throw, ends_error]
    use fun _ => h₁
    intro _
    use fun _ => h₁
    intro hchecks
    have hterm : R.authority.term = term := by
      rw [← hv₁]
      tauto
    have hnew := newPromise_wp h₁ hbegun hterm hnow
    split
    · apply hnew
    · rename_i last hlast
      simp only [wp_bind, wp_ite, wp_throw, wp_pure, ends_error, ends_ok]
      use fun _ => by
        use fun _ => h₁
        intro _
        use fun _ => by
          use fun _ => h₁
          intro hsame
          use fun _ => h₁
          intro _
          use by rw [h₁.node]
          use H, Extends.refl o t term H, rfl, h₁
          rw [not_not.mp hsame]
          apply h₁.last last hlast
        intro _
        apply hnew
      intro _
      use fun _ => h₁
      intro _
      apply hnew
  · intro e v₁ hs
    apply hs.agrees h

end Agreement

end VoterLease

end Kv9.Raft.Lease
