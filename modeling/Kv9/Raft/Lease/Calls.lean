import Kv9.Raft.Lease.Promises

/-!
# The calls of a peer's lease

Each call keeps the lease in agreement with the history, to which it may add what it does at the
instant of its one sample.  What it sends, stages or hands out agrees with the history, too.
-/

namespace Kv9.Raft.Lease

open Stateful History

/-- What a message says is so. -/
def MessageAgrees (H : History) (m : Message) : Prop :=
  match m.kind with
  | .request => H.Begun m.renewal
  | .grant => H.Bound m.sender m.renewal

/-- What a turn is to publish was asked for. -/
def BatchAgrees (H : History) (batch : LeaseBatch) : Prop :=
  ∀ g ∈ batch.grant, H.Begun g.renewal

/-- A read relies on a certificate of its installation that a quorum has promised. -/
def ReadAgrees (d : Deployment) (H : History) (read : LeaseRead) : Prop :=
  CertificateAgrees d H read.owner read.ticket.certificate
    ∧ QuorumBound d H read.ticket.certificate.renewal

/-- The lease after a call agrees with what the history has become. -/
def Keeps (d : Deployment) (o : Owner) (t : ℚ) (term : ℕ) (H : History)
    (l : InstalledLease) : Prop :=
  ∃ H', Extends o t term H H' ∧ Agrees d H' o l

namespace InstalledLease

/-- `l'` is the same installation, and relies on nothing that `l` does not rely on. -/
structure Weaker (l l' : InstalledLease) : Prop where
  epoch : l'.epoch = l.epoch
  configuration : l'.configuration = l.configuration
  timing : l'.timing = l.timing
  owner : l'.owner = l.owner
  leaderTerm : l'.leaderTerm = l.leaderTerm
  voter : l.voter.Same l'.voter
  leader : ∀ x' ∈ l'.leader, ∃ x ∈ l.leader, x.Weaker x'
  grant : ∀ g ∈ l'.grant, g ∈ l.grant

theorem weaker_fence (l : InstalledLease) :
  Weaker l l.fence
  where
  epoch := rfl
  configuration := rfl
  timing := rfl
  owner := rfl
  leaderTerm := rfl
  voter := by constructor <;> rfl
  leader := by
    intro x' hx'
    obtain ⟨x, hx, rfl⟩ := Option.map_eq_some_iff.mp hx'
    use x, hx
    apply x.weaker_fence
  grant := by simp [fence]

theorem weaker_revokeLeader (l : InstalledLease) :
  Weaker l l.revokeLeader
  where
  epoch := rfl
  configuration := rfl
  timing := rfl
  owner := rfl
  leaderTerm := rfl
  voter := by constructor <;> rfl
  leader := by
    intro x' hx'
    obtain ⟨x, hx, rfl⟩ := Option.map_eq_some_iff.mp hx'
    use x, hx
    apply x.weaker_revoke
  grant := fun _ hg => hg

/-- A lease whose voter, leader and grant are those of another relies on the same. -/
theorem weaker_of_eq {l l' : InstalledLease} (hepoch : l'.epoch = l.epoch)
    (hconfiguration : l'.configuration = l.configuration) (htiming : l'.timing = l.timing)
    (howner : l'.owner = l.owner) (hterm : l'.leaderTerm = l.leaderTerm)
    (hvoter : l'.voter = l.voter) (hleader : l'.leader = l.leader)
    (hgrant : ∀ g ∈ l'.grant, g ∈ l.grant) :
  Weaker l l'
  where
  epoch := hepoch
  configuration := hconfiguration
  timing := htiming
  owner := howner
  leaderTerm := hterm
  voter := by
    rw [hvoter]
    apply VoterLease.Same.refl
  leader := by
    intro x hx
    use x, hleader ▸ hx
    apply LeaderLease.Weaker.refl
  grant := hgrant

variable {d : Deployment} {H : History} {o : Owner} {l l' : InstalledLease} {t : ℚ} {term : ℕ}
variable {now : ClockReading} {sample : Except Refused ClockReading} {raw : RawNode} {R : Renewal}

theorem Weaker.agrees (hw : Weaker l l') (h : Agrees d H o l) :
  Agrees d H o l'
  where
  policy := by rw [hw.epoch, h.policy]
  incarnation := by rw [hw.epoch, h.incarnation]
  configuration := hw.configuration.trans h.configuration
  timing := hw.timing.trans h.timing
  owner := hw.owner.trans h.owner
  voter := hw.voter.agrees h.voter
  leader := by
    intro x' hx'
    obtain ⟨x, hx, hweaker⟩ := hw.leader x' hx'
    obtain ⟨hagrees, hterm⟩ := h.leader x hx
    use hweaker.agrees hagrees
    rw [hweaker.authority, hw.leaderTerm]
    apply hterm
  terms := by
    rw [hw.leaderTerm]
    apply h.terms
  grant := fun g hg => h.grant g (hw.grant g hg)

variable {α : Type} {x : LeaderLease} {m : Stateful Refused LeaderLease α} {n : NodeId}

theorem agrees_setLeader (h : Agrees d H o l) (hx : LeaderAgrees d H o x)
    (hterm : x.authority.term ≤ l.leaderTerm) :
  Agrees d H o { l with leader := some x }
  := by
  refine { h with leader := ?_ }
  rintro _ ⟨⟩
  use hx, hterm

/-! ## Parts of calls -/

theorem sampleClock_wp (l : InstalledLease) (sample : Except Refused ClockReading) :
  wp (sampleClock sample) (ends (fun now l' => Weaker l l' ∧ sample = .ok now) (Weaker l)) l
  := by
  have hrefl : Weaker l l := weaker_of_eq rfl rfl rfl rfl rfl rfl rfl fun _ hg => hg
  unfold sampleClock
  simp only [wp_bind, wp_get, wp_ite, wp_throw, ends_error]
  use fun _ => hrefl
  intro _
  split
  · simp only [wp_bind, wp_set, wp_throw, ends_error]
    apply weaker_fence
  · simp only [wp_bind, wp_ite, wp_set, wp_throw, wp_pure, ends_ok, ends_error]
    use fun _ => weaker_fence l
    intro _
    use fun _ => weaker_fence l
    intro _
    use weaker_of_eq rfl rfl rfl rfl rfl rfl rfl fun _ hg => hg

/-- A leader of a new term has begun no round yet. -/
theorem agrees_newLeader (h : Agrees d H o l) (hterm : l.leaderTerm < raw.term)
    (hnew : LeaderLease.new l.configuration ⟨l.epoch.policy.group, l.epoch.policy.configuration,
      l.epoch.policy.node, raw.term, l.epoch.incarnation⟩ l.timing now = .ok x)
    (next : ℕ) :
  Agrees d H o { l with
    leader := some x
    leaderTerm := raw.term
    nextRenewal := next
    request := none
    confirmed := none }
  := by
  obtain ⟨hauthority, hx⟩ := LeaderLease.agrees_new hnew h.configuration h.timing
    (by rw [h.policy]; rfl) h.incarnation (H := H) (by
      intro s hs heq
      have hle := h.terms s hs (by rw [heq, h.policy]; rfl) (by rw [heq, h.incarnation])
      rw [heq] at hle
      apply absurd hle (not_le.mpr hterm))
  refine { h with leader := ?_, terms := ?_ }
  · rintro _ ⟨⟩
    use hx
    rw [hauthority]
  · intro s hs hleader hincarnation
    apply le_trans (h.terms s hs hleader hincarnation) hterm.le

theorem synchronize_wp (h : Agrees d H o l) (raw : RawNode) (sample : Except Refused ClockReading) :
  wp (synchronize raw sample)
    (ends (fun now l' => Agrees d H o l' ∧ sample = .ok now) (Agrees d H o)) l
  := by
  unfold synchronize
  simp only [wp_bind, wp_get, wp_ite, wp_set, wp_throw, ends_error]
  use fun _ => (weaker_fence l).agrees h
  intro _
  apply wp_mono (sampleClock_wp l sample)
  rintro (e | now) l₁
  · intro hw
    apply hw.agrees h
  · rintro ⟨hw, hsample⟩
    have h₁ := hw.agrees h
    use fun _ => ⟨(weaker_revokeLeader l₁).agrees h₁, hsample⟩
    intro _
    constructor
    · intro hterm
      cases hnew : LeaderLease.new l₁.configuration ⟨l₁.epoch.policy.group,
          l₁.epoch.policy.configuration, l₁.epoch.policy.node, raw.term, l₁.epoch.incarnation⟩
          l₁.timing now with
      | error reason => apply h₁
      | ok x =>
        use agrees_newLeader h₁ hterm hnew now.nanos
    · intro _
      use fun _ => (weaker_fence l₁).agrees h₁
      intro _
      use h₁

theorem onLeader_wp {Q : Except Refused (Option α) → InstalledLease → Prop} (hnone : Q (.ok none) l)
    (hsome : ∀ x ∈ l.leader, wp m (fun r x' => Q (r.map some) { l with leader := some x' }) x) :
  wp (onLeader m) Q l
  := by
  unfold onLeader
  simp only [wp_bind, wp_get]
  split
  · apply hnone
  · rename_i x hx
    simp only [wp_bind, wp_zoom, wp_pure]
    apply wp_mono (hsome x hx)
    rintro (e | a) x' hQ
    · apply hQ
    · apply hQ

/-- A call after which the leader relies on nothing more. -/
theorem onLeader_weaker_wp {P : LeaderLease → α → Prop} (h : Agrees d H o l)
    (hm : ∀ x, wp m (ends (fun a x' => x.Weaker x' ∧ P x a) x.Weaker) x) :
  wp (onLeader m)
    (ends (fun r l' => Agrees d H o l' ∧ ∀ a ∈ r, ∃ x ∈ l.leader, P x a) (Agrees d H o)) l
  := by
  have hset : ∀ x ∈ l.leader, ∀ x', x.Weaker x' → Agrees d H o { l with leader := some x' } := by
    intro x hx x' hw
    obtain ⟨hagrees, hterm⟩ := h.leader x hx
    apply agrees_setLeader h (hw.agrees hagrees)
    rw [hw.authority]
    apply hterm
  apply onLeader_wp
  · use h
    simp
  · intro x hx
    apply wp_mono (hm x)
    rintro (e | a) x'
    · intro hw
      apply hset x hx x' hw
    · rintro ⟨hw, hP⟩
      use hset x hx x' hw
      rintro _ ⟨⟩
      use x, hx

/-- A call after which the leader relies on nothing that is not in the history. -/
theorem onLeader_agrees_wp (h : Agrees d H o l)
    (hm : ∀ x, LeaderAgrees d H o x →
      wp m (fun _ x' => x'.authority = x.authority ∧ LeaderAgrees d H o x') x) :
  wp (onLeader m) (fun _ l' => Agrees d H o l') l
  := by
  apply onLeader_wp h
  intro x hx
  obtain ⟨hagrees, hterm⟩ := h.leader x hx
  apply wp_mono (hm x hagrees)
  rintro r x' ⟨hauthority, hx'⟩
  apply agrees_setLeader h hx'
  rw [hauthority]
  apply hterm

theorem onLeader_start_wp (h : Agrees d H o l) (p : Progress)
    (hnow : |d.valueOf o t - now.nanos| ≤ d.bounds.errorNs) (term : ℕ) :
  wp (onLeader (LeaderLease.start now p))
    (ends (fun r l' => ∃ H', Extends o t term H H' ∧ Agrees d H' o l' ∧ ∀ R ∈ r, H'.Begun R)
      (Agrees d H o)) l
  := by
  apply onLeader_wp
  · use H, Extends.refl o t term H, h
    simp
  · intro x hx
    obtain ⟨hagrees, hterm⟩ := h.leader x hx
    apply wp_mono (LeaderLease.start_wp hagrees p hnow)
    rintro (e | R) x'
    · rintro ⟨hauthority, hx'⟩
      apply agrees_setLeader h hx'
      rw [hauthority]
      apply hterm
    · rintro ⟨hauthority, hR, hfresh, hx'⟩
      have hleader : R.authority.leader = o.node := by rw [hR, hagrees.leader]
      have hincarnation : R.authority.incarnation = o.incarnation := by
        rw [hR, hagrees.incarnation]
      use H.addStart ⟨R, t⟩, Extends.addStart rfl hleader hincarnation hfresh
      constructor
      · refine ⟨h.policy, h.incarnation, h.configuration, h.timing, h.owner,
          h.voter.mono subset_rfl fun _ hp _ => hp, ?_, ?_, ?_⟩
        · rintro _ ⟨⟩
          use hx'
          rw [hauthority]
          apply hterm
        · rintro s (rfl | hs) hnode hi
          · rw [hR]
            apply hterm
          · apply h.terms s hs hnode hi
        · intro g hg
          apply (h.grant g hg).mono (Set.subset_insert _ _)
      · rintro _ ⟨⟩
        use ⟨R, t⟩, Set.mem_insert _ _

theorem onVoter_promise_wp (h : Agrees d H o l) (raftLeader : NodeId) (hbegun : H.Begun R)
    (hnow : |d.valueOf o t - now.nanos| ≤ d.bounds.errorNs) :
  wp (onVoter (VoterLease.promise now term raftLeader R))
    (ends (fun g l' => g = ⟨R, o.node⟩ ∧ ∃ H', Extends o t term H H' ∧ Agrees d H' o l'
      ∧ H'.Bound o.node R) (Agrees d H o)) l
  := by
  unfold onVoter
  rw [wp_zoom]
  apply wp_mono (VoterLease.promise_wp h.voter raftLeader hbegun hnow)
  rintro (e | g) v'
  · intro hv'
    exact { h with voter := hv' }
  · rintro ⟨hg, H', hextends, hstarts, hv', hbound⟩
    use hg, H', hextends
    refine ⟨⟨h.policy, h.incarnation, h.configuration, h.timing, h.owner, hv', ?_, ?_, ?_⟩, hbound⟩
    · intro x hx
      obtain ⟨hagrees, hterm⟩ := h.leader x hx
      use hagrees.mono hextends.starts hextends.promises fun s hs _ => hstarts ▸ hs
    · rw [hstarts]
      apply h.terms
    · intro g hg
      apply (h.grant g hg).mono hextends.starts

/-- A promise that was made is collected. -/
theorem collect_wp (h : Agrees d H o l) (now : ClockReading) {grant : Grant}
    (hbound : H.Bound grant.voter grant.renewal) :
  wp (collect now grant) (fun _ l' => Agrees d H o l') l
  := by
  unfold collect
  simp only [wp_bind, wp_attempt]
  apply wp_mono (onLeader_agrees_wp h fun x hx => LeaderLease.acknowledge_wp hx now hbound)
  intro r l₁ h₁
  split
  · rw [wp_modify]
    apply Weaker.agrees _ h₁
    exact weaker_of_eq rfl rfl rfl rfl rfl rfl rfl fun _ hg => hg
  · apply h₁

/-! ## Calls -/

theorem abs_le_of_truthful (hs : d.Truthful o.node o.incarnation t sample)
    (hsample : sample = .ok now) :
  |d.valueOf o t - now.nanos| ≤ d.bounds.errorNs
  := by
  subst hsample
  apply hs

theorem Agrees.keeps (h : Agrees d H o l) (t : ℚ) (term : ℕ) :
  Keeps d o t term H l
  := by
  use H, Extends.refl o t term H

theorem prepare_wp (h : Agrees d H o l) (hs : d.Truthful o.node o.incarnation t sample)
    (raw : RawNode) :
  wp (prepare raw sample) (fun _ l' => Keeps d o t raw.term H l') l
  := by
  unfold prepare
  simp only [wp_bind, wp_attempt]
  apply wp_mono (synchronize_wp h raw sample)
  rintro (e | now) l₁
  · intro h₁
    apply Agrees.keeps h₁
  · rintro ⟨h₁, hsample⟩
    have hnow := abs_le_of_truthful hs hsample
    simp only [wp_bind, wp_get, wp_ite, wp_pure, wp_attempt]
    use fun _ => Agrees.keeps h₁ t raw.term
    intro _
    apply wp_mono (onLeader_start_wp h₁ (l₁.progress raw) hnow raw.term)
    rintro (e | R) l₂
    · intro h₂
      apply Agrees.keeps h₂
    · rintro ⟨H', hextends, h₂, hbegun⟩
      cases R with
      | none =>
        use H', hextends
        apply h₂
      | some R =>
        dsimp only
        split
        · rw [wp_modify]
          use H', hextends
          apply (weaker_fence l₂).agrees h₂
        · rename_i next _
          simp only [wp_bind, wp_modify, wp_attempt]
          have h₃ : Agrees d H' o { l₂ with
              nextRenewal := next, request := some R, confirmed := none } := by
            apply Weaker.agrees _ h₂
            exact weaker_of_eq rfl rfl rfl rfl rfl rfl rfl fun _ hg => hg
          apply wp_mono (onVoter_promise_wp h₃ raw.leaderId (hbegun R rfl) hnow)
          rintro (e | g) l₄
          · intro h₄
            use H', hextends
            apply h₄
          · rintro ⟨rfl, H'', hextends', h₄, hbound⟩
            apply wp_mono (collect_wp h₄ now hbound)
            intro _ l₅ h₅
            use H'', hextends.trans hextends'

/-- The term of a peer after a message. -/
def termAfter (raw : RawNode) (stepped : Option RawNode) : ℕ := (stepped.getD raw).term

section

variable (h : Agrees d H o l)
include h

theorem receive_wp (hs : d.Truthful o.node o.incarnation t sample)
    (raw : RawNode) (stepped : Option RawNode) {m : Message} (hm : MessageAgrees H m) :
  wp (receive raw stepped sample m) (fun _ l' => Keeps d o t (termAfter raw stepped) H l') l
  := by
  have hkeeps := Agrees.keeps h t (termAfter raw stepped)
  unfold receive
  simp only [wp_bind, wp_get]
  split
  · apply hkeeps
  · rename_i kind R hdecode
    obtain ⟨hkind, rfl⟩ := eq_of_decode hdecode
    simp only [wp_ite, wp_pure]
    use fun _ => hkeeps
    intro _
    cases kind with
    | request =>
      simp only [MessageAgrees, hkind] at hm
      cases stepped with
      | none => apply hkeeps
      | some raw' =>
        simp only [wp_bind, wp_attempt]
        apply wp_mono (synchronize_wp h raw' sample)
        rintro (e | now) l₁
        · intro h₁
          apply Agrees.keeps h₁
        · rintro ⟨h₁, hsample⟩
          simp only [wp_ite, wp_pure, wp_bind, wp_attempt]
          use fun _ => Agrees.keeps h₁ t raw'.term
          intro _
          apply wp_mono (onVoter_promise_wp h₁ raw'.leaderId hm (abs_le_of_truthful hs hsample))
          rintro (e | g) l₂
          · intro h₂
            apply Agrees.keeps h₂
          · rintro ⟨rfl, H', hextends, h₂, hbound⟩
            use H', hextends
            refine { h₂ with grant := ?_ }
            rintro _ ⟨⟩
            apply hm.mono hextends.starts
    | grant =>
      simp only [MessageAgrees, hkind] at hm
      simp only [wp_bind, wp_attempt]
      apply wp_mono (synchronize_wp h raw sample)
      rintro (e | now) l₁
      · intro h₁
        apply Agrees.keeps h₁
      · rintro ⟨h₁, -⟩
        simp only [wp_ite, wp_pure]
        use fun _ => Agrees.keeps h₁ t (termAfter raw stepped)
        intro _
        apply wp_mono (collect_wp h₁ now hm)
        intro _ l₂ h₂
        apply Agrees.keeps h₂

theorem capture_wp :
  wp capture (ends (fun r l' => Agrees d H o l' ∧ ∀ batch ∈ r, BatchAgrees H batch)
    (fun _ => False)) l
  := by
  unfold capture
  simp only [wp_bind, wp_get, wp_ite, wp_pure, ends_ok]
  use fun _ => ⟨h, by simp⟩
  intro _
  split
  · simp only [wp_bind, wp_set, wp_pure, ends_ok]
    use (weaker_fence l).agrees h
    simp
  · simp only [wp_bind, wp_set, wp_pure, ends_ok]
    constructor
    · apply Weaker.agrees _ h
      exact weaker_of_eq rfl rfl rfl rfl rfl rfl rfl (by simp)
    · rintro _ ⟨⟩
      apply h.grant

theorem completeGrant_wp (raw : RawNode) {grant : Option Grant}
    (hnow : |d.valueOf o t - now.nanos| ≤ d.bounds.errorNs)
    (hgrant : ∀ g ∈ grant, H.Begun g.renewal) :
  wp (completeGrant raw now grant) (ends
    (fun ms l' => ∃ H', Extends o t raw.term H H' ∧ Agrees d H' o l'
      ∧ ∀ m ∈ ms, MessageAgrees H' m) (fun _ => False)) l
  := by
  cases grant with
  | none =>
    use H, Extends.refl o t raw.term H, h
    simp
  | some g =>
    simp only [completeGrant, wp_bind, wp_get, wp_attempt]
    apply wp_mono (onVoter_promise_wp h raw.leaderId (hgrant g rfl) hnow)
    rintro (e | g') l₁
    · intro h₁
      use H, Extends.refl o t raw.term H, h₁
      simp
    · rintro ⟨rfl, H', hextends, h₁, hbound⟩
      use H', hextends, h₁
      intro m hm
      obtain rfl := List.mem_singleton.mp hm
      simp only [MessageAgrees, encode, h.policy, Deployment.policyOf]
      apply hbound

theorem completeRequest_wp (now : ClockReading) (p : Progress) (request : Option Renewal) :
  wp (completeRequest now p request)
    (ends (fun ms l' => Agrees d H o l' ∧ ∀ m ∈ ms, MessageAgrees H m) (fun _ => False)) l
  := by
  cases request with
  | none =>
    use h
    simp
  | some R =>
    simp only [completeRequest, wp_bind, wp_get, wp_attempt]
    apply wp_mono (onLeader_weaker_wp h fun x => LeaderLease.validateRenewal_wp x now p R)
    rintro (e | r) l₁
    · intro h₁
      use h₁
      simp
    · rintro ⟨h₁, hr⟩
      cases r with
      | none =>
        use h₁
        simp
      | some u =>
        use h₁
        intro m hm
        obtain ⟨n, -, rfl⟩ := List.mem_map.mp hm
        obtain ⟨x, hx, pending, hpending, rfl⟩ := hr u rfl
        obtain ⟨s, hs, hrenewal, -⟩ := (((h.leader x hx).1).pending pending hpending).1
        use s, hs, hrenewal

theorem completePublish_wp (now : ClockReading) (p : Progress) (confirmed : Option Renewal) :
  wp (completePublish now p confirmed) (ends (fun _ => Agrees d H o) (fun _ => False)) l
  := by
  cases confirmed with
  | none => apply h
  | some R =>
    simp only [completePublish, wp_bind, wp_attempt]
    apply wp_mono (onLeader_agrees_wp h fun x hx => LeaderLease.publish_wp hx now p R)
    intro _ l₁ h₁
    apply h₁

theorem complete_wp (hs : d.Truthful o.node o.incarnation t sample)
    (raw : RawNode) {batch : LeaseBatch} (hbatch : BatchAgrees H batch) :
  wp (complete raw sample batch) (ends
    (fun ms l' => ∃ H', Extends o t raw.term H H' ∧ Agrees d H' o l'
      ∧ ∀ m ∈ ms, MessageAgrees H' m) (Agrees d H o)) l
  := by
  unfold complete
  simp only [wp_bind, wp_get, wp_ite, wp_throw, wp_attempt, ends_error]
  use fun _ => h
  intro _
  apply wp_mono (synchronize_wp h raw sample)
  rintro (e | now) l₁
  · intro h₁
    use H, Extends.refl o t raw.term H, h₁
    simp
  · rintro ⟨h₁, hsample⟩
    simp only [wp_bind, wp_get]
    apply wp_mono (completeGrant_wp h₁ raw (abs_le_of_truthful hs hsample) hbatch)
    rintro (e | grants) l₂
    · simp
    · rintro ⟨H', hextends, h₂, hgrants⟩
      simp only [wp_ite, wp_bind, wp_pure, ends_ok]
      constructor
      · intro _
        apply wp_mono (completeRequest_wp h₂ now (l₁.progress raw) batch.request)
        rintro (e | requests) l₃
        · simp
        · rintro ⟨h₃, hrequests⟩
          apply wp_mono (completePublish_wp h₃ now (l₁.progress raw) batch.confirmed)
          rintro (e | u) l₄
          · simp
          · intro h₄
            use H', hextends, h₄
            intro m hm
            obtain hm | hm := List.mem_append.mp hm
            · apply hgrants m hm
            · apply hrequests m hm
      · intro _
        use H', hextends, h₂

theorem beginRead_wp (raw : RawNode) (sample : Except Refused ClockReading) (remainingNs : ℕ) :
  wp (beginRead raw sample remainingNs)
    (ends (fun r l' => Agrees d H o l' ∧ ∀ read ∈ r, ReadAgrees d H read) (fun _ => False)) l
  := by
  unfold beginRead
  simp only [wp_bind, wp_attempt]
  apply wp_mono (synchronize_wp h raw sample)
  rintro (e | now) l₁
  · intro h₁
    use h₁
    simp
  · rintro ⟨h₁, -⟩
    simp only [wp_ite, wp_pure, ends_ok]
    use fun _ => ⟨h₁, by simp⟩
    intro _
    split
    · use h₁
      simp
    · rename_i deadline _
      simp only [wp_bind, wp_get, wp_attempt]
      apply wp_mono (onLeader_weaker_wp h₁ fun x =>
        LeaderLease.beginRead_wp x now (l₁.progress raw) deadline)
      rintro (e | r) l₂
      · intro h₂
        use h₂
        simp
      · rintro ⟨h₂, hr⟩
        cases r with
        | none =>
          use h₂
          simp
        | some ticket =>
          use h₂
          rintro _ ⟨⟩
          obtain ⟨x, hx, hactive⟩ := hr ticket rfl
          simp only [ReadAgrees, h₁.owner]
          apply (h₁.leader x hx).1.active _ hactive

theorem finishRead_wp (raw : RawNode) (sample : Except Refused ClockReading)
    (read : LeaseRead) (viewIndex : ℕ) :
  wp (finishRead raw sample read viewIndex)
    (ends (fun r l' => Agrees d H o l' ∧ (r = true → read.owner = o ∧ ∃ now, sample = .ok now
      ∧ now.nanos < read.ticket.certificate.stop)) (fun _ => False)) l
  := by
  unfold finishRead
  simp only [wp_bind, wp_get, wp_ite, wp_pure, wp_attempt, ends_ok]
  use fun _ => ⟨h, by simp⟩
  intro howner
  rw [h.owner, not_not] at howner
  apply wp_mono (synchronize_wp h raw sample)
  rintro (e | now) l₁
  · intro h₁
    use h₁
    simp
  · rintro ⟨h₁, hsample⟩
    simp only [wp_ite, wp_pure, wp_bind, wp_get, wp_attempt, ends_ok]
    use fun _ => ⟨h₁, by simp⟩
    intro _
    apply wp_mono (onLeader_weaker_wp h₁ fun x =>
      LeaderLease.finishRead_wp x now (l₁.progress raw) read.ticket viewIndex)
    rintro (e | r) l₂
    · intro h₂
      use h₂
      simp
    · rintro ⟨h₂, hr⟩
      cases r with
      | none =>
        use h₂
        simp
      | some decision =>
        use h₂
        intro _
        obtain ⟨x, hx, hstop⟩ := hr decision rfl
        use howner, now, hsample

theorem mayVote_wp (raw : RawNode) (sample : Except Refused ClockReading) :
  wp (mayVote raw sample) (ends
    (fun _ l' => Agrees d H o l' ∧ ∃ now, sample = .ok now ∧ l.voter.recoveryUntil ≤ now.nanos
      ∧ l.voter.holdUntil ≤ now.nanos) (Agrees d H o)) l
  := by
  unfold mayVote
  simp only [wp_bind, wp_get, wp_ite, wp_set, wp_throw, ends_error]
  use fun _ => (weaker_fence l).agrees h
  intro _
  apply wp_mono (sampleClock_wp l sample)
  rintro (e | now) l₁
  · intro hw
    apply hw.agrees h
  · rintro ⟨hw, hsample⟩
    have h₁ := hw.agrees h
    simp only [wp_mapError, onVoter, wp_zoom]
    apply wp_mono (VoterLease.mayVote_wp l₁.voter now raw.term)
    have hset : ∀ v', l₁.voter.Same v' → Agrees d H o { l₁ with voter := v' } := by
      intro v' hv'
      exact { h₁ with voter := hv'.agrees h₁.voter }
    rintro (e | u) v'
    · intro hv'
      apply hset v' hv'
    · rintro ⟨hv', hrecovery, hhold⟩
      use hset v' hv', now, hsample
      rw [← hw.voter.recoveryUntil, ← hw.voter.holdUntil]
      use hrecovery

end

/-- The voter of a lease that is installed waits for all promises of earlier incarnations. -/
theorem agrees_recover {i durableTerm group : ℕ} {v : VoterLease}
    (hrecover : VoterLease.recover n group d.configuration d.timing now durableTerm = .ok v)
    (hnow : |d.value n i t - now.nanos| ≤ d.bounds.errorNs)
    (hpromises : ∀ p ∈ H.promises, p.voter = n → p.instant ≤ t ∧ p.incarnation ≠ i) :
  VoterAgrees d H ⟨n, i⟩ v
  := by
  unfold VoterLease.recover at hrecover
  split_ifs at hrecover
  split at hrecover
  · nomatch hrecover
  · rename_i recoveryUntil hadd
    obtain rfl := eq_of_checkedAdd hadd
    simp only [Except.bind_eq_ok] at hrecover
    obtain ⟨clock, -, hv⟩ := hrecover
    obtain rfl := Except.ok.inj hv
    constructor
    case node => rfl
    case timing => rfl
    case held =>
      intro p hp hvoter hincarnation
      apply absurd hincarnation (hpromises p hp hvoter).2
    case waits =>
      use t
      constructor
      · push_cast
        have := abs_le.mp hnow
        simp only [Deployment.valueOf]
        linarith
      · intro p hp hvoter _
        apply (hpromises p hp hvoter).1
    case last => nofun

/-- What holds after an installation: no recorded incarnation is lost, and a lease that is
installed is of the incarnation that is recorded last and agrees with the history. -/
structure Installed (d : Deployment) (H : History) (n : NodeId) (t : ℚ)
    (sample : Except Refused ClockReading) (epoch : Option LeaseEpoch)
    (r : Except Error InstalledLease) (epoch' : Option LeaseEpoch) : Prop where
  recorded : ∀ e ∈ epoch, ∃ e' ∈ epoch', e.incarnation ≤ e'.incarnation
  agrees : ∀ l, r = .ok l → ∃ e' ∈ epoch',
    (d.Truthful n e'.incarnation t sample → Agrees d H ⟨n, e'.incarnation⟩ l)

theorem install_wp {epoch : Option LeaseEpoch} (raw : RawNode)
    (sample : Except Refused ClockReading)
    (hstarts : ∀ s ∈ H.starts, s.renewal.authority.leader = n →
      ∃ e ∈ epoch, s.renewal.authority.incarnation ≤ e.incarnation)
    (hpromises : ∀ p ∈ H.promises, p.voter = n → p.instant ≤ t
      ∧ ∃ e ∈ epoch, p.incarnation ≤ e.incarnation) :
  wp (install n d.policy.group raw (d.policyOf n) (d.bounds.validatePolicy (d.policyOf n)) sample)
    (Installed d H n t sample epoch) epoch
  := by
  have hbefore : ∀ err, Installed d H n t sample epoch (.error err) epoch := by
    intro err
    constructor
    · intro e he
      use e, he
    · rintro l ⟨⟩
  apply wp_check hbefore
  intro _ _
  simp only [wp_ite, wp_throw_bind]
  use fun _ => hbefore _
  intro _
  apply wp_check hbefore
  intro configuration hconfiguration
  apply wp_check hbefore
  intro timing htiming
  simp only [wp_ite, wp_throw_bind]
  use fun _ => hbefore _
  intro _
  apply wp_check hbefore
  intro _ _
  apply wp_check hbefore
  intro next hnext
  obtain ⟨hpolicy, hlt⟩ := LeaseEpoch.of_successor hnext
  have hrecorded : ∀ e ∈ epoch, ∃ e' ∈ some next, e.incarnation ≤ e'.incarnation :=
    fun e he => ⟨next, rfl, (hlt e he).le⟩
  have hafter : ∀ err, Installed d H n t sample epoch (.error err) (some next) := by
    intro err
    use hrecorded
    rintro l ⟨⟩
  rw [wp_set_bind]
  simp only [wp_ite, wp_throw_bind]
  use fun _ => hafter _
  intro _
  apply wp_check hafter
  intro now hsample
  apply wp_check hafter
  intro voter hvoter
  use hrecorded
  rintro _ ⟨⟩
  use next, rfl
  intro htruthful
  obtain rfl := Except.mapError_eq_ok.mp hsample
  obtain rfl := Except.ok.inj (d.configuration_eq.symm.trans (Except.mapError_eq_ok.mp hconfiguration))
  obtain rfl := Except.ok.inj (d.timing_eq.symm.trans (Except.mapError_eq_ok.mp htiming))
  constructor
  case policy => apply hpolicy
  case incarnation => rfl
  case configuration => rfl
  case timing => rfl
  case owner => rfl
  case voter =>
    apply agrees_recover (Except.mapError_eq_ok.mp hvoter) htruthful
    intro p hp hp'
    obtain ⟨hle, e, he, hincarnation⟩ := hpromises p hp hp'
    use hle
    have := hlt e he
    omega
  case leader => rintro _ ⟨⟩
  case terms =>
    intro s hs hleader hincarnation
    obtain ⟨e, he, hle⟩ := hstarts s hs hleader
    have := hlt e he
    simp only at hincarnation
    omega
  case grant => rintro _ ⟨⟩

end InstalledLease

end Kv9.Raft.Lease
