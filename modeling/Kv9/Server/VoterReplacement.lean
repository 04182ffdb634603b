import Kv9.Lib.OrderedMap

/-!
# Automatic voter replacement

A leader that has not heard from a voter for long takes it for lost.  In a group of the size it
remembers, it promotes a learner; in a larger one it removes the lost voter.  It remembers the
size only in memory: the number of voters when none was lost.  A leader that begins has observed
nobody yet, so none is lost, and it takes the group as it finds it for one of the right size.
-/

namespace Kv9.Server.VoterReplacement

abbrev NodeId := ℕ

/-- `MIN_VOTERS` -/
def minVoters : ℕ := 3

/-- `PENDING_DEADLINE`, in seconds. -/
def pendingDeadline : ℕ := 30

structure Config where
  enabled : Bool
  lostAfter : ℕ
  cooldown : ℕ
  catchupLag : ℕ

structure Observation where
  lastActive : ℕ
  matched : ℕ
  deriving DecidableEq

/-- A single change of the configuration. -/
inductive Change where
  | promote (node : NodeId)
  | remove (node : NodeId)
  deriving DecidableEq

/-- The position of a proposed entry. -/
structure ProposedAt where
  term : ℕ
  index : ℕ

structure Pending where
  change : Change
  position : ProposedAt
  since : ℕ

/-- The replication progress of a peer. -/
structure PeerProgress where
  node : NodeId
  matched : ℕ
  recentActive : Bool

/-- The role of a node and the configuration it has applied. -/
structure NodeStatus where
  leads : Bool
  voters : Finset NodeId
  learners : Finset NodeId
  raftCommitted : ℕ

structure State where
  config : Config
  observed : OrderedMap NodeId Observation
  baselineVoters : ℕ
  pending : Option Pending
  lastPromotion : Option ℕ

def majority (voters : ℕ) : ℕ := voters / 2 + 1

namespace State

def new (config : Config) : State := ⟨config, ∅, minVoters, none, none⟩

def lost (s : State) (now : ℕ) : List NodeId :=
  (s.observed.toList.filter fun e => s.config.lostAfter ≤ now - e.2.lastActive).map (·.1)

/-- Observe the other voters, and forget who is not one. -/
def observe (s : State) (me : NodeId) (now : ℕ) (status : NodeStatus)
    (progress : List PeerProgress) : State :=
  let others := progress.filter fun p => p.node ∈ status.voters ∧ p.node ≠ me
  let observed := others.foldl (fun observed p =>
    let entry := observed[p.node]?.getD ⟨now, p.matched⟩
    let active := p.recentActive ∨ entry.matched < p.matched
    observed.insert p.node ⟨if active then now else entry.lastActive, p.matched⟩) s.observed
  { s with observed := observed.filter fun node _ => node ∈ others.map (·.node) }

/-- The caught-up learner that is promoted. -/
def candidate (s : State) (status : NodeStatus) (progress : List PeerProgress) :
    Option PeerProgress :=
  let caughtUp := progress.filter fun p => p.node ∉ status.voters ∧ p.node ∈ status.learners
    ∧ p.recentActive ∧ status.raftCommitted ≤ p.matched + s.config.catchupLag
  caughtUp.foldl (fun best p => if best.any (p.matched < ·.matched) then best else some p) none

/-- What the pass does when no earlier change is awaited. -/
def decide (s : State) (now : ℕ) (status : NodeStatus) (progress : List PeerProgress) :
    State × Option Change :=
  if s.config.enabled = false then (s, none)
  else
    let voters := status.voters.card
    match s.lost now with
    | [] => ({ s with baselineVoters := max voters minVoters }, none)
    | target :: others =>
      let live := voters - (target :: others).length
      if s.baselineVoters < voters then
        -- an earlier promotion left an extra voter
        if voters - 1 < minVoters ∨ live < majority (voters - 1) then (s, none)
        else (s, some (.remove target))
      else if s.lastPromotion.any fun last => now - last < s.config.cooldown then (s, none)
      else if live + 1 < majority (voters + 1) then (s, none)
      else (s, (s.candidate status progress).map fun p => .promote p.node)

/-- The driver has taken a proposal. -/
def proposed (s : State) (now : ℕ) (change : Change) (position : ProposedAt) : State :=
  { s with
    pending := some ⟨change, position, now⟩
    lastPromotion := match change with
      | .promote _ => some now
      | .remove _ => s.lastPromotion }

end State

/-- What the driver answers in a pass: whether an entry has been applied, and where it proposes
an entry. -/
structure Driver where
  waitConfApplied : ProposedAt → Bool
  propose : Change → Option ProposedAt

/-- One pass; answers also the change that was proposed. -/
def reconcileVoterReplacement (me : NodeId) (now : ℕ) (status : NodeStatus)
    (progress : List PeerProgress) (driver : Driver) (s : State) : State × Option Change :=
  if status.leads = false then ({ s with observed := ∅, pending := none }, none)
  else
    let s := s.observe me now status progress
    if s.pending.any fun p => !driver.waitConfApplied p.position && now - p.since < pendingDeadline
    then (s, none)
    else
      let r := { s with pending := none }.decide now status progress
      match r.2.bind fun change => (driver.propose change).map (change, ·) with
      | none => (r.1, none)
      | some (change, position) => (r.1.proposed now change position, some change)

/-! ## The group -/

/-- The configuration after a change. -/
def Change.apply (voters : Finset NodeId) : Change → Finset NodeId
  | .promote node => insert node voters
  | .remove node => voters.erase node

/-- The configuration of a group, the change that is in its log but not applied, and what the
nodes remember. -/
structure Group where
  voters : Finset NodeId
  change : Option Change
  states : NodeId → State

inductive Event where
  /-- A pass of a node.  What it proposes may be lost with its leadership. -/
  | pass (me : NodeId) (now : ℕ) (status : NodeStatus) (progress : List PeerProgress)
    (driver : Driver) (kept : Bool)
  /-- The change in the log is applied, or replaced by another leader's entries. -/
  | applied
  | replaced
  | restart (node : NodeId)

/-- One event.  A group takes one change at a time, from a node that has applied the last one. -/
def Group.step (config : Config) (g : Group) : Event → Group
  | .pass me now status progress driver kept =>
    let r := reconcileVoterReplacement me now status progress driver (g.states me)
    { g with
      change := if kept ∧ g.change = none ∧ status.voters = g.voters then r.2 else g.change
      states := Function.update g.states me r.1 }
  | .applied => { g with voters := (g.change.map (·.apply g.voters)).getD g.voters, change := none }
  | .replaced => { g with change := none }
  | .restart node => { g with states := Function.update g.states node (.new config) }

/-- Nodes that have just started. -/
def Group.initial (config : Config) (voters : Finset NodeId) : Group :=
  ⟨voters, none, fun _ => .new config⟩

variable {config : Config} {g : Group} {s : State} {me node : NodeId} {now n : ℕ}
variable {status : NodeStatus} {progress : List PeerProgress} {driver : Driver} {c : Change}

theorem nodup_lost (s : State) (now : ℕ) :
  (s.lost now).Nodup
  := by
  have hascending := (OrderedMap.ascending_toList s.observed).filter
    fun e => s.config.lostAfter ≤ now - e.2.lastActive
  apply List.Pairwise.map _ _ hascending
  intro e e' hlt
  apply hlt.ne

theorem lost_observe_subset :
  ((s.observe me now status progress).lost now).toFinset ⊆ status.voters
  := by
  intro node hnode
  simp only [State.lost, State.observe, List.mem_toFinset, List.mem_map, List.mem_filter,
    OrderedMap.mem_toList, decide_eq_true_eq] at hnode
  obtain ⟨e, ⟨he, -⟩, rfl⟩ := hnode
  obtain ⟨_, hkept⟩ := Std.ExtTreeMap.mem_filter.mp (Std.ExtTreeMap.mem_iff_isSome_getElem?.mpr
    (Option.isSome_of_eq_some he))
  simp only [Std.ExtTreeMap.getKey_eq, List.mem_map, List.mem_filter, decide_eq_true_eq] at hkept
  obtain ⟨p, ⟨-, hvoter, -⟩, hp⟩ := hkept
  rw [← hp]
  apply hvoter

/-- A change that leaves enough voters, and enough of them that are not lost. -/
structure Safe (voters : Finset NodeId) (lost : List NodeId) (c : Change) : Prop where
  min : minVoters ≤ (c.apply voters).card
  live : majority (c.apply voters).card ≤ (c.apply voters \ lost.toFinset).card

theorem candidate_not_voter {p : PeerProgress} (hp : s.candidate status progress = some p) :
  p.node ∉ status.voters
  := by
  let Outside (best : Option PeerProgress) : Prop := ∀ p ∈ best, p.node ∉ status.voters
  suffices Outside (s.candidate status progress) from this p hp
  apply List.foldlRecOn
  · nofun
  · intro best ih q hq
    split_ifs
    · apply ih
    · rintro _ ⟨⟩
      apply (of_decide_eq_true (List.mem_filter.mp hq).2).1

/-- What is proposed is safe, and a learner is promoted only in a group of the baseline's size. -/
theorem safe_of_decide (hmin : minVoters ≤ status.voters.card)
    (hlost : (s.lost now).toFinset ⊆ status.voters)
    (hc : (s.decide now status progress).2 = some c) :
  Safe status.voters (s.lost now) c
    ∧ ∀ node, c = .promote node → status.voters.card ≤ s.baselineVoters
  := by
  have hcard := List.toFinset_card_of_nodup (nodup_lost s now)
  have hlive := Finset.card_sdiff_of_subset hlost
  unfold State.decide at hc
  split at hc
  · nomatch hc
  split at hc
  · nomatch hc
  · rename_i target others heq
    rw [← heq] at hc
    dsimp only at hc
    have htarget : target ∈ (s.lost now).toFinset := by
      rw [heq]
      simp
    split_ifs at hc with hextra hbad _ hfew
    · cases hc
      push Not at hbad
      refine ⟨⟨?_, ?_⟩, nofun⟩
      all_goals rw [Change.apply, Finset.card_erase_of_mem (hlost htarget)]
      · apply hbad.1
      · rw [Finset.erase_sdiff_comm, Finset.erase_eq_of_notMem (by simp [htarget]), hlive, hcard]
        apply hbad.2
    · obtain ⟨p, hp, rfl⟩ := Option.map_eq_some_iff.mp hc
      have hnew := candidate_not_voter hp
      refine ⟨⟨?_, ?_⟩, fun _ _ => not_lt.mp hextra⟩
      all_goals rw [Change.apply, Finset.card_insert_of_notMem hnew]
      · omega
      · rw [Finset.insert_sdiff_of_notMem _ (fun h => hnew (hlost h)),
          Finset.card_insert_of_notMem (fun h => hnew (Finset.mem_sdiff.mp h).1), hlive, hcard]
        apply not_lt.mp hfew

theorem baseline_decide :
  (s.decide now status progress).1.baselineVoters
    = if s.config.enabled ∧ s.lost now = [] then max status.voters.card minVoters
      else s.baselineVoters
  := by
  unfold State.decide
  split
  · simp_all
  split
  · simp_all
  · rename_i hlost
    simp only [hlost, reduceCtorEq, and_false, if_false]
    split_ifs <;> rfl

/-- What a pass remembers and proposes comes from its decision. -/
theorem reconcile_spec (me : NodeId) (now : ℕ) (status : NodeStatus) (progress : List PeerProgress)
    (driver : Driver) (s : State) :
  let r := reconcileVoterReplacement me now status progress driver s
  (r.1.baselineVoters = s.baselineVoters ∧ r.2 = none)
    ∨ status.leads = true ∧ ∃ s' : State, s'.baselineVoters = s.baselineVoters
      ∧ s'.lost now = (s.observe me now status progress).lost now
      ∧ r.1.baselineVoters = (s'.decide now status progress).1.baselineVoters
      ∧ ∀ c ∈ r.2, (s'.decide now status progress).2 = some c
  := by
  unfold reconcileVoterReplacement
  split
  · exact .inl ⟨rfl, rfl⟩
  rename_i hleads
  dsimp only
  split
  · exact .inl ⟨rfl, rfl⟩
  refine .inr ⟨(Bool.not_eq_false _).mp hleads, { s.observe me now status progress with
    pending := none }, rfl, rfl, ?_⟩
  split
  · use rfl, nofun
  · rename_i change position hr
    obtain ⟨_, hchange, hposition⟩ := Option.bind_eq_some_iff.mp hr
    obtain ⟨_, -, ⟨⟩⟩ := Option.map_eq_some_iff.mp hposition
    use rfl
    rintro _ ⟨⟩
    apply hchange

/-- A leader that finds no voter lost finds at most `n` voters. -/
def Event.Calm (n : ℕ) (g : Group) : Event → Prop
  | .pass me now status progress _ _ => status.leads = true →
    ((g.states me).observe me now status progress).lost now = [] → status.voters.card ≤ n
  | _ => True

def Group.Calm (config : Config) (n : ℕ) : Group → List Event → Prop
  | _, [] => True
  | g, e :: es => e.Calm n g ∧ Calm config n (g.step config e) es

/-- At most one voter more than there are meant to be, and nobody takes it for one of them. -/
structure Bounded (n : ℕ) (g : Group) : Prop where
  min : minVoters ≤ g.voters.card
  card : g.voters.card ≤ n + 1
  change : ∀ c ∈ g.change, minVoters ≤ (c.apply g.voters).card ∧ (c.apply g.voters).card ≤ n + 1
  baseline : ∀ m, (g.states m).baselineVoters ≤ n

/-- What a pass over the configuration of the group proposes. -/
theorem Bounded.safe (h : Bounded n g) (hstatus : status.voters = g.voters)
    (hc : (reconcileVoterReplacement me now status progress driver (g.states me)).2 = some c) :
  Safe g.voters (((g.states me).observe me now status progress).lost now) c
    ∧ ∀ node, c = .promote node → g.voters.card ≤ n
  := by
  rcases reconcile_spec me now status progress driver (g.states me) with
    ⟨-, hnone⟩ | ⟨-, s', hbaseline, hlost, -, hdecide⟩
  · nomatch hnone.symm.trans hc
  · rw [← hstatus]
    obtain ⟨hsafe, hpromote⟩ := safe_of_decide (hstatus ▸ h.min)
      (hlost ▸ lost_observe_subset) (hdecide c hc)
    rw [hlost] at hsafe
    use hsafe
    intro node hnode
    apply (hpromote node hnode).trans
    rw [hbaseline]
    apply h.baseline

theorem baseline_update (h : ∀ m, (g.states m).baselineVoters ≤ n) (hs : s.baselineVoters ≤ n)
    (m : NodeId) :
  (Function.update g.states me s m).baselineVoters ≤ n
  := by
  by_cases hm : m = me
  · rw [hm, Function.update_self]
    apply hs
  · rw [Function.update_of_ne hm]
    apply h

theorem Bounded.step (hn : minVoters ≤ n) (h : Bounded n g) {e : Event} (hcalm : e.Calm n g) :
  Bounded n (g.step config e)
  := by
  cases e with
  | pass me now status progress driver kept =>
    refine ⟨h.min, h.card, ?_, ?_⟩
    · intro c hc
      simp only [Group.step] at hc
      split_ifs at hc with htaken
      · obtain ⟨hsafe, hpromote⟩ := h.safe htaken.2.2 hc
        use hsafe.min
        cases c with
        | promote node =>
          apply (Finset.card_insert_le ..).trans (Nat.succ_le_succ (hpromote node rfl))
        | remove node => apply Finset.card_erase_le.trans h.card
      · apply h.change c hc
    · apply baseline_update h.baseline
      rcases reconcile_spec me now status progress driver (g.states me) with
        ⟨hsame, -⟩ | ⟨hleads, s', hbaseline, hlost, hdecide, -⟩
      · rw [hsame]
        apply h.baseline
      · rw [hdecide, baseline_decide, hbaseline]
        split_ifs with hnone
        · apply max_le (hcalm hleads (hlost ▸ hnone.2)) hn
        · apply h.baseline
  | applied =>
    cases hchange : g.change with
    | none => simpa [Group.step, hchange] using ⟨h.min, h.card, nofun, h.baseline⟩
    | some c =>
      obtain ⟨hmin, hcard⟩ := h.change c hchange
      refine ⟨?_, ?_, nofun, h.baseline⟩
      all_goals simpa [Group.step, hchange]
  | replaced => exact ⟨h.min, h.card, nofun, h.baseline⟩
  | restart node =>
    refine { h with baseline := ?_ }
    apply baseline_update h.baseline hn

theorem Bounded.run (hn : minVoters ≤ n) {events : List Event} (h : Bounded n g)
    (hcalm : g.Calm config n events) :
  Bounded n (events.foldl (Group.step config) g)
  := by
  induction events generalizing g with
  | nil => exact h
  | cons e es ih => apply ih (h.step hn hcalm.1) hcalm.2

/-- Every change a pass proposes leaves three voters and a majority that is not lost.  As long as
no leader that finds nobody lost finds more than `n` voters, there are at most `n + 1`, and with
`n + 1` of them none is promoted. -/
theorem replacement_is_bounded (config : Config) {n : ℕ} (hn : 3 ≤ n) {voters : Finset NodeId}
    (hvoters : voters.card = n) {events : List Event}
    (hcalm : (Group.initial config voters).Calm config n events) :
  let g := events.foldl (Group.step config) (.initial config voters)
  3 ≤ g.voters.card ∧ g.voters.card ≤ n + 1
    ∧ ∀ me now status progress driver c, status.voters = g.voters →
      (reconcileVoterReplacement me now status progress driver (g.states me)).2 = some c →
      Safe g.voters (((g.states me).observe me now status progress).lost now) c
        ∧ ∀ node, c = .promote node → g.voters.card ≤ n
  := by
  have hinitial : Bounded n (.initial config voters) :=
    ⟨hn.trans hvoters.ge, hvoters.trans_le (Nat.le_succ n), nofun, fun _ => hn⟩
  have h := hinitial.run hn hcalm
  use h.min, h.card, fun me now status progress driver c hstatus hc => h.safe hstatus hc

/-- The defaults, with replacement enabled. -/
def sampleConfig : Config := ⟨true, 300, 600, 1024⟩

/-- A pass of a leader over the voters 1, 2, 3 and `extra`, of which 3 is silent if `silent`. -/
def samplePass (me now : ℕ) (extra : Finset NodeId) (silent : Bool) : Event :=
  .pass me now ⟨true, {1, 2, 3} ∪ extra, {4, 5} \ extra, 9⟩
    [⟨1, 9, true⟩, ⟨2, 9, true⟩, ⟨3, 9, !silent⟩, ⟨4, 9, true⟩, ⟨5, 8, true⟩]
    ⟨fun _ => true, fun _ => some ⟨1, 1⟩⟩ true

/-- A leader that stays removes the lost voter after the promotion. -/
theorem replacement_is_bounded_replaced :
  let g := [samplePass 1 0 ∅ false, samplePass 1 300 ∅ true, .applied, samplePass 1 301 {4} true,
    .applied].foldl (Group.step sampleConfig) (.initial sampleConfig {1, 2, 3})
  g.voters = {1, 2, 4} ∧ g.voters.card ≤ 4
  := by
  have hcalm : (Group.initial sampleConfig {1, 2, 3}).Calm sampleConfig 3 [samplePass 1 0 ∅ false,
      samplePass 1 300 ∅ true, .applied, samplePass 1 301 {4} true, .applied] := by
    refine ⟨fun _ _ => by decide, fun _ _ => by decide, trivial, ?_, trivial, trivial⟩
    intro _ hnone
    revert hnone
    decide +kernel
  exact ⟨by decide +kernel, (replacement_is_bounded sampleConfig le_rfl rfl hcalm).2.1⟩

/-- A leader that begins after the promotion takes four voters for the baseline; when the third
is lost for it, too, it promotes a second learner. -/
theorem new_leader_promotes_again :
  ([samplePass 1 0 ∅ false, samplePass 1 300 ∅ true, .applied, samplePass 2 400 {4} true,
    samplePass 2 700 {4} true, .applied].foldl (Group.step sampleConfig)
      (.initial sampleConfig {1, 2, 3})).voters = {1, 2, 3, 4, 5}
  := by
  decide +kernel

end Kv9.Server.VoterReplacement
