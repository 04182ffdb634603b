import Kv9.Raft.Storage.Full

/-!
# Replaying keeps a store sound

Every record that a call writes can be replayed, and afterwards what is known is again the part of
the full log that was not dropped.
-/

namespace Kv9.Raft.Storage

open Except List ConfigurationHistory

variable {w : Wire} {g : Full} {v v' v'' : View} {r : Record} {rs : List Record}

/-! ## Agreement on the configurations -/

theorem Agrees.refl (v : View) :
  Agrees v v
  := ⟨rfl, rfl, rfl, rfl, .refl _⟩

theorem Agrees.trans (h : Agrees v v') (h' : Agrees v' v'') :
  Agrees v v''
  := ⟨h.1.trans h'.1, h.2.trans h'.2, h.3.trans h'.3, h.4.trans h'.4, h.5.trans h'.5⟩

/-- The origins after an applied configuration. -/
def Change.origins (w : Wire) (c : Change) (o : Origins) : Except Error Origins :=
  match c.origin with
  | some r => o.insert w r
  | none => .ok o.observeLegacy

/-- What is known after an applied configuration. -/
def View.change (w : Wire) (v : View) (c : Change) (origins : Origins) : View :=
  { v with
    origins := origins
    confHistory := v.confHistory.recordApplied c.index c.state
    membership := v.membership.appliedOrigin w c.index c.state c.origin
    mem := v.mem.setConfState c.state
    confIndex := c.index }

theorem Change.replayRecord {c : Change} (hc : c.Indexed) (v : View) :
  v.replayRecord w c.record = c.origins w v.origins >>= fun o => .ok (v.change w c o)
  := by
  obtain ⟨index, cs, origin⟩ := c
  cases origin with
  | none => rfl
  | some r =>
    obtain rfl : r.position.index = index := hc r rfl
    rfl

/-- Views that agree still do so after an applied configuration. -/
theorem Agrees.replayRecord_change {v₁ : View} (h : Agrees v v') {c : Change} (hc : c.Indexed)
    (hv : v.replayRecord w c.record = .ok v₁) :
  ∃ v₁', v'.replayRecord w c.record = .ok v₁' ∧ Agrees v₁ v₁'
  := by
  rw [Change.replayRecord hc, bind_eq_ok] at hv
  obtain ⟨origins, hinsert, hv⟩ := hv
  obtain rfl := ok.inj hv
  refine ⟨v'.change w c origins, ?_, rfl, ?_, rfl, rfl, h.membership.appliedOrigin _ _ _⟩
  · rw [Change.replayRecord hc, ← h.origins, hinsert, ok_bind]
  · exact congrArg (·.recordApplied c.index c.state) h.confHistory

theorem Agrees.replay_changes {v₁ : View} (h : Agrees v v') {changes : List Change}
    (hchanges : ∀ c ∈ changes, c.Indexed) (hv : v.replay w (changes.map Change.record) = .ok v₁) :
  ∃ v₁', v'.replay w (changes.map Change.record) = .ok v₁' ∧ Agrees v₁ v₁'
  := by
  induction changes generalizing v v' with
  | nil =>
    obtain rfl := ok.inj hv
    exact ⟨v', rfl, h⟩
  | cons c changes ih =>
    rw [map_cons, View.replay_cons, bind_eq_ok] at hv
    obtain ⟨v₂, hc, hv⟩ := hv
    obtain ⟨hindexed, hchanges⟩ := forall_mem_cons.mp hchanges
    obtain ⟨v₂', hc', hagrees⟩ := h.replayRecord_change hindexed hc
    obtain ⟨v₁', hv', hagrees'⟩ := ih hagrees hchanges hv
    refine ⟨v₁', ?_, hagrees'⟩
    rw [map_cons, View.replay_cons, hc', ok_bind, hv']

/-- A record that is about no configuration leaves the accounts as they are. -/
theorem Good.told_of_agrees (h : Good w g v) (hsnapshot : v'.snapshot = v.snapshot)
    (hagrees : Agrees v' v) (hnone : v'.snapshot = none) :
  ∃ c, (View.new w).replay w (.confState g.state :: g.changes.map Change.record) = .ok c
    ∧ Agrees v' c
  := by
  obtain ⟨c, hc, hvc⟩ := h.told (hsnapshot.symm.trans hnone)
  exact ⟨c, hc, hagrees.trans hvc⟩

/-! ## Entries and hard states -/

theorem Good.lastIndex (h : Good w g v) :
  v.mem.lastIndex = g.start + g.entries.length
  := by
  have hstart := h.start_le
  have hcovered := h.covered
  rw [h.wf.lastIndex, h.entries, length_drop]
  omega

/-- Entries that the library hands over continue the log. -/
theorem Ready.continues (h : Good w g v) {es : List Entry} {hs : Option HardState}
    (hready : Ready v es hs) :
  v.mem.Continues es
  := by
  constructor
  · apply hready.contiguous
  · intro e he
    apply h.cut_le.trans_lt
    apply hready.uncommitted e he
  · intro e he
    rw [← h.wf.lastIndex]
    apply hready.reached e he

theorem Good.entry (h : Good w g v) {e : Entry} (hready : Ready v [e] none) :
  ∃ v', v.replayRecord w (.entry e) = .ok v' ∧ Good w (g.record (.entry e)) v'
  := by
  have hcontinues := hready.continues h
  have habove := hcontinues.above e rfl
  have hlast := h.lastIndex
  have hreached := hready.reached e rfl
  have hstart := h.start_le
  have hlength : (g.entries.take (e.index - (g.start + 1))).length = e.index - (g.start + 1) := by
    rw [length_take]
    omega
  use { v with mem := { v.mem with entries := v.mem.overwrite [e] } }
  constructor
  · change (v.mem.append [e]).mapError _ >>= _ = _
    rw [h.wf.append hcontinues]
    rfl
  · change Good w { g with entries := g.entries.take (e.index - (g.start + 1)) ++ [e] } _
    refine { h with
      wf := h.wf.overwrite hcontinues
      full := ?_, covered := ?_, entries := ?_, quiet := ?_
      told := h.told_of_agrees rfl ⟨rfl, rfl, rfl, rfl, .refl _⟩ }
    · apply contiguous_append.mpr
      use h.full.take _
      constructor
      · dsimp only
        omega
      · trivial
    · change _ ≤ g.start + (g.entries.take _ ++ [e]).length
      rw [length_append]
      dsimp only
      omega
    · change v.mem.entries.take _ ++ [e] = (g.entries.take _ ++ [e]).drop _
      rw [h.entries, drop_append_of_le_length (by rw [hlength]; dsimp only; omega), drop_take]
      congr 2
      dsimp only
      omega
    · intro e' he' hconf hle
      rcases mem_append.mp he' with he' | he'
      · apply h.quiet e' (mem_of_mem_take he') hconf hle
      · obtain rfl := mem_singleton.mp he'
        exact absurd hle (by dsimp only; omega)

theorem Good.hardState (h : Good w g v) {hs : HardState} (hready : Ready v [] (some hs)) :
  ∃ v', v.replayRecord w (.hardState hs) = .ok v' ∧ Good w (g.record (.hardState hs)) v'
  := by
  refine ⟨_, rfl, { h with
    cut_le := h.cut_le.trans ?_
    told := h.told_of_agrees rfl ⟨rfl, rfl, rfl, rfl, .refl _⟩ }⟩
  apply hready.commit_le hs rfl

theorem Good.leaseEpoch (h : Good w g v) {next : Lease.LeaseEpoch} (hsnapshot : v.snapshot = none)
    (hnext : Lease.LeaseEpoch.successor v.leaseEpoch next.policy = .ok next) :
  ∃ v', v.replayRecord w (.leaseEpoch next) = .ok v' ∧ Good w (g.record (.leaseEpoch next)) v'
  := by
  use { v with leaseEpoch := some next }
  constructor
  · change failIf _ _ >>= _ = _
    rw [failIf_neg (by simp [hsnapshot]), ok_bind, hnext, ok_bind, failIf_neg (by simp)]
    rfl
  · exact { h with told := h.told_of_agrees rfl ⟨rfl, rfl, rfl, rfl, .refl _⟩ }

/-! ## Applied configurations -/

variable {cs : ConfState}

theorem ConfigurationHistory.insertNew_concat {index : ℕ} {applied : List (ℕ × ConfState)}
    (h : ∀ a ∈ applied, a.1 < index) :
  insertNew index cs applied = applied ++ [(index, cs)]
  := by
  induction applied with
  | nil => rfl
  | cons a applied ih =>
    obtain ⟨ha, happlied⟩ := forall_mem_cons.mp h
    rw [insertNew, if_neg (by omega), if_neg (by omega), ih happlied, cons_append]

/-- A later configuration is no contradiction. -/
theorem ConfigurationHistory.recordApplied_concat {initial : Option ConfState} {index : ℕ}
    {applied : List (ℕ × ConfState)} (hpos : 0 < index) (h : ∀ a ∈ applied, a.1 < index) :
  recordApplied ⟨initial, applied, false⟩ index cs = ⟨initial, applied ++ [(index, cs)], false⟩
  := by
  unfold recordApplied
  rw [insertNew_concat h]
  congr 1
  rw [Bool.false_or, beq_eq_false_iff_ne.mpr hpos.ne', Bool.false_or, Option.any_eq_false]
  intro a ha
  have := h a (mem_of_getLast? ha)
  simp only [Bool.or_eq_false_iff, decide_eq_false_iff_not, Bool.and_eq_false_iff,
    beq_eq_false_iff_ne]
  exact ⟨by omega, .inl (by omega)⟩

theorem Full.applied_concat (c : Change) :
  Full.applied { g with changes := g.changes ++ [c] } = g.applied ++ [(c.index, c.state)]
  := map_append

/-- A configuration that is applied after all others. -/
theorem Good.change (h : Good w g v) {c : Change} (hnew : v.confIndex < c.index)
    (hc : c.Indexed) {origins : Origins} (horigins : c.origins w v.origins = .ok origins)
    (hget : origins.get c.index = c.origin)
    (hkept : ∀ i < c.index, origins.get i = v.origins.get i) :
  Good w { g with changes := g.changes ++ [c] } (v.change w c origins)
  := by
  have hlt : ∀ c' ∈ g.changes, c'.index < c.index := fun c' hc' => (h.confIndex c' hc').trans_lt hnew
  refine { h with
    history := ?_, ascending := ?_, indexed := ?_, confIndex := ?_, confIndex_ge := ?_
    origin := ?_, base := ?_, quiet := ?_, hashed := rfl, told := ?_ }
  · change v.confHistory.recordApplied c.index c.state = _
    rw [h.history, Full.applied_concat]
    apply recordApplied_concat (by omega)
    intro a ha
    obtain ⟨c', hc', rfl⟩ := mem_map.mp ha
    apply hlt c' hc'
  · rw [map_append, ← cons_append, pairwise_append]
    use h.ascending, pairwise_singleton ..
    intro a ha b hb
    obtain rfl : b = c.index := mem_singleton.mp hb
    rcases mem_cons.mp ha with rfl | ha
    · apply h.confIndex_ge.trans_lt hnew
    · obtain ⟨c', hc', rfl⟩ := mem_map.mp ha
      apply hlt c' hc'
  · intro c' hc'
    rcases mem_append.mp hc' with hc' | hc'
    · apply h.indexed c' hc'
    · obtain rfl := mem_singleton.mp hc'
      apply hc
  · intro c' hc'
    rcases mem_append.mp hc' with hc' | hc'
    · apply (hlt c' hc').le
    · obtain rfl := mem_singleton.mp hc'
      apply le_rfl
  · apply (h.confIndex_ge.trans_lt hnew).le
  · intro c' hc'
    rcases mem_append.mp hc' with hc' | hc'
    · apply (hkept c'.index (hlt c' hc')).trans
      apply h.origin c' hc'
    · obtain rfl := mem_singleton.mp hc'
      apply hget
  · intro hpos
    obtain ⟨cs, hbase, hcs⟩ := h.base hpos
    refine ⟨cs, hbase, ?_⟩
    intro habove
    apply hcs
    intro c' hc'
    apply habove c' (mem_append_left _ hc')
  · intro e he hconf hle
    obtain ⟨c', hc', hbetween⟩ := h.quiet e he hconf hle
    exact ⟨c', mem_append_left _ hc', hbetween⟩
  · intro hsnapshot
    obtain ⟨known, hknown, hagrees⟩ := h.told hsnapshot
    have hv : v.replayRecord w c.record = .ok (v.change w c origins) := by
      rw [Change.replayRecord hc, horigins, ok_bind]
    obtain ⟨known', hknown', hagrees'⟩ := hagrees.replayRecord_change hc hv
    refine ⟨known', ?_, hagrees'⟩
    rw [map_append, ← cons_append, View.replay_append, hknown]
    exact View.replay_singleton.trans hknown'

theorem Good.confStateAt (h : Good w g v) {index : ℕ} (hnew : v.confIndex < index)
    (horigin : v.origins.get index = none) :
  ∃ v', v.replayRecord w (.confStateAt index cs) = .ok v'
    ∧ Good w (g.record (.confStateAt index cs)) v'
  := by
  refine ⟨_, rfl, ?_⟩
  apply h.change (c := ⟨index, cs, none⟩) hnew nofun rfl horigin
  intro i _
  rfl

/-- An origin that can be recorded is recorded. -/
theorem Origins.insert_eq {o : Origins} {r : AppliedConfigurationOrigin}
    (h : o.validateInsert r = .ok ()) :
  ∃ o', o.insert w r = .ok o' ∧ o'.get r.position.index = some r
    ∧ ∀ i < r.position.index, o'.get i = o.get i
  := by
  have hvalid := h
  unfold validateInsert at h
  rw [bind_eq_ok] at h
  obtain ⟨bytes, hbytes, h⟩ := h
  unfold insert
  rw [hvalid]
  cases hget : o.get r.position.index with
  | some old =>
    rw [hget] at h
    obtain rfl : old = r := by simpa using failIf_eq_ok.mp h
    use o, rfl, hget, fun _ _ => rfl
  | none =>
    rw [hbytes]
    refine ⟨_, rfl, ?_, ?_⟩
    · unfold get at hget ⊢
      rw [Option.map_eq_none_iff] at hget
      rw [List.find?_append, hget]
      simp
    · intro i hi
      unfold get
      have : ¬ r.position.index = i := by omega
      simp [this]

theorem Good.origin_record (h : Good w g v) {r : AppliedConfigurationOrigin}
    (hnew : v.confIndex < r.position.index) (hinsert : v.origins.validateInsert r = .ok ()) :
  ∃ v', v.replayRecord w (.origin r cs) = .ok v' ∧ Good w (g.record (.origin r cs)) v'
  := by
  obtain ⟨origins, horigins, hget, hkept⟩ := Origins.insert_eq (w := w) hinsert
  have hindexed : Change.Indexed ⟨r.position.index, cs, some r⟩ := by
    rintro _ ⟨⟩
    rfl
  refine ⟨v.change w ⟨r.position.index, cs, some r⟩ origins, ?_, ?_⟩
  · change v.origins.insert w r >>= _ = _
    rw [horigins]
    rfl
  · apply h.change hnew hindexed horigins hget hkept

/-! ## Snapshots and compaction -/

theorem Good.snapshot (h : Good w g v) {image : Snapshot} {hs : HardState}
    (hlease : v.leaseEpoch = none)
    (hvalid : validateTransition w v.mem v.snapshot image hs = .ok ()) :
  ∃ v', v.replayRecord w (.snapshot image hs) = .ok v' ∧ Good w (g.record (.snapshot image hs)) v'
  := by
  have htransition := transition_of_validateTransition hvalid
  have hpos := htransition.pos
  have hcommit := htransition.commit_lt
  have hcut := h.cut_le
  have happly := h.wf.applySnapshot image.confState (hcut.trans_lt hcommit)
  refine ⟨v.select w image hs (v.mem.restart image.cut image.confState), ?_, {
    wf := trivial
    cut_le := htransition.commit_eq.ge
    start := rfl
    start_le := le_rfl
    full := trivial
    covered := le_rfl
    entries := drop_nil.symm
    history := rfl
    ascending := pairwise_singleton ..
    indexed := nofun
    confIndex := nofun
    confIndex_ge := le_rfl
    origin := nofun
    no_base := fun hzero => absurd hzero hpos.ne'
    base := fun _ => ⟨_, rfl, fun _ => rfl⟩
    quiet := nofun
    hashed := rfl
    told := nofun }⟩
  change failIf _ _ >>= _ = _
  rw [failIf_neg (by simp [hlease]), hvalid, happly]
  rfl

variable {floor : Position}

/-- The configuration that is found for a cut, if nothing was applied since the group started. -/
theorem Good.found_state (h : Good w g v) {base : Position} {c : CommittedConfiguration}
    {baseState : ConfState} (hfound : View.Found v floor c base baseState)
    (habove : ∀ c ∈ g.changes, floor.index < c.index) :
  c.state = g.state
  := by
  have hnone : v.confHistory.lastIn base.index floor.index = none := by
    rw [lastIn_eq_none, h.history]
    intro a ha _
    obtain ⟨c', hc', rfl⟩ := mem_map.mp ha
    apply habove c' hc'
  rw [hfound.state, hnone]
  have hbase := hfound.base_eq
  rw [View.baseConfiguration_eq h.wf] at hbase
  split_ifs at hbase with hzero
  · rw [pure_eq_ok, ok.injEq, Option.map_eq_some_iff, h.history] at hbase
    obtain ⟨initial, hinitial, hbase⟩ := hbase
    rw [← (Prod.mk.inj hbase).2]
    split_ifs at hinitial
    exact (Option.some.inj hinitial).symm
  · rw [bind_eq_ok] at hbase
    obtain ⟨state, hstate, hbase⟩ := hbase
    rw [← (Prod.mk.inj (Option.some.inj (ok.inj hbase))).2]
    obtain ⟨cs, hcs, hgstate⟩ := h.base (Nat.pos_of_ne_zero hzero)
    rw [(View.of_configurationAtBase hstate).1] at hcs
    rw [(Prod.mk.inj (Option.some.inj hcs)).2]
    apply hgstate
    intro c' hc'
    apply hfound.base_le.trans_lt
    apply habove c' hc'

/-- Every change up to a cut for which a configuration is found was applied by then. -/
theorem Good.found_quiet (h : Good w g v) {base : Position} {c : CommittedConfiguration}
    {baseState : ConfState} (hfound : View.Found v floor c base baseState) {e : Entry}
    (he : e ∈ g.entries) (hconf : isConfiguration e.entryType) (hle : e.index ≤ floor.index) :
  ∃ c ∈ g.changes, e.index ≤ c.index ∧ c.index ≤ floor.index
  := by
  have hbase := hfound.base_index h.wf
  by_cases hcut : e.index ≤ v.mem.cut.index
  · obtain ⟨c', hc', hlow, hhigh⟩ := h.quiet e he hconf hcut
    use c', hc', hlow, hhigh.trans hfound.base_le
  · have hentry : v.mem.entry? e.index = some e := by
      rw [h.wf.entry?_eq_some, h.entries]
      refine ⟨?_, rfl⟩
      obtain ⟨hlow, -, hget⟩ := h.full.of_mem he
      have hstart := h.start_le
      apply mem_of_getElem? (i := e.index - (v.mem.cut.index + 1))
      rw [List.getElem?_drop, ← hget]
      congr 1
      omega
    have hquiet := hfound.quiet e.index
    cases hlast : v.confHistory.lastIn base.index floor.index with
    | none =>
      rw [hlast, Option.getD_none] at hquiet
      obtain ⟨e', he', hconf'⟩ := hquiet (by dsimp only; omega) hle
      obtain rfl := Option.some.inj (hentry.symm.trans he')
      rw [hconf'] at hconf
      nomatch hconf
    | some a =>
      obtain ⟨ha, hlow, hhigh⟩ := of_lastIn_eq_some hlast
      rw [h.history] at ha
      obtain ⟨c', hc', rfl⟩ := mem_map.mp ha
      refine ⟨c', hc', ?_, hhigh⟩
      by_contra hlt
      rw [hlast, Option.getD_some] at hquiet
      obtain ⟨e', he', hconf'⟩ := hquiet (by omega) hle
      obtain rfl := Option.some.inj (hentry.symm.trans he')
      rw [hconf'] at hconf
      nomatch hconf

theorem Good.compaction (h : Good w g v) {decision : RootDigest} {appliedAt : Option Position}
    (habove : v.mem.cut.index < floor.index)
    (hfound : v.configurationAtCommitted floor = .ok (.found ⟨floor, appliedAt, cs⟩)) :
  ∃ v', v.replayRecord w (.compaction floor decision cs) = .ok v'
    ∧ Good w (g.record (.compaction floor decision cs)) v'
  := by
  obtain ⟨base, baseState, hfound⟩ := View.found_of_configurationAtCommitted h.wf hfound
  have hlast : floor.index ≤ v.mem.lastIndex := by
    have hterm := hfound.term
    rw [h.wf.term_eq habove] at hterm
    cases hentry : v.mem.entry? floor.index with
    | none =>
      rw [hentry] at hterm
      nomatch hterm
    | some e => exact (h.wf.entry?_isSome.mp (Option.isSome_iff_exists.mpr ⟨e, hentry⟩)).2
  have hstart := h.start_le
  use { v with
    mem := { v.mem with
      cut := floor
      entries := v.mem.entries.drop (floor.index - v.mem.cut.index) }
    membership := v.membership.retainedBase w cs
    configurationBase := some (floor, cs) }
  constructor
  · change compactMemory v.mem floor cs >>= _ = _
    rw [compactMemory_eq h.wf habove hlast hfound.term, if_pos]
    · rfl
    · rw [h.wf.firstIndex]
      apply habove
  · refine { h with
      wf := ?_, cut_le := hfound.committed, start_le := ?_, covered := ?_, entries := ?_
      no_base := ?_, base := ?_, quiet := ?_, hashed := rfl
      told := h.told_of_agrees rfl ⟨rfl, rfl, rfl, rfl, MembershipHistory.sameRecords_retainedBase ..⟩ }
    · have := Contiguous.drop h.wf (floor.index - v.mem.cut.index)
      rw [show v.mem.cut.index + 1 + (floor.index - v.mem.cut.index) = floor.index + 1 by omega]
        at this
      apply this
    · change g.start ≤ floor.index
      omega
    · change floor.index ≤ g.start + g.entries.length
      rw [← h.lastIndex]
      apply hlast
    · change v.mem.entries.drop _ = g.entries.drop (floor.index - g.start)
      rw [h.entries, drop_drop]
      congr 1
      omega
    · intro hzero
      exact absurd hzero hfound.pos
    · intro _
      refine ⟨cs, rfl, ?_⟩
      apply h.found_state hfound
    · intro e he hconf hle
      apply h.found_quiet hfound he hconf hle

/-- Every record that a call writes can be replayed. -/
theorem Good.replayRecord (h : Good w g v) (hr : Admissible w v r) :
  ∃ v', v.replayRecord w r = .ok v' ∧ Good w (g.record r) v'
  := by
  cases hr with
  | entry hready => apply h.entry hready
  | hardState hready => apply h.hardState hready
  | confStateAt hnew horigin => apply h.confStateAt hnew horigin
  | origin hnew hinsert => apply h.origin_record hnew hinsert
  | leaseEpoch hsnapshot hnext => apply h.leaseEpoch hsnapshot hnext
  | snapshot hlease hvalid => apply h.snapshot hlease hvalid
  | compaction habove hfound => apply h.compaction habove hfound

/-- Records that can be written one after the other can be replayed, all or some of them. -/
theorem Good.replay (h : Good w g v) (hrs : Admits w v rs) (n : ℕ) :
  ∃ v', v.replay w (rs.take n) = .ok v' ∧ Good w (g.records (rs.take n)) v'
  := by
  induction rs generalizing g v n with
  | nil =>
    rw [take_nil]
    exact ⟨v, rfl, h⟩
  | cons r rs ih =>
    cases n with
    | zero => exact ⟨v, rfl, h⟩
    | succ n =>
      obtain ⟨v₁, hv₁, h₁⟩ := h.replayRecord hrs.1
      obtain ⟨v', hv', h'⟩ := ih h₁ (hrs.2 v₁ hv₁) n
      refine ⟨v', ?_, h'⟩
      rw [take_succ_cons, View.replay_cons, hv₁, ok_bind, hv']

end Kv9.Raft.Storage
