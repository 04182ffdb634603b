import Kv9.Raft.Storage.Runs

/-!
# The configuration in force

A configuration is found for a cut only if it is the one in force there according to the full log:
the last one applied at or below the cut, with no change after it.  Compaction below the cut and
rewriting keep the answer; but once the floor of a compaction reaches the position at which the
configuration was applied, the answer no longer names that position.
-/

namespace Kv9.Raft.Storage

open Except List View ConfigurationHistory

variable {w : Wire} {g : Full} {v v' : View} {s : Store} {cut floor base : Position}
variable {c : CommittedConfiguration} {baseState : ConfState} {low mid high : ℕ}

/-! ## Applied configurations in order -/

variable {applied : List (ℕ × ConfState)} {indices : List ℕ} {io : Written}

/-- In a list in order, what is in `(low, high]` comes in two parts. -/
theorem filter_between
    (h : (applied.map (·.1)).Pairwise (· < ·)) (hlow : low ≤ mid) (hhigh : mid ≤ high) :
  applied.filter (fun a => low < a.1 && a.1 ≤ high)
    = applied.filter (fun a => low < a.1 && a.1 ≤ mid)
      ++ applied.filter (fun a => mid < a.1 && a.1 ≤ high)
  := by
  induction applied with
  | nil => rfl
  | cons a applied ih =>
    rw [map_cons, pairwise_cons] at h
    have hrest := ih h.2
    by_cases ha : a.1 ≤ mid
    · simp only [filter_cons, hrest]
      by_cases hl : low < a.1
      · have : a.1 ≤ high := by omega
        simp [*]
      · have : ¬ mid < a.1 := by omega
        simp [*]
    · have hnone : applied.filter (fun a => low < a.1 && a.1 ≤ mid) = [] := by
        rw [filter_eq_nil_iff]
        intro a' ha'
        have := h.1 a'.1 (mem_map_of_mem ha')
        simp only [Bool.and_eq_true, decide_eq_true_eq, not_and]
        omega
      have hl : low < a.1 := by omega
      have hm : mid < a.1 := by omega
      simp only [filter_cons, hrest, hnone]
      simp [ha, hl, hm]

theorem le_getLast (h : (applied.map (·.1)).Pairwise (· < ·))
    {a last : ℕ × ConfState} (hlast : applied.getLast? = some last) (ha : a ∈ applied) :
  a.1 ≤ last.1
  := by
  obtain ⟨front, rfl⟩ := List.getLast?_eq_some_iff.mp hlast
  rw [map_append, pairwise_append] at h
  rcases mem_append.mp ha with ha | ha
  · apply le_of_lt
    apply h.2.2 _ (mem_map_of_mem ha)
    simp
  · obtain rfl := mem_singleton.mp ha
    apply le_rfl

theorem Good.applied_eq (h : Good w g v) :
  v.confHistory.applied = g.applied
  := by
  rw [h.history]

theorem Good.applied_pairwise (h : Good w g v) :
  (g.applied.map (·.1)).Pairwise (· < ·)
  := by
  have := (pairwise_cons.mp h.ascending).2
  rw [Full.applied, map_map]
  exact this

theorem Good.lastIn_or (h : Good w g v) (hlow : low ≤ mid) (hhigh : mid ≤ high) :
  v.confHistory.lastIn low high
    = (v.confHistory.lastIn mid high).or (v.confHistory.lastIn low mid)
  := by
  unfold ConfigurationHistory.lastIn
  rw [h.applied_eq, filter_between h.applied_pairwise hlow hhigh, List.getLast?_append]

/-- Nothing is applied at the start or before. -/
theorem Good.filter_le (h : Good w g v) (k : ℕ) :
  (v.confHistory.applied.filter fun a => a.1 ≤ k).getLast? = v.confHistory.lastIn 0 k
  := by
  congr 1
  apply filter_congr
  intro a ha
  rw [h.applied_eq] at ha
  obtain ⟨c', hc', rfl⟩ := mem_map.mp ha
  have := (pairwise_cons.mp h.ascending).1 c'.index (mem_map_of_mem hc')
  have hpos : 0 < c'.index := by omega
  simp [hpos]

/-! ## What is found is in force -/

/-- The history says nothing else than what is found. -/
theorem Good.found_historical (h : Good w g v) (hfound : View.Found v cut c base baseState) :
  ∀ expected ∈ ((v.confHistory.lastIn 0 cut.index).map (·.2)).or v.confHistory.initial,
    expected = c.state
  := by
  intro expected hexpected
  have hindex := hfound.base_index h.wf
  have hle := hfound.base_le
  rw [h.lastIn_or (Nat.zero_le base.index) (by omega)] at hexpected
  rw [hfound.state]
  cases hlast : v.confHistory.lastIn base.index cut.index with
  | some a =>
    rw [hlast] at hexpected
    exact (Option.some.inj hexpected).symm
  | none =>
    rw [hlast, Option.none_or] at hexpected
    have hbase := hfound.base_eq
    rw [baseConfiguration_eq h.wf] at hbase
    split_ifs at hbase with hzero
    · have hnone : v.confHistory.lastIn 0 base.index = none := by
        rw [lastIn_eq_none]
        omega
      rw [hnone, Option.map_none, Option.none_or] at hexpected
      rw [hexpected] at hbase
      exact (Prod.mk.inj (Option.some.inj (ok.inj hbase))).2
    · rw [bind_eq_ok] at hbase
      obtain ⟨state, hstate, hbase⟩ := hbase
      obtain ⟨-, rfl⟩ := Prod.mk.inj (Option.some.inj (ok.inj hbase))
      apply (of_configurationAtBase hstate).2
      rw [h.filter_le, ← hindex]
      exact hexpected

/-- A configuration that is found for a cut is the one in force there. -/
theorem Good.effective (h : Good w g v) (hfound : View.Found v cut c base baseState) :
  g.effective cut.index = some c.state
  := by
  have hstate : (g.lastApplied cut.index).2 = c.state := by
    rw [Full.lastApplied, ← h.applied_eq, h.filter_le]
    cases hlast : v.confHistory.lastIn 0 cut.index with
    | some a =>
      apply h.found_historical hfound
      rw [hlast]
      rfl
    | none =>
      apply (h.found_state hfound _).symm
      rw [lastIn_eq_none, h.applied_eq] at hlast
      intro c' hc'
      apply hlast _ (mem_map_of_mem hc')
      have := (pairwise_cons.mp h.ascending).1 c'.index (mem_map_of_mem hc')
      omega
  unfold Full.effective
  rw [if_neg, hstate]
  rw [any_eq_true]
  rintro ⟨e, he, hconf⟩
  simp only [Bool.and_eq_true, decide_eq_true_eq] at hconf
  obtain ⟨⟨hconf, hafter⟩, hle⟩ := hconf
  obtain ⟨c', hc', hlow, hhigh⟩ := h.found_quiet hfound he hconf hle
  have hmem : (c'.index, c'.state) ∈ g.applied.filter fun a => a.1 ≤ cut.index := by
    rw [mem_filter, decide_eq_true_eq]
    use mem_map_of_mem hc', hhigh
  rw [Full.lastApplied] at hafter
  cases hlast : (g.applied.filter fun a => a.1 ≤ cut.index).getLast? with
  | none =>
    rw [List.getLast?_eq_none_iff] at hlast
    rw [hlast] at hmem
    nomatch hmem
  | some a =>
    rw [hlast, Option.getD_some] at hafter
    have := le_getLast (h.applied_pairwise.sublist (filter_sublist.map Prod.fst)) hlast hmem
    omega

/-! ## Compaction keeps the answers -/

/-- A configuration without the position at which it was applied, if a floor has reached it. -/
def CommittedConfiguration.forget (floor : Position) (c : CommittedConfiguration) :
    CommittedConfiguration :=
  { c with appliedAt := c.appliedAt.filter fun at_ => floor.index < at_.index }

def ConfigurationLookup.forget (floor : Position) : ConfigurationLookup → ConfigurationLookup
  | .found c => .found (c.forget floor)
  | .unavailable reason => .unavailable reason

/-- What is known after a compaction. -/
def View.compacted (w : Wire) (v : View) (floor : Position) (conf : ConfState) : View :=
  { v with
    mem := { v.mem with
      cut := floor
      entries := v.mem.entries.drop (floor.index - v.mem.cut.index) }
    membership := v.membership.retainedBase w conf
    configurationBase := some (floor, conf) }

variable {answer : ConfigurationLookup}

section

variable {conf : ConfState} {i : ℕ}

@[simp]
theorem View.cut_compacted :
  (v.compacted w floor conf).mem.cut = floor
  := rfl

@[simp]
theorem View.confHistory_compacted :
  (v.compacted w floor conf).confHistory = v.confHistory
  := rfl

theorem View.wf_compacted (h : v.mem.Wf) (habove : v.mem.cut.index < floor.index) :
  (v.compacted w floor conf).mem.Wf
  := by
  have := Contiguous.drop h (floor.index - v.mem.cut.index)
  rw [show v.mem.cut.index + 1 + (floor.index - v.mem.cut.index) = floor.index + 1 by omega] at this
  exact this

/-- The entries above the floor are still there. -/
theorem View.entry?_compacted (habove : v.mem.cut.index < floor.index) (hi : floor.index < i) :
  (v.compacted w floor conf).mem.entry? i = v.mem.entry? i
  := by
  unfold MemStorage.entry?
  rw [cut_compacted, if_neg (not_le.mpr hi), if_neg (show ¬ i ≤ v.mem.cut.index by omega)]
  change (v.mem.entries.drop _)[i - (floor.index + 1)]? = _
  rw [List.getElem?_drop]
  congr 1
  omega

theorem View.term_compacted (h : v.mem.Wf) (habove : v.mem.cut.index < floor.index)
    (hterm : v.mem.term floor.index = .ok floor.term) (hi : floor.index ≤ i) :
  (v.compacted w floor conf).mem.term i = v.mem.term i
  := by
  rcases hi.eq_or_lt with rfl | hi
  · rw [hterm]
    exact MemStorage.term_cut (m := (v.compacted w floor conf).mem)
  · rw [h.term_eq (by omega), (wf_compacted h habove).term_eq hi, entry?_compacted habove hi]

theorem View.firstConfiguration_compacted (h : v.mem.Wf) (habove : v.mem.cut.index < floor.index) (hindices : ∀ i ∈ indices, floor.index < i) {answer : Option ℕ}
    (hanswer : v.firstConfiguration indices = .ok answer) :
  (v.compacted w floor conf).firstConfiguration indices = .ok answer
  := by
  induction indices with
  | nil => exact hanswer
  | cons i indices ih =>
    obtain ⟨hi, hindices⟩ := forall_mem_cons.mp hindices
    rw [firstConfiguration, bind_eq_ok] at hanswer ⊢
    obtain ⟨e, he, hanswer⟩ := hanswer
    rw [configurationEntry_eq_ok h] at he
    refine ⟨e, ?_, ?_⟩
    · rw [configurationEntry_eq_ok (wf_compacted h habove), entry?_compacted habove hi, he]
    · split_ifs at hanswer ⊢ with hconf
      · exact hanswer
      · apply ih hindices hanswer

theorem View.firstConfiguration_append {indices' : List ℕ}
    (h : v.firstConfiguration indices = .ok none) :
  v.firstConfiguration (indices ++ indices') = v.firstConfiguration indices'
  := by
  induction indices with
  | nil => rfl
  | cons i indices ih =>
    rw [firstConfiguration, bind_eq_ok] at h
    obtain ⟨e, he, h⟩ := h
    rw [cons_append, firstConfiguration, he, ok_bind]
    split_ifs at h ⊢ with hconf
    · cases h
    · apply ih h

/-- The base after a compaction at a floor for which the configuration is found. -/
theorem Good.baseConfiguration_compacted (h : Good w g v)
    (habove : v.mem.cut.index < floor.index) (hfound : View.Found v floor c base baseState) :
  (v.compacted w floor c.state).baseConfiguration = .ok (some (floor, c.state))
  := by
  rw [baseConfiguration_eq (wf_compacted h.wf habove), if_neg]
  · have hbase : (v.compacted w floor c.state).configurationAtBase floor = .ok c.state := by
      have hhistorical := h.found_historical hfound
      rw [← h.filter_le] at hhistorical
      change failIf _ _ >>= _ = _
      rw [failIf_neg (by simp)]
      dsimp only
      rw [failIf_neg]
      · rfl
      · rintro (hambiguous | ⟨expected, hexpected, hne⟩)
        · rw [confHistory_compacted, hfound.unambiguous] at hambiguous
          nomatch hambiguous
        · exact hne (hhistorical expected hexpected)
    change (v.compacted w floor c.state).configurationAtBase floor >>= _ = _
    rw [hbase]
    rfl
  · exact hfound.pos

/-- The position of a configuration applied above the floor is still named. -/
theorem View.appliedAt_compacted (h : v.mem.Wf) (habove : v.mem.cut.index < floor.index)
    (hi : floor.index < i) (hbase : base.index ≠ i) {at_ : Option Position}
    (hat : v.appliedAt base cut i = .ok at_) :
  (v.compacted w floor conf).appliedAt floor cut i = .ok at_
  := by
  unfold View.appliedAt at hat ⊢
  rw [if_neg hbase.symm] at hat
  rw [if_neg (by omega)]
  rw [bind_eq_ok] at hat ⊢
  obtain ⟨e, he, hat⟩ := hat
  refine ⟨e, ?_, hat⟩
  rw [configurationEntry_eq_ok h] at he
  rw [configurationEntry_eq_ok (wf_compacted h habove), entry?_compacted habove hi, he]

/-- The answers from the two bases are the same, but for the position of a configuration that the
floor has reached. -/
theorem Good.configurationFrom_compacted (h : Good w g v) (habove : v.mem.cut.index < floor.index)
    (hfound : View.Found v floor c base baseState) (hcut : floor.index ≤ cut.index)
    (hanswer : v.configurationFrom base baseState cut = .ok answer) :
  (v.compacted w floor c.state).configurationFrom floor c.state cut = .ok (answer.forget floor)
  := by
  have hindex := hfound.base_index h.wf
  have hsplit : v.confHistory.lastIn base.index cut.index = _ := h.lastIn_or (by omega) hcut
  have hrange : ∀ {start i n : ℕ}, i ∈ List.range' (start + 1) n → start < i := by
    intro start i n hi
    rw [mem_range'_1] at hi
    omega
  unfold View.configurationFrom at hanswer ⊢
  rw [confHistory_compacted]
  dsimp only at hanswer ⊢
  cases hlast : v.confHistory.lastIn floor.index cut.index with
  | some a =>
    -- The configuration was applied above the floor.
    obtain ⟨-, hlow, -⟩ := of_lastIn_eq_some hlast
    rw [hsplit, hlast] at hanswer
    simp only [bind_eq_ok] at hanswer ⊢
    obtain ⟨at_, hat, next, hnext, hanswer⟩ := hanswer
    refine ⟨at_, appliedAt_compacted h.wf habove hlow (by omega) hat, next, ?_, ?_⟩
    · apply firstConfiguration_compacted h.wf habove _ hnext
      intro i hi
      apply hlow.trans (hrange hi)
    · have hforget : at_.filter (fun p => floor.index < p.index) = at_ := by
        rcases index_of_appliedAt hat with ⟨rfl, -⟩ | ⟨term, rfl, -⟩
        · rfl
        · simp [hlow]
      cases next with
      | some index =>
        obtain rfl := ok.inj hanswer
        rfl
      | none =>
        obtain rfl := ok.inj hanswer
        simp [ConfigurationLookup.forget, CommittedConfiguration.forget, hforget]
  | none =>
    -- It is the one that is found for the floor.
    rw [hsplit, hlast, Option.none_or] at hanswer
    have hstate := hfound.state
    have hquiet := hfound.quiet
    have hle : ((v.confHistory.lastIn base.index floor.index).getD (base.index, baseState)).1
        ≤ floor.index := by
      cases hfloor : v.confHistory.lastIn base.index floor.index with
      | none =>
        rw [Option.getD_none]
        omega
      | some a => exact (of_lastIn_eq_some hfloor).2.2
    generalize (v.confHistory.lastIn base.index floor.index).getD (base.index, baseState)
      = selected at hanswer hstate hquiet hle
    rw [Option.getD_none, View.appliedAt]
    simp only [bind_eq_ok] at hanswer ⊢
    obtain ⟨at_, hat, next, hnext, hanswer⟩ := hanswer
    refine ⟨none, rfl, next, ?_, ?_⟩
    · apply firstConfiguration_compacted h.wf habove fun i => hrange
      have hnone : v.firstConfiguration (List.range' (selected.1 + 1) (floor.index - selected.1))
          = .ok none := by
        rw [firstConfiguration_eq_none h.wf]
        intro i hi
        rw [mem_range'_1] at hi
        apply hquiet i (by omega) (by omega)
      have happend : List.range' (selected.1 + 1) (cut.index - selected.1)
          = List.range' (selected.1 + 1) (floor.index - selected.1)
            ++ List.range' (floor.index + 1) (cut.index - floor.index) := by
        rw [show floor.index + 1 = selected.1 + 1 + 1 * (floor.index - selected.1) by omega,
          List.range'_append]
        congr 1
        omega
      rw [happend, firstConfiguration_append hnone] at hnext
      exact hnext
    · have hforget : at_.filter (fun p => floor.index < p.index) = none := by
        rcases index_of_appliedAt hat with ⟨rfl, -⟩ | ⟨term, rfl, -⟩
        · rfl
        · simp [hle]
      cases next with
      | some index =>
        obtain rfl := ok.inj hanswer
        rfl
      | none =>
        obtain rfl := ok.inj hanswer
        simp [ConfigurationLookup.forget, CommittedConfiguration.forget, hforget, hstate]

/-- Whatever is answered for a cut is answered after a compaction below it, but for the position
of a configuration that the floor has reached. -/
theorem Good.configurationAtCommitted_compacted (h : Good w g v)
    (habove : v.mem.cut.index < floor.index) (hfound : View.Found v floor c base baseState)
    (hcut : floor.index ≤ cut.index) (hanswer : v.configurationAtCommitted cut = .ok answer) :
  (v.compacted w floor c.state).configurationAtCommitted cut = .ok (answer.forget floor)
  := by
  unfold View.configurationAtCommitted at hanswer ⊢
  simp only [bind_eq_ok, failIf_eq_ok, View.committedTerm, mapError_eq_ok] at hanswer ⊢
  obtain ⟨_, hvalid, term, ⟨_, hcommit, hterm⟩, _, hcutTerm, hanswer⟩ := hanswer
  refine ⟨(), hvalid, term, ⟨(), hcommit, ?_⟩, (), hcutTerm, ?_⟩
  · rw [term_compacted h.wf habove hfound.term hcut, hterm]
  · rw [hfound.unambiguous, if_neg Bool.false_ne_true, h.wf.firstIndex, Nat.add_sub_cancel,
      if_neg (by omega), hfound.base_eq, ok_bind] at hanswer
    rw [confHistory_compacted, hfound.unambiguous, if_neg Bool.false_ne_true,
      (wf_compacted h.wf habove).firstIndex, Nat.add_sub_cancel, cut_compacted,
      if_neg (not_lt.mpr hcut), h.baseConfiguration_compacted habove hfound, ok_bind]
    apply h.configurationFrom_compacted habove hfound hcut hanswer

end

/-! ## In every run -/

/-- A write that succeeds publishes what it says. -/
theorem Store.of_withWriter_ok {action : View → Except Error (List Record × Except Error View)}
    {u : Unit} (hok : (s.withWriter w io action).1 = .ok u) :
  ∃ records view, action s.view = .ok (records, .ok view)
    ∧ (s.withWriter w io action).2 = ⟨s.log ++ records, view, true⟩
  := by
  unfold withWriter at hok ⊢
  by_cases hwriter : s.writer
  · rw [if_neg (not_not.mpr hwriter)] at hok ⊢
    cases hact : action s.view with
    | error e =>
      rw [hact] at hok
      nomatch hok
    | ok answer =>
      obtain ⟨records, published⟩ := answer
      rw [hact] at hok
      unfold write at hok ⊢
      cases io with
      | failed survived => nomatch hok
      | synced =>
        dsimp only at hok ⊢
        by_cases hfits : records.takeWhile (fun r => r.length w < maxRecordLen) ≠ records
        · rw [if_pos hfits] at hok
          nomatch hok
        · rw [if_neg hfits] at hok ⊢
          cases published with
          | error e => nomatch hok
          | ok view => exact ⟨records, view, rfl, rfl⟩
  · rw [if_pos hwriter] at hok
    nomatch hok

/-- A compaction that succeeds has nothing to do, or drops the entries up to the floor. -/
theorem Store.of_compactRetainedPrefix (h : Good w g s.view) {decision : Bytes}
    {first : ℕ} (hfound : View.Found s.view floor c base baseState)
    (hok : (s.compactRetainedPrefix w io floor c.state decision).1 = .ok first) :
  floor.index ≤ s.view.mem.cut.index ∧ (s.compactRetainedPrefix w io floor c.state decision).2 = s
    ∨ s.view.mem.cut.index < floor.index
      ∧ (s.compactRetainedPrefix w io floor c.state decision).2.writer
      ∧ (s.compactRetainedPrefix w io floor c.state decision).2.view
        = s.view.compacted w floor c.state
  := by
  have hlast : floor.index ≤ s.view.mem.cut.index ∨ floor.index ≤ s.view.mem.lastIndex := by
    rw [or_iff_not_imp_left, not_le]
    intro habove
    have hterm := hfound.term
    rw [h.wf.term_eq habove] at hterm
    cases hentry : s.view.mem.entry? floor.index with
    | none =>
      rw [hentry] at hterm
      nomatch hterm
    | some e => exact (h.wf.entry?_isSome.mp (Option.isSome_iff_exists.mpr ⟨e, hentry⟩)).2
  unfold compactRetainedPrefix at hok ⊢
  dsimp only at hok ⊢
  rw [h.wf.firstIndex, hfound.term] at hok ⊢
  by_cases hshape : floor.index = 0 ∨ floor.term = 0 ∨ decision = []
  · rw [if_pos hshape] at hok
    nomatch hok
  · rw [if_neg hshape] at hok ⊢
    by_cases hfirst : floor.index < s.view.mem.cut.index + 1
    · rw [if_pos hfirst]
      exact .inl ⟨by omega, rfl⟩
    · rw [if_neg hfirst, if_neg (by have := hfound.committed; omega)] at hok ⊢
      dsimp only at hok ⊢
      rw [if_neg (by simp)] at hok ⊢
      have habove : s.view.mem.cut.index < floor.index := by omega
      refine .inr ⟨habove, ?_⟩
      cases hwritten : (s.writeCompaction w io floor c.state decision).1 with
      | error e =>
        rw [hwritten] at hok
        nomatch hok
      | ok u =>
        obtain ⟨records, view, hact, hstore⟩ := Store.of_withWriter_ok hwritten
        rw [compactMemory_eq h.wf habove (by omega) hfound.term] at hact
        obtain ⟨-, hview⟩ := Prod.mk.inj (ok.inj hact)
        have heq : s.writeCompaction w io floor c.state decision
            = ((s.writeCompaction w io floor c.state decision).1, ⟨s.log ++ records, view, true⟩) :=
          Prod.ext rfl hstore
        rw [heq]
        use rfl, (ok.inj hview).symm

/-- If the floor is not above the base, no answer names a position that it has reached. -/
theorem Good.forget_eq (h : Good w g v) (hfloor : floor.index ≤ v.mem.cut.index)
    (hanswer : v.configurationAtCommitted cut = .ok answer) :
  answer.forget floor = answer
  := by
  cases answer with
  | unavailable reason => rfl
  | found c =>
    obtain ⟨base, baseState, hfound⟩ := found_of_configurationAtCommitted h.wf hanswer
    have hindex := hfound.base_index h.wf
    have hfilter : c.appliedAt.filter (fun p => floor.index < p.index) = c.appliedAt := by
      cases hat : c.appliedAt with
      | none => rfl
      | some p =>
        have := hfound.appliedAt p hat
        rw [Option.filter_some, if_pos]
        rw [decide_eq_true_eq]
        omega
    rw [ConfigurationLookup.forget, CommittedConfiguration.forget, hfilter]

end Kv9.Raft.Storage
