import Kv9.Raft.Storage.View

/-!
# The configuration at a cut

A committed cut is asked for the configuration that was in force there: the last one that was
applied at or below it.  The answer is refused when a change is committed but not yet applied,
when the prefix that would tell is gone, or when the accounts contradict each other.
-/

namespace Kv9.Raft.Storage

open Except

/-- Why there is no configuration for a cut. -/
inductive ConfigurationUnavailable where
  | initialConfigurationMissing
  | unindexedOrConflictingHistory
  | protocolHistoryCompacted
  | configurationNotApplied (index : ℕ)
deriving DecidableEq, Repr

/-- The configuration at a cut.  If no position is named, it is the one of the base. -/
structure CommittedConfiguration where
  cut : Position
  appliedAt : Option Position
  state : ConfState
deriving DecidableEq, Repr

/-- The answer for a cut. -/
inductive ConfigurationLookup where
  | found (configuration : CommittedConfiguration)
  | unavailable (reason : ConfigurationUnavailable)
deriving DecidableEq, Repr

def raftError (e : MemError) : Error := .raft ("configuration recovery: " ++ e.text)

namespace ConfigurationHistory

variable {h : ConfigurationHistory} {low high : ℕ} {a : ℕ × ConfState}

theorem of_lastIn_eq_some (hlast : h.lastIn low high = some a) :
  a ∈ h.applied ∧ low < a.1 ∧ a.1 ≤ high
  := by
  have := List.mem_filter.mp (List.mem_of_getLast? hlast)
  simpa using this

theorem lastIn_eq_none :
  h.lastIn low high = none ↔ ∀ a ∈ h.applied, low < a.1 → high < a.1
  := by
  unfold lastIn
  simp

end ConfigurationHistory

namespace View

/-- The term of a committed index. -/
def committedTerm (v : View) (index : ℕ) : Except Error ℕ := do
  failIf (v.mem.hardState.commit < index)
    (.raft "engine applied position exceeds durable Raft commit")
  (v.mem.term index).mapError fun e =>
    .raft ("applied position missing from Raft history: " ++ e.text)

/-- The base that a compaction or a snapshot left, if the log does not start at 1. -/
def compactedBase (v : View) : Except Error (Option Position) :=
  if v.mem.firstIndex = 1 then .ok none
  else do
    let term ← (v.mem.term (v.mem.firstIndex - 1)).mapError fun e => .raft e.text
    return some ⟨term, v.mem.firstIndex - 1⟩

/-- The configuration at the base.  The one on record must not contradict the history. -/
def configurationAtBase (v : View) (base : Position) : Except Error ConfState := do
  let unavailable : Error := .raft "exact durable configuration base is unavailable"
  match v.configurationBase with
  | none => throw unavailable
  | some (cut, state) =>
    failIf (cut ≠ base) unavailable
    let historical :=
      ((v.confHistory.applied.filter fun a => a.1 ≤ cut.index).getLast?.map (·.2)).or
        v.confHistory.initial
    failIf (v.confHistory.ambiguous ∨ ∃ expected ∈ historical, expected ≠ state)
      (.raft "durable configuration base contradicts indexed history")
    return state

/-- The entry at an index. -/
def configurationEntry (v : View) (index : ℕ) : Except Error Entry := do
  let incomplete : Error := .raft "configuration lookup has incomplete protocol history"
  let entries ← (v.mem.slice index (index + 1)).mapError raftError
  match entries with
  | [e] => if e.index = index then return e else throw incomplete
  | _ => throw incomplete

/-- The first of some indices at which the log has a change of configuration. -/
def firstConfiguration (v : View) : List ℕ → Except Error (Option ℕ)
  | [] => .ok none
  | index :: rest => do
    let e ← v.configurationEntry index
    if isConfiguration e.entryType then return some index else v.firstConfiguration rest

/-- The position at which the configuration of an index was applied.  The base has none. -/
def appliedAt (v : View) (base cut : Position) (index : ℕ) : Except Error (Option Position) :=
  if index = base.index then .ok none
  else do
    let e ← v.configurationEntry index
    failIf (¬ isConfiguration e.entryType)
      (.raft "indexed configuration does not name a configuration entry")
    failIf (e.term = 0 ∨ cut.term < e.term)
      (.raft "configuration entry term contradicts the recovery cut")
    return some ⟨e.term, index⟩

/-- The answer for a cut, given the base and the configuration there. -/
def configurationFrom (v : View) (base : Position) (baseState : ConfState) (cut : Position) :
    Except Error ConfigurationLookup := do
  let selected := (v.confHistory.lastIn base.index cut.index).getD (base.index, baseState)
  let appliedAt ← v.appliedAt base cut selected.1
  let next ← v.firstConfiguration (List.range' (selected.1 + 1) (cut.index - selected.1))
  match next with
  | some index => return .unavailable (.configurationNotApplied index)
  | none => return .found ⟨cut, appliedAt, selected.2⟩

/-- The base and the configuration there: the initial one, or the one of a compacted prefix. -/
def baseConfiguration (v : View) : Except Error (Option (Position × ConfState)) :=
  let baseIndex := v.mem.firstIndex - 1
  if baseIndex = 0 then return v.confHistory.initial.map fun initial => (⟨0, 0⟩, initial)
  else do
    let term ← (v.mem.term baseIndex).mapError raftError
    let state ← v.configurationAtBase ⟨term, baseIndex⟩
    return some (⟨term, baseIndex⟩, state)

/-- The configuration in force at a committed cut. -/
def configurationAtCommitted (v : View) (cut : Position) : Except Error ConfigurationLookup := do
  failIf (cut.index = 0 ∨ cut.term = 0 ∨ cut.index = maxIndex)
    (.raft "invalid configuration recovery cut")
  let term ← v.committedTerm cut.index
  failIf (term ≠ cut.term) (.raft "configuration cut term disagrees with committed history")
  if v.confHistory.ambiguous then return .unavailable .unindexedOrConflictingHistory
  else if cut.index < v.mem.firstIndex - 1 then return .unavailable .protocolHistoryCompacted
  else do
    match ← v.baseConfiguration with
    | none => return .unavailable .initialConfigurationMissing
    | some (base, baseState) => v.configurationFrom base baseState cut

/-! ## What an answer says -/

variable {v : View} {cut : Position} {i : ℕ} {e : Entry}

theorem configurationEntry_eq_ok (h : v.mem.Wf) :
  v.configurationEntry i = .ok e ↔ v.mem.entry? i = some e
  := by
  unfold configurationEntry
  cases hentry : v.mem.entry? i with
  | some e' =>
    have hindex := (h.entry?_eq_some.mp hentry).2
    rw [h.slice_one hentry]
    change (if e'.index = i then _ else _) = _ ↔ _
    rw [if_pos hindex, pure_eq_ok, ok.injEq, Option.some.injEq]
  | none =>
    have hsome := h.entry?_isSome (i := i)
    rw [hentry, Option.isSome_none, eq_comm, Bool.true_eq_false, false_iff] at hsome
    have : ∃ err, v.mem.slice i (i + 1) = .error err := by
      unfold MemStorage.slice
      split_ifs with hfirst hlast
      · exact ⟨_, rfl⟩
      · exact ⟨_, rfl⟩
      · rw [h.firstIndex] at hfirst
        exact absurd (hsome (by omega)) (by omega)
    obtain ⟨err, herr⟩ := this
    rw [herr]
    constructor
    · nofun
    · nofun

/-- If no index has a change of configuration, every index has another entry. -/
theorem firstConfiguration_eq_none (h : v.mem.Wf) {indices : List ℕ} :
  v.firstConfiguration indices = .ok none
    ↔ ∀ i ∈ indices, ∃ e, v.mem.entry? i = some e ∧ isConfiguration e.entryType = false
  := by
  induction indices with
  | nil => simp [firstConfiguration]
  | cons i indices ih =>
    rw [firstConfiguration, bind_eq_ok, List.forall_mem_cons, ← ih]
    constructor
    · rintro ⟨e, he, hrest⟩
      split_ifs at hrest with hconf
      · nomatch hrest
      · exact ⟨⟨e, (configurationEntry_eq_ok h).mp he, by simpa using hconf⟩, hrest⟩
    · rintro ⟨⟨e, he, hconf⟩, hrest⟩
      use e, (configurationEntry_eq_ok h).mpr he
      rw [hconf, if_neg Bool.false_ne_true, hrest]

/-- The position of the base is the cut of the log in memory. -/
theorem baseConfiguration_eq (h : v.mem.Wf) :
  v.baseConfiguration =
    if v.mem.cut.index = 0 then
      return v.confHistory.initial.map fun initial => (⟨0, 0⟩, initial)
    else do
      let state ← v.configurationAtBase v.mem.cut
      return some (v.mem.cut, state)
  := by
  unfold baseConfiguration
  rw [h.firstIndex, Nat.add_sub_cancel]
  dsimp only
  rw [MemStorage.term_cut]
  rfl

variable {base : Position} {c : CommittedConfiguration}

/-- The configuration at the base is the one on record, and the history says the same. -/
theorem of_configurationAtBase {cs : ConfState} (h : v.configurationAtBase base = .ok cs) :
  v.configurationBase = some (base, cs)
    ∧ ∀ expected ∈ ((v.confHistory.applied.filter fun a => a.1 ≤ base.index).getLast?.map
      (·.2)).or v.confHistory.initial, expected = cs
  := by
  unfold configurationAtBase at h
  cases hbase : v.configurationBase with
  | none =>
    rw [hbase] at h
    nomatch h
  | some known =>
    rw [hbase] at h
    simp only [bind_eq_ok, failIf_eq_ok, pure_eq_ok, ok.injEq, not_or, not_exists, not_and,
      ne_eq, not_not] at h
    obtain ⟨-, rfl, -, ⟨-, hhistory⟩, rfl⟩ := h
    use rfl, hhistory

/-- The position that is named is that of the index. -/
theorem index_of_appliedAt {at_ : Option Position} (h : v.appliedAt base cut i = .ok at_) :
  at_ = none ∧ i = base.index ∨ ∃ term, at_ = some ⟨term, i⟩ ∧ i ≠ base.index
  := by
  unfold appliedAt at h
  split_ifs at h with hbase
  · exact .inl ⟨(ok.inj h).symm, hbase⟩
  · simp only [bind_eq_ok] at h
    obtain ⟨e, -, -, -, -, -, h⟩ := h
    exact .inr ⟨e.term, (ok.inj h).symm, hbase⟩

/-- What is known when a configuration is found for a cut. -/
structure Found (v : View) (cut : Position) (c : CommittedConfiguration) (base : Position)
    (baseState : ConfState) : Prop where
  cut_eq : c.cut = cut
  pos : cut.index ≠ 0
  committed : cut.index ≤ v.mem.hardState.commit
  term : v.mem.term cut.index = .ok cut.term
  unambiguous : v.confHistory.ambiguous = false
  base_le : v.mem.cut.index ≤ cut.index
  base_eq : v.baseConfiguration = .ok (some (base, baseState))
  state : c.state = ((v.confHistory.lastIn base.index cut.index).getD (base.index, baseState)).2
  appliedAt : ∀ p ∈ c.appliedAt, base.index < p.index
  quiet : ∀ i, ((v.confHistory.lastIn base.index cut.index).getD (base.index, baseState)).1 < i →
    i ≤ cut.index → ∃ e, v.mem.entry? i = some e ∧ isConfiguration e.entryType = false

/-- The base of an answer is the cut of the log in memory. -/
theorem Found.base_index {baseState : ConfState}
    (h : v.mem.Wf) (hfound : Found v cut c base baseState) :
  base.index = v.mem.cut.index
  := by
  have hbase := hfound.base_eq
  rw [baseConfiguration_eq h] at hbase
  split_ifs at hbase with hzero
  · rw [pure_eq_ok, ok.injEq, Option.map_eq_some_iff] at hbase
    obtain ⟨_, -, hbase⟩ := hbase
    rw [← (Prod.mk.inj hbase).1, hzero]
  · rw [bind_eq_ok] at hbase
    obtain ⟨state, -, hbase⟩ := hbase
    rw [← (Prod.mk.inj (Option.some.inj (ok.inj hbase))).1]

theorem found_of_configurationAtCommitted (h : v.mem.Wf)
    (hfound : v.configurationAtCommitted cut = .ok (.found c)) :
  ∃ base baseState, Found v cut c base baseState
  := by
  unfold configurationAtCommitted at hfound
  simp only [bind_eq_ok, failIf_eq_ok, committedTerm, mapError_eq_ok] at hfound
  obtain ⟨-, hvalid, term, ⟨-, hcommit, hterm⟩, -, hcut, hfound⟩ := hfound
  split_ifs at hfound with hambiguous hbase
  · cases hfound
  · cases hfound
  · rw [bind_eq_ok] at hfound
    obtain ⟨base, hbaseConfiguration, hfound⟩ := hfound
    cases base with
    | none => cases hfound
    | some base =>
      obtain ⟨base, baseState⟩ := base
      dsimp only [configurationFrom] at hfound
      simp only [bind_eq_ok] at hfound
      obtain ⟨appliedAt, hat, next, hnext, hfound⟩ := hfound
      cases next with
      | some index => cases hfound
      | none =>
        obtain rfl := ConfigurationLookup.found.inj (ok.inj hfound)
        refine ⟨base, baseState, {
          cut_eq := rfl, pos := ?_, committed := by omega, term := ?_
          unambiguous := by simpa using hambiguous, base_le := ?_
          base_eq := hbaseConfiguration, state := rfl, appliedAt := ?_, quiet := ?_ }⟩
        · intro hzero
          exact hvalid (.inl hzero)
        · rw [hterm, not_ne_iff.mp hcut]
        · rw [h.firstIndex] at hbase
          omega
        · rintro p hp
          rcases index_of_appliedAt hat with ⟨rfl, -⟩ | ⟨term, rfl, hne⟩
          · cases hp
          · obtain rfl := Option.some.inj hp
            cases hlast : v.confHistory.lastIn base.index cut.index with
            | none =>
              rw [hlast] at hne
              exact absurd rfl hne
            | some a => exact (ConfigurationHistory.of_lastIn_eq_some hlast).2.1
        · intro i hlow hhigh
          apply (firstConfiguration_eq_none h).mp hnext
          rw [List.mem_range'_1]
          omega

end View

end Kv9.Raft.Storage
