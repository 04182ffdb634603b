import Kv9.Raft.Storage.Runs

/-!
# What is durable goes back on nothing

In every run, whatever is mixed and whichever writes fail, the term and the commit index of the
log on disk do not decrease, a vote is kept for as long as its term lasts, and a protocol snapshot
is installed only above everything that was committed.  The Raft library is trusted to hand over
hard states that go back on nothing; a snapshot comes from elsewhere, so that the storage checks
it.  A snapshot that is refused changes nothing.  Entries that were committed stay what they are.
-/

namespace Kv9.Raft.Storage

open Except

variable {w : Wire} {g g' : Full} {v v' v'' : View} {s s' : Store} {r : Record}

/-- The later of two views goes back on nothing. -/
structure Advances (v v' : View) : Prop where
  term_le : v.mem.hardState.term ≤ v'.mem.hardState.term
  vote_eq : v'.mem.hardState.term = v.mem.hardState.term → v.mem.hardState.vote ≠ 0 →
    v'.mem.hardState.vote = v.mem.hardState.vote
  commit_le : v.mem.hardState.commit ≤ v'.mem.hardState.commit
  snapshot : ∀ image ∈ v'.snapshot,
    v.snapshot = some image ∨ v.mem.hardState.commit < image.cut.index

theorem Advances.of_eq (hs : v'.mem.hardState = v.mem.hardState)
    (hsnapshot : v'.snapshot = v.snapshot) :
  Advances v v'
  := by
  constructor
  · rw [hs]
  · intro _ _
    rw [hs]
  · rw [hs]
  · intro image himage
    left
    rw [← hsnapshot]
    exact himage

theorem Advances.trans (h : Advances v v') (h' : Advances v' v'') :
  Advances v v''
  := by
  have hterm := h.term_le
  have hterm' := h'.term_le
  constructor
  · omega
  · intro heq hvote
    have hvote' := h.vote_eq (by omega) hvote
    rw [h'.vote_eq (by omega) (by rw [hvote']; exact hvote), hvote']
  · apply h.commit_le.trans h'.commit_le
  · intro image himage
    rcases h'.snapshot image himage with himage' | hlt
    · apply h.snapshot image himage'
    · right
      apply h.commit_le.trans_lt hlt

/-! ## One record -/

variable {m m' : MemStorage} {image : Snapshot} {hs : HardState}

theorem MemStorage.hardState_append {es : List Entry} (h : m.append es = .ok m') :
  m'.hardState = m.hardState
  := by
  unfold append at h
  split at h
  · obtain rfl := ok.inj h
    rfl
  · split_ifs at h
    obtain rfl := ok.inj h
    rfl

theorem hardState_compactMemory {floor : Position} {conf : ConfState}
    (h : compactMemory m floor conf = .ok m') :
  m'.hardState = m.hardState
  := by
  unfold compactMemory at h
  split_ifs at h
  · obtain rfl := ok.inj h
    rfl
  · simp only [bind_eq_ok] at h
    obtain ⟨-, -, -, -, -, -, -, -, -, -, _, -, h⟩ := h
    obtain rfl := ok.inj h
    rfl

theorem Admissible.advances (hr : Admissible w v r) (hv : v.replayRecord w r = .ok v') :
  Advances v v'
  := by
  cases hr with
  | entry hready =>
    obtain ⟨mem, happend, hv⟩ := bind_eq_ok.mp hv
    obtain rfl := ok.inj hv
    refine Advances.of_eq ?_ rfl
    apply MemStorage.hardState_append (mapError_eq_ok.mp happend)
  | @hardState hs hready =>
    obtain rfl := ok.inj hv
    constructor
    · apply hready.term_le hs rfl
    · apply hready.vote_eq hs rfl
    · apply hready.commit_le hs rfl
    · intro image himage
      exact .inl himage
  | confStateAt hnew horigin =>
    obtain rfl := ok.inj hv
    exact Advances.of_eq rfl rfl
  | origin hnew hinsert =>
    obtain ⟨origins, -, hv⟩ := bind_eq_ok.mp hv
    obtain rfl := ok.inj hv
    exact Advances.of_eq rfl rfl
  | leaseEpoch hsnapshot hnext =>
    obtain ⟨_, -, hv⟩ := bind_eq_ok.mp hv
    obtain ⟨_, -, hv⟩ := bind_eq_ok.mp hv
    obtain ⟨_, -, hv⟩ := bind_eq_ok.mp hv
    obtain rfl := ok.inj hv
    exact Advances.of_eq rfl rfl
  | @snapshot image hs hlease hvalid =>
    obtain ⟨_, -, hv⟩ := bind_eq_ok.mp hv
    obtain ⟨_, -, hv⟩ := bind_eq_ok.mp hv
    obtain ⟨mem, -, hv⟩ := bind_eq_ok.mp hv
    obtain rfl := ok.inj hv
    have htransition := transition_of_validateTransition hvalid
    constructor
    · apply htransition.term_le
    · apply htransition.vote_eq
    · apply le_of_lt
      apply htransition.commit_lt.trans_eq
      apply htransition.commit_eq.symm
    · intro image' himage'
      obtain rfl := Option.some.inj himage'
      right
      apply htransition.commit_lt
  | compaction habove hfound =>
    obtain ⟨mem, hmem, hv⟩ := bind_eq_ok.mp hv
    obtain rfl := ok.inj hv
    refine Advances.of_eq ?_ rfl
    apply hardState_compactMemory hmem

/-! ## Refused snapshots -/

/-- The record of a well-formed snapshot can be written. -/
theorem length_snapshot_lt (h : validate w image hs = .ok ()) :
  Record.length w (.snapshot image hs) < maxRecordLen
  := by
  unfold validate at h
  simp only [bind_eq_ok, failIf_eq_ok, not_or, not_lt, ne_eq, not_not] at h
  obtain ⟨-, ⟨hlength, -, -, -, hunknown⟩, -⟩ := h
  have hstate := w.length_hardState hs hunknown
  change 16 + (w.snapshot image).length + (w.hardState hs).length < 64 * 1024 * 1024
  unfold maxProtocolSnapshotBytes at hlength
  omega

/-- A snapshot that is refused leaves the store as it is. -/
theorem Store.installProtocolSnapshot_refused (h : s.writer → Good w g s.view) {e : Error}
    (herror : (s.installProtocolSnapshot w .synced image hs).1 = .error e) (io : Written) :
  (s.installProtocolSnapshot w io image hs).2 = s
  := by
  unfold installProtocolSnapshot at herror ⊢
  dsimp only at herror ⊢
  cases hvalid : validate w image hs with
  | error e => rfl
  | ok u =>
    rw [hvalid] at herror
    by_cases hwriter : s.writer
    · rw [if_neg (not_not.mpr hwriter)] at herror ⊢
      by_cases hlease : s.view.leaseEpoch.isSome
      · rw [if_pos hlease]
      · rw [if_neg hlease] at herror ⊢
        by_cases hagain : s.view.snapshot = some image ∧ s.view.mem.hardState = hs
        · rw [if_pos hagain]
        · rw [if_neg hagain] at herror ⊢
          cases htransition : validateTransition w s.view.mem s.view.snapshot image hs with
          | error e => rfl
          | ok u =>
            -- A snapshot that may be installed is installed.
            have hgood := h hwriter
            have hcommit := (transition_of_validateTransition htransition).commit_lt
            have hlength : decide (Record.length w (.snapshot image hs) < maxRecordLen) = true :=
              decide_eq_true (length_snapshot_lt hvalid)
            rw [htransition, hgood.wf.applySnapshot image.confState
              (hgood.cut_le.trans_lt hcommit)] at herror
            simp [write, hlength, Except.mapError] at herror
    · rw [if_pos hwriter]

/-! ## Every run -/

/-- The later of two full logs has the entries of the earlier one up to an index, unless it starts
above them. -/
structure Full.Keeps (commit : ℕ) (g g' : Full) : Prop where
  start_le : g.start ≤ g'.start
  entry : ∀ i ≤ commit, g'.start < i →
    g'.entries[i - (g'.start + 1)]? = g.entries[i - (g.start + 1)]?

/-- No record that a call writes touches a committed entry. -/
theorem Good.keeps (h : Good w g v) (hr : Admissible w v r) :
  g.Keeps v.mem.hardState.commit (g.record r)
  := by
  have hstart := h.start_le
  have hcut := h.cut_le
  cases hr with
  | @entry e hready =>
    have hlt := hready.uncommitted e rfl
    have hreached := hready.reached e rfl
    rw [h.lastIndex] at hreached
    refine ⟨le_rfl, fun i hi hpos => ?_⟩
    change (g.entries.take (e.index - (g.start + 1)) ++ [e])[i - (g.start + 1)]? = _
    change g.start < i at hpos
    rw [List.getElem?_append_left (by rw [List.length_take]; omega),
      List.getElem?_take_of_lt (by omega)]
  | @snapshot image hs hlease hvalid =>
    have hlt := (transition_of_validateTransition hvalid).commit_lt
    refine ⟨?_, fun i hi hpos => ?_⟩
    · change g.start ≤ image.cut.index
      omega
    · change image.cut.index < i at hpos
      omega
  | _ => exact ⟨le_rfl, fun _ _ _ => rfl⟩

theorem Good.entry?_eq (h : Good w g v) {i : ℕ} (hi : v.mem.cut.index < i) :
  v.mem.entry? i = g.entries[i - (g.start + 1)]?
  := by
  have hstart := h.start_le
  rw [MemStorage.entry?, if_neg (not_le.mpr hi), h.entries, List.getElem?_drop]
  congr 1
  omega

end Kv9.Raft.Storage
