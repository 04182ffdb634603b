import Kv9.Raft.Storage.Rewrite

/-!
# Runs of the storage

A run starts with a fresh store and goes on with calls in any order: readies and entries of the
Raft library, applied configurations, compactions at a floor for which a configuration is found,
protocol snapshots, lease incarnations, rewrites, and opening the log again.  Every write may fail
and leave a front part of its records.

In every run the store is sound: the log on disk can be replayed, and what it gives is what the
store knows.
-/

namespace Kv9.Raft.Storage

open Except List Option Store

variable {w : Wire} {g g' : Full} {v v' : View} {s s' s'' : Store} {rs : List Record}

/-! ## What a call writes -/

/-- A call writes nothing, or some front part of records that can be written one after the other;
a store that can still write knows what the records say. -/
inductive Wrote (w : Wire) (s : Store) : Store → Prop where
  | nothing : Wrote w s s
  | records {s' : Store} {rs : List Record} {n : ℕ} (hwriter : s.writer)
      (hrs : Admits w s.view rs) (hlog : s'.log = s.log ++ rs.take n)
      (hview : s'.writer → s.view.replay w (rs.take n) = .ok s'.view) : Wrote w s s'

theorem wrote_write (h : Good w g s.view) (hwriter : s.writer) (hrs : Admits w s.view rs)
    (io : Written) {published : Except Error View}
    (hpublished : ∀ v', s.view.replay w rs = .ok v' → published = .ok v') :
  Wrote w s (s.write w io rs published).2
  := by
  have htake : ∃ n, rs.takeWhile (fun r => r.length w < maxRecordLen) = rs.take n :=
    ⟨_, prefix_iff_eq_take.mp ( takeWhile_prefix _)⟩
  obtain ⟨n, htake⟩ := htake
  unfold Store.write
  dsimp only
  rw [htake]
  cases io with
  | failed survived =>
    dsimp only
    rw [take_take]
    exact .records hwriter hrs rfl nofun
  | synced =>
    split_ifs with hfits
    · exact .records hwriter hrs rfl nofun
    · obtain ⟨v', hv', -⟩ := h.replay hrs rs.length
      rw [take_length] at hv'
      rw [hpublished v' hv']
      refine .records (n := rs.length) hwriter hrs ?_ ?_
      · rw [take_length]
      · intro _
        rw [take_length, hv']

theorem wrote_withWriter (h : s.writer → Good w g s.view) (io : Written)
    {action : View → Except Error (List Record × Except Error View)}
    (haction : ∀ rs published, s.writer → action s.view = .ok (rs, published) →
      Admits w s.view rs ∧ ∀ v', s.view.replay w rs = .ok v' → published = .ok v') :
  Wrote w s (s.withWriter w io action).2
  := by
  unfold Store.withWriter
  by_cases hwriter : s.writer
  · rw [if_neg (not_not.mpr hwriter)]
    cases hact : action s.view with
    | error e => 
      have hnil : Admits w s.view [] := trivial
      exact .records (n := 0) hwriter hnil (by simp) nofun
    | ok answer =>
      obtain ⟨rs, published⟩ := answer
      obtain ⟨hrs, hpublished⟩ := haction rs published hwriter hact
      apply wrote_write (h hwriter) hwriter hrs io hpublished
  · rw [if_pos hwriter]
    apply Wrote.nothing

theorem Admits.take (h : Admits w v rs) (n : ℕ) :
  Admits w v (rs.take n)
  := by
  induction rs generalizing v n with
  | nil =>
    rw [take_nil]
    trivial
  | cons r rs ih =>
    cases n with
    | zero => trivial
    | succ n =>
      use h.1
      intro v' hv'
      apply ih (h.2 v' hv')

theorem admits_singleton {r : Record} :
  Admits w v [r] ↔ Admissible w v r
  := by
  simp [Admits]

/-! ## Readies -/

variable {es : List Entry} {hs : Option HardState}

theorem Ready.head {e : Entry} (h : Ready v (e :: es) hs) :
  Ready v [e] none
  := by
  refine ⟨?_, h.uncommitted, h.reached, nofun, nofun, nofun⟩
  rintro _ ⟨⟩
  exact ⟨rfl, trivial⟩

/-- What is left of a ready after its first entry. -/
theorem Ready.tail (h : Good w g v) {e : Entry} (hready : Ready v (e :: es) hs) :
  Ready { v with mem := { v.mem with entries := v.mem.overwrite [e] } } es hs
  := by
  have hcontinues := hready.continues h
  have hnext := hcontinues.next
  have huncommitted := hready.uncommitted e rfl
  have hwf := h.wf.overwrite (hready.head.continues h)
  refine ⟨hnext.contiguous, ?_, ?_, hready.term_le, hready.vote_eq, hready.commit_le⟩
  · intro e' he'
    cases es with
    | nil => nomatch he'
    | cons e₁ es =>
      obtain rfl := Option.some.inj he'
      have := (hready.contiguous e rfl).2.1
      dsimp only
      omega
  · intro e' he'
    rw [hwf.lastIndex]
    apply hnext.reached e' he'

/-- The records of a ready can be written one after the other. -/
theorem Ready.admits (h : Good w g v) (hready : Ready v es hs) :
  Admits w v (es.map .entry ++ hs.toList.map .hardState)
  := by
  induction es generalizing g v with
  | nil =>
    cases hs with
    | none => trivial
    | some hs => exact admits_singleton.mpr (.hardState hready)
  | cons e es ih =>
    use .entry hready.head
    obtain ⟨v', hv', h'⟩ := h.entry hready.head
    intro v'' hv''
    obtain rfl := ok.inj (hv'.symm.trans hv'')
    apply ih h'
    have happend : v.replayRecord w (.entry e)
        = .ok { v with mem := { v.mem with entries := v.mem.overwrite [e] } } := by
      change (v.mem.append [e]).mapError _ >>= _ = _
      rw [h.wf.append (hready.head.continues h)]
      rfl
    rw [ok.inj (hv'.symm.trans happend)]
    apply hready.tail h

theorem Store.wrote_persistReady (h : s.writer → Good w g s.view) (io : Written)
    (hready : Ready s.view es hs) :
  Wrote w s (s.persistReady w io es hs).2
  := by
  apply wrote_withWriter h
  intro rs published hwriter hact
  obtain ⟨rfl, rfl⟩ := Prod.mk.inj (ok.inj hact)
  use hready.admits (h hwriter)
  intro v' hv'
  have hcontinues := hready.continues (h hwriter)
  rw [View.replay_append, View.replay_entries (h hwriter).wf hcontinues] at hv'
  rw [(h hwriter).wf.append hcontinues]
  cases hs with
  | none => exact hv'
  | some hs =>
    exact hv'

theorem Store.wrote_append (h : s.writer → Good w g s.view) (io : Written)
    (hready : Ready s.view es none) :
  Wrote w s (s.append w io es).2
  := by
  have := wrote_persistReady h io hready
  unfold persistReady at this
  simp only [toList_none, map_nil, append_nil, elim_none] at this
  exact this

theorem Store.wrote_setHardstate (h : s.writer → Good w g s.view) (io : Written) {hs : HardState}
    (hready : Ready s.view [] (some hs)) :
  Wrote w s (s.setHardstate w io hs).2
  := by
  apply wrote_withWriter h
  intro rs published hwriter hact
  obtain ⟨rfl, rfl⟩ := Prod.mk.inj (ok.inj hact)
  use admits_singleton.mpr (.hardState hready)
  intro v' hv'
  exact hv'

/-! ## The other calls -/

/-- The origin that an entry names has the index of the entry. -/
theorem Store.index_of_originFromEntry {index : ℕ} {r : AppliedConfigurationOrigin}
    (h : originFromEntry w v index = .ok (some r)) :
  r.position.index = index
  := by
  unfold originFromEntry at h
  split_ifs at h
  · cases h
  · split at h
    · split_ifs at h
      · cases h
      · rw [bind_eq_ok] at h
        obtain ⟨origin, -, h⟩ := h
        cases origin with
        | none => cases h
        | some origin =>
          simp only [bind_eq_ok] at h
          obtain ⟨_, -, h⟩ := h
          obtain rfl := Option.some.inj (ok.inj h)
          rfl
    · cases h

section

variable (h : s.writer → Good w g s.view)
include h

theorem Store.wrote_setConfState (io : Written) {cs : ConfState}
    {index : ℕ} (hnew : s.view.confIndex < index) :
  Wrote w s (s.setConfState w io cs index).2
  := by
  apply wrote_withWriter h
  intro rs published hwriter hact
  simp only [bind_eq_ok, failIf_eq_ok] at hact
  obtain ⟨origin, horigin, -, hold, hact⟩ := hact
  cases origin with
  | none =>
    obtain ⟨rfl, rfl⟩ := Prod.mk.inj (ok.inj hact)
    have hget : s.view.origins.get index = none := by
      cases hget : s.view.origins.get index with
      | none => rfl
      | some old => exact absurd ⟨old, hget, (by simp)⟩ hold
    use admits_singleton.mpr (.confStateAt hnew hget)
    intro v' hv'
    exact hv'
  | some r =>
    obtain rfl := index_of_originFromEntry horigin
    simp only [bind_eq_ok] at hact
    obtain ⟨_, hinsert, hact⟩ := hact
    obtain ⟨rfl, rfl⟩ := Prod.mk.inj (ok.inj hact)
    use admits_singleton.mpr (.origin hnew hinsert)
    intro v' hv'
    rw [View.replay_singleton] at hv'
    exact hv'

theorem Store.wrote_beginLeaseIncarnation (io : Written) (policy : Lease.LeasePolicy) :
  Wrote w s (s.beginLeaseIncarnation w io policy).2
  := by
  apply wrote_withWriter h
  intro rs published hwriter hact
  simp only [bind_eq_ok, failIf_eq_ok] at hact
  obtain ⟨-, hsnapshot, next, hnext, hact⟩ := hact
  obtain ⟨rfl, rfl⟩ := Prod.mk.inj (ok.inj hact)
  rw [Bool.not_eq_true, isSome_eq_false_iff, isNone_iff_eq_none] at hsnapshot
  have hpolicy := (Lease.LeaseEpoch.of_successor hnext).1
  rw [← hpolicy] at hnext
  use admits_singleton.mpr (.leaseEpoch hsnapshot hnext)
  intro v' hv'
  rw [View.replay_singleton] at hv'
  change failIf _ _ >>= _ = _ at hv'
  rw [failIf_neg (by simp [hsnapshot]), ok_bind, hnext, ok_bind, failIf_neg (by simp)] at hv'
  exact hv'

theorem Store.wrote_compactRetainedPrefix (io : Written)
    {floor : Position} {conf : ConfState} {appliedAt : Option Position} (decision : Bytes)
    (hfound : s.configurationAtCommitted floor = .ok (.found ⟨floor, appliedAt, conf⟩)) :
  Wrote w s (s.compactRetainedPrefix w io floor conf decision).2
  := by
  unfold configurationAtCommitted at hfound
  split_ifs at hfound with hwriter
  have hgood := h hwriter
  unfold compactRetainedPrefix
  dsimp only
  split_ifs with hshape hfirst hcommit
  · apply Wrote.nothing
  · apply Wrote.nothing
  · apply Wrote.nothing
  · split
    · apply Wrote.nothing
    · split_ifs with hterm
      · apply Wrote.nothing
      · have habove : s.view.mem.cut.index < floor.index := by
          rw [hgood.wf.firstIndex] at hfirst
          omega
        apply wrote_withWriter h
        intro rs published _ hact
        obtain ⟨rfl, rfl⟩ := Prod.mk.inj (ok.inj hact)
        use admits_singleton.mpr (.compaction habove hfound)
        intro v' hv'
        rw [View.replay_singleton] at hv'
        change compactMemory s.view.mem floor conf >>= _ = _ at hv'
        rw [if_pos (not_lt.mp hfirst)] at hv'
        exact hv'

theorem Store.wrote_installProtocolSnapshot (io : Written) (image : Snapshot) (hs : HardState) :
  Wrote w s (s.installProtocolSnapshot w io image hs).2
  := by
  unfold installProtocolSnapshot
  dsimp only
  split
  · apply Wrote.nothing
  · split_ifs with hwriter hlease hagain
    · apply Wrote.nothing
    · apply Wrote.nothing
    · rw [Bool.not_eq_true, isSome_eq_false_iff, isNone_iff_eq_none] at hlease
      split
      · apply Wrote.nothing
      · rename_i hvalid
        apply wrote_write (h hwriter) hwriter (admits_singleton.mpr (.snapshot hlease hvalid))
        intro v' hv'
        rw [View.replay_singleton] at hv'
        change failIf _ _ >>= _ = _ at hv'
        rw [failIf_neg (by simp [hlease]), hvalid] at hv'
        cases happly : s.view.mem.applySnapshot image.cut image.confState with
        | error e =>
          rw [happly] at hv'
          nomatch hv'
        | ok mem =>
          rw [happly] at hv'
          exact hv'
    · apply Wrote.nothing

end

/-! ## Steps -/

/-- The full log after a call that changed the log on disk by adding to it. -/
def Full.after (g : Full) (s s' : Store) : Full := g.records (s'.log.drop s.log.length)

/-- A call on a store, and the full log beside it. -/
inductive Step (w : Wire) : Store × Full → Store × Full → Prop where
  | persistReady {s : Store} {g : Full} (io : Written) {es : List Entry} {hs : Option HardState}
      (hready : Ready s.view es hs) :
      Step w (s, g) ((s.persistReady w io es hs).2, g.after s (s.persistReady w io es hs).2)
  | append {s : Store} {g : Full} (io : Written) {es : List Entry}
      (hready : Ready s.view es none) :
      Step w (s, g) ((s.append w io es).2, g.after s (s.append w io es).2)
  | setHardstate {s : Store} {g : Full} (io : Written) {hs : HardState}
      (hready : Ready s.view [] (some hs)) :
      Step w (s, g) ((s.setHardstate w io hs).2, g.after s (s.setHardstate w io hs).2)
  /-- The peer skips a configuration that is already applied. -/
  | setConfState {s : Store} {g : Full} (io : Written) (cs : ConfState) {index : ℕ}
      (hnew : s.view.confIndex < index) :
      Step w (s, g) ((s.setConfState w io cs index).2, g.after s (s.setConfState w io cs index).2)
  | beginLeaseIncarnation {s : Store} {g : Full} (io : Written) (policy : Lease.LeasePolicy) :
      Step w (s, g) ((s.beginLeaseIncarnation w io policy).2,
        g.after s (s.beginLeaseIncarnation w io policy).2)
  /-- The peer compacts with the configuration that is found for the floor. -/
  | compactRetainedPrefix {s : Store} {g : Full} (io : Written) {floor : Position}
      {conf : ConfState} {appliedAt : Option Position} (decision : Bytes)
      (hfound : s.configurationAtCommitted floor = .ok (.found ⟨floor, appliedAt, conf⟩)) :
      Step w (s, g) ((s.compactRetainedPrefix w io floor conf decision).2,
        g.after s (s.compactRetainedPrefix w io floor conf decision).2)
  | installProtocolSnapshot {s : Store} {g : Full} (io : Written) (image : Snapshot)
      (hs : HardState) :
      Step w (s, g) ((s.installProtocolSnapshot w io image hs).2,
        g.after s (s.installProtocolSnapshot w io image hs).2)
  | rewriteLog {s : Store} {g : Full} (io : Rewritten) (granted : Bool)
      (hdistinct : s.view.Distinct w) : Step w (s, g) ((s.rewriteLog w io granted).2, g)
  | recover {s s' : Store} {g : Full} (h : Store.recover w s.log = .ok s') : Step w (s, g) (s', g)
  | openOn {s s' : Store} {g : Full} (io : Written) (voters : List UInt64)
      (h : Store.openOn w io s.log voters = .ok s') : Step w (s, g) (s', g)

/-- Calls one after the other. -/
def Steps (w : Wire) : Store × Full → Store × Full → Prop := Relation.ReflTransGen (Step w)

/-- The stores that a run reaches, with their full logs. -/
def Reachable (w : Wire) (s : Store) (g : Full) : Prop :=
  ∃ voters s₀, Store.openOn w .synced [] voters = .ok s₀
    ∧ Steps w (s₀, ⟨0, .ofVoters voters, [], []⟩) (s, g)

/-! ## Soundness -/

/-- The log on disk can be replayed, and what it gives is what the store knows. -/
def Sound (w : Wire) (s : Store) (g : Full) (v : View) : Prop :=
  (View.new w).replay w s.log = .ok v ∧ Good w g v ∧ (s.writer → s.view = v) ∧ s.log ≠ []

/-- What is known after a call that adds to the log. -/
theorem Sound.wrote (h : Sound w s g v) (hwrote : Wrote w s s') :
  ∃ rs v', Admits w v rs ∧ v.replay w rs = .ok v' ∧ Sound w s' (g.after s s') v'
  := by
  obtain ⟨hreplay, hgood, hview, hne⟩ := h
  cases hwrote with
  | nothing =>
    refine ⟨[], v, trivial, rfl, hreplay, ?_, hview, hne⟩
    rw [Full.after, drop_length]
    exact hgood
  | @records _ rs n hwriter hrs hlog hview' =>
    obtain rfl := hview hwriter
    obtain ⟨v', hv', hgood'⟩ := hgood.replay hrs n
    refine ⟨rs.take n, v', hrs.take n, hv', ?_, ?_, ?_, ?_⟩
    · rw [hlog, View.replay_append, hreplay, ok_bind, hv']
    · rw [Full.after, hlog, drop_left]
      exact hgood'
    · intro hwriter'
      exact (ok.inj (hv'.symm.trans (hview' hwriter'))).symm
    · rw [hlog]
      simp [hne]

theorem Sound.good (h : Sound w s g v) (hwriter : s.writer) :
  Good w g s.view
  := by
  rw [h.2.2.1 hwriter]
  exact h.2.1

/-- Rewriting leaves the store as it is, or replaces the log and nothing else. -/
theorem Store.rewriteLog_cases (io : Rewritten) (granted : Bool) :
  (s.rewriteLog w io granted).2 = s
    ∨ ∃ rs writer, s.writer ∧ s.view.snapshot = none ∧ s.view.leaseEpoch = none
      ∧ s.view.reclamationRecords w = .ok rs
      ∧ (s.rewriteLog w io granted).2 = ⟨rs, s.view, writer⟩
  := by
  unfold rewriteLog
  by_cases hwriter : s.writer
  · rw [if_neg (not_not.mpr hwriter)]
    by_cases hscope : s.view.snapshot.isSome ∨ s.view.leaseEpoch.isSome
    · rw [if_pos hscope]
      exact .inl rfl
    · rw [if_neg hscope]
      simp only [not_or, Bool.not_eq_true, isSome_eq_false_iff, isNone_iff_eq_none] at hscope
      cases hrecords : s.view.reclamationRecords w with
      | error e => exact .inl rfl
      | ok rs =>
        dsimp only
        by_cases hlength : ∃ r ∈ rs, maxRecordLen ≤ r.length w
        · rw [if_pos hlength]
          exact .inl rfl
        · rw [if_neg hlength]
          cases granted with
          | false => exact .inl rfl
          | true =>
            cases io with
            | notBuilt => exact .inl rfl
            | _ => exact .inr ⟨rs, _, hwriter, hscope.1, hscope.2, rfl, rfl⟩
  · rw [if_pos hwriter]
    exact .inl rfl

/-- Rewriting does not change what the log says. -/
theorem Sound.rewriteLog (h : Sound w s g v) (hdistinct : s.view.Distinct w) (io : Rewritten)
    (granted : Bool) :
  Sound w (s.rewriteLog w io granted).2 g v
  := by
  rcases rewriteLog_cases io granted with
    heq | ⟨rs, writer, hwriter, hsnapshot, hlease, hrecords, heq⟩
  · rw [heq]
    exact h
  · rw [heq]
    have hreplay := (h.good hwriter).replay_reclamation hsnapshot hlease hdistinct hrecords
    rw [h.2.2.1 hwriter] at hreplay
    use hreplay, h.2.1, fun _ => h.2.2.1 hwriter
    rintro rfl
    unfold View.reclamationRecords at hrecords
    simp only [bind_eq_ok] at hrecords
    obtain ⟨_, -, _, -, _, -, hrecords⟩ := hrecords
    exact absurd (ok.inj hrecords) (by simp)

/-- A store that was recovered knows what its log says, and can write. -/
theorem Sound.of_recover (h : Sound w s g v) (hrecover : Store.recover w s.log = .ok s') :
  s' = ⟨s.log, v, true⟩
  := by
  unfold Store.recover at hrecover
  rw [h.1, failIf_neg h.2.2.2] at hrecover
  exact (ok.inj hrecover).symm

theorem Sound.recover (h : Sound w s g v) (hrecover : Store.recover w s.log = .ok s') :
  Sound w s' g v
  := by
  rw [h.of_recover hrecover]
  exact ⟨h.1, h.2.1, fun _ => rfl, h.2.2.2⟩

/-- Opening a log that is there is recovering it. -/
theorem Store.openOn_eq_recover {log : List Record} (hne : log ≠ []) (io : Written)
    (voters : List UInt64) :
  Store.openOn w io log voters = Store.recover w log
  := by
  unfold openOn recover
  simp only [if_pos hne, failIf_neg hne]
  rfl

/-- What the log on disk says changes only by records that some call writes. -/
theorem Sound.step (h : Sound w s g v) (hstep : Step w (s, g) (s', g')) :
  ∃ rs v', Admits w v rs ∧ v.replay w rs = .ok v' ∧ Sound w s' g' v'
  := by
  cases hstep with
  | persistReady io hready => exact h.wrote (wrote_persistReady h.good io hready)
  | append io hready => exact h.wrote (wrote_append h.good io hready)
  | setHardstate io hready => exact h.wrote (wrote_setHardstate h.good io hready)
  | setConfState io cs hnew => exact h.wrote (wrote_setConfState h.good io hnew)
  | beginLeaseIncarnation io policy =>
    exact h.wrote (wrote_beginLeaseIncarnation h.good io policy)
  | compactRetainedPrefix io decision hfound =>
    exact h.wrote (wrote_compactRetainedPrefix h.good io decision hfound)
  | installProtocolSnapshot io image hs =>
    exact h.wrote (wrote_installProtocolSnapshot h.good io image hs)
  | rewriteLog io granted hdistinct =>
    exact ⟨[], v, trivial, rfl, h.rewriteLog hdistinct io granted⟩
  | recover hrecover => exact ⟨[], v, trivial, rfl, h.recover hrecover⟩
  | openOn io voters hopen =>
    rw [openOn_eq_recover h.2.2.2] at hopen
    exact ⟨[], v, trivial, rfl, h.recover hopen⟩

/-- What a fresh store knows. -/
def View.initial (w : Wire) (cs : ConfState) : View :=
  { View.new w with
    confHistory := (View.new w).confHistory.recordInitial cs
    membership := (View.new w).membership.recordInitial w cs
    mem := (View.new w).mem.setConfState cs }

theorem good_initial (w : Wire) (cs : ConfState) :
  Good w ⟨0, cs, [], []⟩ (.initial w cs)
  where
  wf := trivial
  cut_le := le_rfl
  start := rfl
  start_le := le_rfl
  full := trivial
  covered := le_rfl
  entries := rfl
  history := rfl
  ascending := pairwise_singleton ..
  indexed := nofun
  confIndex := nofun
  confIndex_ge := le_rfl
  origin := nofun
  no_base := fun _ => ⟨rfl, rfl⟩
  base := fun hpos => absurd hpos (lt_irrefl 0)
  quiet := nofun
  hashed := rfl
  told := fun _ => ⟨_, rfl, .refl _⟩

theorem sound_openOn {voters : List UInt64} (h : Store.openOn w .synced [] voters = .ok s) :
  Sound w s ⟨0, .ofVoters voters, [], []⟩ (.initial w (.ofVoters voters))
  := by
  unfold Store.openOn Store.withWriter Store.write at h
  rw [View.replay_nil, ok_bind, if_neg (by simp)] at h
  dsimp only at h
  split_ifs at h with hfits
  · nomatch h
  · obtain rfl := ok.inj h
    exact ⟨rfl, good_initial w _, fun _ => rfl, cons_ne_nil _ _⟩
  · nomatch h

/-- In every run the store is sound, and what the log says changes only by records that some call
writes. -/
theorem Sound.steps (h : Sound w s g v) (hsteps : Steps w (s, g) (s', g')) :
  ∃ v', Sound w s' g' v'
    ∧ Relation.ReflTransGen (fun v v' => ∃ r, Admissible w v r ∧ v.replayRecord w r = .ok v') v v'
  := by
  have hrun : ∀ {v v' : View} {rs : List Record}, Admits w v rs → v.replay w rs = .ok v' →
      Relation.ReflTransGen (fun v v' => ∃ r, Admissible w v r ∧ v.replayRecord w r = .ok v') v v' := by
    intro v v' rs hrs hv
    induction rs generalizing v with
    | nil =>
      obtain rfl := ok.inj hv
      exact .refl
    | cons r rs ih =>
      rw [View.replay_cons, bind_eq_ok] at hv
      obtain ⟨v₁, hv₁, hv⟩ := hv
      exact .head ⟨r, hrs.1, hv₁⟩ (ih (hrs.2 v₁ hv₁) hv)
  suffices ∀ p, Steps w (s, g) p → ∃ v', Sound w p.1 p.2 v' ∧ Relation.ReflTransGen
      (fun v v' => ∃ r, Admissible w v r ∧ v.replayRecord w r = .ok v') v v' from this _ hsteps
  intro p hsteps
  induction hsteps with
  | refl => exact ⟨v, h, .refl⟩
  | tail _ hstep ih =>
    obtain ⟨v₁, h₁, hrun₁⟩ := ih
    obtain ⟨rs, v', hrs, hv', h'⟩ := h₁.step hstep
    exact ⟨v', h', hrun₁.trans (hrun hrs hv')⟩

theorem Reachable.sound (h : Reachable w s g) :
  ∃ v, Sound w s g v
  := by
  obtain ⟨voters, s₀, hopen, hsteps⟩ := h
  obtain ⟨v, hv, -⟩ := (sound_openOn hopen).steps hsteps
  exact ⟨v, hv⟩

/-! ## Rewriting keeps the meaning -/

/-- A log that was replaced consists of the records that say what the store knows. -/
theorem Store.of_rewriteLog_true {io : Rewritten} {granted : Bool}
    (h : (s.rewriteLog w io granted).1 = .ok true) :
  s.writer ∧ s.view.reclamationRecords w = .ok (s.rewriteLog w io granted).2.log
  := by
  unfold rewriteLog at h ⊢
  by_cases hwriter : s.writer
  · rw [if_neg (not_not.mpr hwriter)] at h ⊢
    by_cases hscope : s.view.snapshot.isSome ∨ s.view.leaseEpoch.isSome
    · rw [if_pos hscope] at h
      nomatch h
    · rw [if_neg hscope] at h ⊢
      cases hrecords : s.view.reclamationRecords w with
      | error e =>
        rw [hrecords] at h
        nomatch h
      | ok rs =>
        rw [hrecords] at h
        dsimp only at h ⊢
        by_cases hlength : ∃ r ∈ rs, maxRecordLen ≤ r.length w
        · rw [if_pos hlength] at h
          nomatch h
        · rw [if_neg hlength] at h ⊢
          cases granted with
          | false => nomatch h
          | true =>
            cases io with
            | renamed => exact ⟨hwriter, rfl⟩
            | notBuilt => nomatch h
            | notReopened => nomatch h
  · rw [if_pos hwriter] at h
    nomatch h

/-- Libraries with the simplest text forms. -/
def plainWire : Wire where
  sha256 _ := .zero
  confState _ := []
  hardState _ := []
  entry _ := []
  snapshot _ := []
  leaseEpoch _ := []
  fromChange _ := .ok none
  length_hardState _ _ := Nat.zero_le _

/-- A fresh store of three voters. -/
def openedStore : Store :=
  ⟨[.confState (.ofVoters [1, 2, 3])], .initial plainWire (.ofVoters [1, 2, 3]), true⟩

/-- Three entries, all committed; the second changes the configuration. -/
def loggedEntries : List Entry :=
  [⟨.normal, 1, 1, []⟩, ⟨.confChange, 1, 2, []⟩, ⟨.normal, 1, 3, []⟩]

def persistedStore : Store :=
  (openedStore.persistReady plainWire .synced loggedEntries (some ⟨1, 1, 3, []⟩)).2

/-- The change adds a voter. -/
def fourVoters : ConfState := .ofVoters [1, 2, 3, 4]

def appliedStore : Store := (persistedStore.setConfState plainWire .synced fourVoters 2).2

/-- The prefix is dropped up to the change. -/
def compactedStore : Store :=
  (appliedStore.compactRetainedPrefix plainWire .synced ⟨1, 2⟩ fourVoters [1]).2

theorem reachable_appliedStore :
  Reachable plainWire appliedStore ⟨0, .ofVoters [1, 2, 3], [⟨2, fourVoters, none⟩], loggedEntries⟩
  := by
  have hready : Ready openedStore.view loggedEntries (some ⟨1, 1, 3, []⟩) := by
    constructor
    · rintro _ ⟨⟩
      decide
    · rintro _ ⟨⟩
      decide
    · rintro _ ⟨⟩
      decide
    · rintro _ ⟨⟩
      decide
    · rintro _ ⟨⟩
      decide
    · rintro _ ⟨⟩
      decide
  use [1, 2, 3], openedStore, rfl
  apply Relation.ReflTransGen.head (Step.persistReady .synced hready)
  have hnew : persistedStore.view.confIndex < 2 := by decide
  exact .single (Step.setConfState .synced fourVoters hnew)

theorem reachable_compactedStore :
  Reachable plainWire compactedStore
    ⟨0, .ofVoters [1, 2, 3], [⟨2, fourVoters, none⟩], loggedEntries⟩
  := by
  obtain ⟨voters, s₀, hopen, hsteps⟩ := reachable_appliedStore
  have hfound : appliedStore.configurationAtCommitted ⟨1, 2⟩
      = .ok (.found ⟨⟨1, 2⟩, some ⟨1, 2⟩, fourVoters⟩) := rfl
  use voters, s₀, hopen, hsteps.tail (Step.compactRetainedPrefix .synced [1] hfound)

/-- The digest tells the observations of this run apart. -/
theorem distinct_compactedStore :
  compactedStore.view.Distinct plainWire
  := by
  obtain ⟨v, hsound⟩ := reachable_compactedStore.sound
  intro records membership hrecords _
  obtain ⟨mem, -, -, -, hsame, -⟩ := (hsound.good rfl).replay_configurations rfl hrecords
  have hgaps : membership.gaps = compactedStore.view.membership.gaps := by
    rw [← (Prod.mk.inj (ok.inj hrecords)).2]
    rfl
  have hmembers : membership.members = compactedStore.view.membership.members := by
    rw [← (Prod.mk.inj (ok.inj hrecords)).2]
    rfl
  rw [MembershipHistory.text, MembershipHistory.text, MembershipHistory.lastIndex,
    MembershipHistory.lastIndex, hgaps, hmembers, hsame.timeline, hsame.initialObservation,
    hsame.lastChange, hsame.snapshot]

end Kv9.Raft.Storage
