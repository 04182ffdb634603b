import Kv9.Raft.Driver.Waiters

/-!
# What waiters are told

Whatever the pump does between the moments in which a call looks, what the call has seen stays
true: entries stay processed, and watermarks do not fall.  An inspection is therefore exact for
every position above the one the machine was opened at.  A wait for a configuration change is
not: its look at the receipts may be too early, or too late, for the watermarks it reads
afterwards.
-/

namespace Kv9.Raft.Driver

open Codec Engine Except Threads List

variable {x : Externals} {confer : Members → CommittedEntry → Except Error Members} {o : Opening}
  {d d' : NodeDriver} {pos : AppliedPosition}

/-! ## What no step takes back -/

/-- What stays true of a driver whatever happens. -/
structure Grows (d d' : NodeDriver) : Prop where
  processed : d.history.processed <+: d'.history.processed
  applications : d.history.applications <+: d'.history.applications
  confReceipts : d.history.confReceipts <+: d'.history.confReceipts
  confirmed : d.history.confirmed <+: d'.history.confirmed
  watermark : ∀ wm ∈ d.driverApplied, ∃ wm' ∈ d'.driverApplied, wm.index ≤ wm'.index
  readIncarnation : d'.readIncarnation = d.readIncarnation
  readSeq : d.readSeq ≤ d'.readSeq

variable {ι : Type}

namespace Grows

theorem refl (d : NodeDriver) : Grows d d where
  processed := prefix_rfl
  applications := prefix_rfl
  confReceipts := prefix_rfl
  confirmed := prefix_rfl
  watermark wm hwm := ⟨wm, hwm, le_rfl⟩
  readIncarnation := rfl
  readSeq := le_rfl

theorem trans {d'' : NodeDriver} (h : Grows d d') (h' : Grows d' d'') : Grows d d'' where
  processed := h.processed.trans h'.processed
  applications := h.applications.trans h'.applications
  confReceipts := h.confReceipts.trans h'.confReceipts
  confirmed := h.confirmed.trans h'.confirmed
  watermark wm hwm := by
    obtain ⟨wm', hwm', hle⟩ := h.watermark wm hwm
    obtain ⟨wm'', hwm'', hle'⟩ := h'.watermark wm' hwm'
    use wm'', hwm'', hle.trans hle'
  readIncarnation := h'.readIncarnation.trans h.readIncarnation
  readSeq := h.readSeq.trans h'.readSeq

theorem pump (h : Pump x confer d d') : Grows d d' := by
  cases h with
  | noop hpump hkind => exact { refl d with processed := prefix_append _ _ }
  | commands hpump hkind hdecode hgroup hanswer =>
    exact { refl d with
        processed := prefix_append _ _
        applications := prefix_append _ _ }
  | receipt hpump =>
    exact { refl d with
        processed := prefix_append _ _
        confReceipts := prefix_append _ _ }
  | @publish last hpump =>
    rw [NodeDriver.publishDriverApplied]
    split_ifs with hbelow
    · refine { refl d with watermark := ?_ }
      intro wm hwm
      use last, rfl
      rw [Option.mem_def.mp hwm] at hbelow
      exact le_of_lt (of_decide_eq_true hbelow)
    · exact { refl d with }
  | reads states async hidle hfatal hstates =>
    exact { refl d with confirmed := prefix_append _ _ }
  | _ => exact { refl d with }

theorem mint {context : Bytes} (h : d.mintReadContext = some (context, d')) : Grows d d' := by
  obtain ⟨-, next, rfl, hlt⟩ := NodeDriver.mintReadContext_eq_some h
  exact { refl d with readSeq := le_of_lt hlt }

theorem submit (d : NodeDriver) (context : Bytes) : Grows d (d.submitRead context) :=
  { refl d with }

theorem env (h : Env x confer d d') : Grows d d' := by
  rcases h with h | h
  · exact pump h
  · cases h with
    | role leader hint ready => exact { refl d with }
    | mint hmint => exact (mint hmint).trans { refl _ with }
    | submit hcontext => apply submit

theorem task {t t' : Task} (h : Task.Step d t d' t') : Grows d d' := by
  cases h with
  | inspect h => apply refl
  | confWait h => apply refl
  | barrier h =>
    cases h with
    | mint h => exact mint h
    | submit h hready => apply submit
    | _ => apply refl

theorem steps [DecidableEq ι] {c c' : NodeDriver × (ι → Task)}
    (h : Steps (Env x confer) Task.Step c c') :
  Grows c.1 c'.1
  := h.shared refl trans env task

end Grows

/-! ## Inspections -/

/-- No command of the log is at a position. -/
def NoCommandAt (o : Opening) (pos : AppliedPosition) : Prop :=
  ∀ e ∈ o.log, e.kind = .command → e.pos ≠ pos

/-- What an inspection has seen, and what it was told. -/
def Inspected (o : Opening) (d : NodeDriver) (pos : AppliedPosition) : Inspecting → Prop
  | .start => True
  | .unpoisoned => True
  | .sampled wmPassed => wmPassed = true → ∃ wm ∈ d.driverApplied, pos.index ≤ wm.index
  | .told (some (.ok outcome)) => o.machine.applied < pos.index →
      (outcome = .replaced ∧ NoCommandAt o pos)
        ∨ ∃ applied, outcome = .verdict pos applied ∧ (pos, applied) ∈ d.history.applications
  | .told (some (.error _)) => True
  | .told none => True

variable {st st' : Inspecting} {t t' : Task} {tasks : ι → Task}

theorem reached_iff {index : UInt64} :
  d.reached index = true ↔ ∃ wm ∈ d.driverApplied, index ≤ wm.index
  := by
  rw [NodeDriver.reached, Option.any_eq_true]
  simp

theorem Inspected.grows (h : Inspected o d pos st) (hgrows : Grows d d') :
  Inspected o d' pos st
  := by
  cases st with
  | start => trivial
  | unpoisoned => trivial
  | sampled wmPassed =>
    intro hpassed
    obtain ⟨wm, hwm, hle⟩ := h hpassed
    obtain ⟨wm', hwm', hle'⟩ := hgrows.watermark wm hwm
    use wm', hwm', hle.trans hle'
  | told answer =>
    cases answer with
    | none => trivial
    | some answer =>
      cases answer with
      | error e => trivial
      | ok outcome =>
        intro hnew
        rcases h hnew with hreplaced | ⟨applied, houtcome, hmem⟩
        · exact .inl hreplaced
        · exact .inr ⟨applied, houtcome, hgrows.applications.subset hmem⟩

variable {e : CommittedEntry}

namespace Sound

/-- A command in the ring took effect with its outcome, if it is above where the machine was
opened. -/
theorem application_of_ring (h : Sound o d) {r : RingEntry} (hr : r ∈ d.ring)
    (hnew : o.machine.applied < r.index) :
  (r.pos, r.outcome) ∈ d.history.applications
  := by
  rw [h.applies.ring_eq] at hr
  rw [h.applies.applications_eq]
  apply mem_append_right
  apply mem_map.mpr
  exact ⟨r, mem_filter.mpr ⟨Ring.keep_subset hr, decide_eq_true hnew⟩, rfl⟩

/-- A processed command is in the ring, unless the ring is full of later ones. -/
theorem ring_of_processed (h : Sound o d) (he : e ∈ d.history.processed)
    (hkind : e.kind = .command) :
  (∃ r ∈ d.ring, r.pos = e.pos)
    ∨ (d.ring.length = appliedRing ∧ ∀ r ∈ d.ring, e.index < r.index)
  := by
  obtain ⟨r, hr, hpos⟩ := h.applies.receipt_of_entry he hkind
  have hordered : d.history.receipts.Pairwise fun a b => a.index < b.index := by
    have hprocessed := (pairwise_append.mp h.applies.ordered).1
    have hcommands : ((d.history.processed.filter CommittedEntry.isCommand).map
        CommittedEntry.pos).Pairwise fun a b => a.index < b.index :=
      pairwise_map.mpr (hprocessed.sublist filter_sublist)
    rw [← h.applies.receipts_pos] at hcommands
    exact (pairwise_map (f := RingEntry.pos)).mp hcommands
  rw [h.applies.ring_eq]
  rcases Ring.mem_keep_or_evicted appliedRing hordered hr with hkept | ⟨hfull, hlater⟩
  · exact .inl ⟨r, hkept, hpos⟩
  · right
    refine ⟨hfull, fun r' hr' => ?_⟩
    rw [show e.index = r.index from congrArg AppliedPosition.index hpos.symm]
    exact hlater r' hr'

/-- A processed command that the ring does not have, and cannot have had, is none. -/
theorem noCommandAt_of_ring (h : Sound o d)
    (hring : d.ring.find? (fun e => e.index = pos.index) = none)
    (hroom : ¬ (d.ring.length = appliedRing ∧ d.ring.head?.any fun e => pos.index < e.index))
    (hprocessed : ∀ e ∈ o.log, e.pos = pos → e ∈ d.history.processed) :
  NoCommandAt o pos
  := by
  intro e he hkind hpos
  rcases h.ring_of_processed (hprocessed e he hpos) hkind with ⟨r, hr, hr'⟩ | ⟨hfull, hlater⟩
  · have hne := List.find?_eq_none.mp hring r hr
    apply hne
    rw [decide_eq_true_iff, show r.index = e.index from congrArg AppliedPosition.index hr', ← hpos]
    rfl
  · apply hroom
    use hfull
    cases hcases : d.ring with
    | nil =>
      rw [hcases] at hfull
      nomatch hfull
    | cons first ring =>
      apply decide_eq_true
      rw [← hpos]
      apply hlater
      rw [hcases]
      apply mem_cons_self

/-- What an inspection reads under the lock of the ring. -/
theorem inspected_ring (h : Sound o d) {wmPassed : Bool}
    (hpassed : wmPassed = true → ∃ wm ∈ d.driverApplied, pos.index ≤ wm.index) :
  Inspected o d pos (.told (d.inspectRing pos wmPassed))
  := by
  rw [NodeDriver.inspectRing]
  cases hring : d.ring.find? (fun e => e.index = pos.index) with
  | some r =>
    have hmem := mem_of_find?_eq_some hring
    have hindex : r.index = pos.index := of_decide_eq_true (List.find?_some hring :)
    intro hnew
    by_cases hterm : r.term = pos.term
    · have hpos : r.pos = pos := by
        rw [RingEntry.pos, hterm, hindex]
      right
      use r.outcome, by rw [if_pos hterm, hpos]
      rw [← hpos]
      exact h.application_of_ring hmem (hindex ▸ hnew)
    · left
      use if_neg hterm
      -- The entry at that index is the one in the ring, whose term is another one.
      intro e he hkind hpos
      rw [h.applies.ring_eq] at hmem
      obtain ⟨e', he', -, hr⟩ := h.applies.entry_of_receipt (Ring.keep_subset hmem)
      have hsame : e' = e := by
        apply o.entry_unique (h.processed_subset he') he
        rw [show e'.index = r.index from congrArg AppliedPosition.index hr, hindex, ← hpos]
        rfl
      apply hterm
      rw [← hpos, ← hsame, hr]
      rfl
  | none =>
    split_ifs with hroom hreached
    · trivial
    · intro hnew
      refine .inl ⟨rfl, h.noCommandAt_of_ring hring hroom ?_⟩
      intro e he hpos
      have hindex : e.index = pos.index := congrArg AppliedPosition.index hpos
      rcases hreached with hmachine | hwatermark
      · exact h.processed_of_applied he (hindex ▸ hnew) (hindex ▸ hmachine)
      · obtain ⟨wm, hwm, hle⟩ := hpassed hwatermark
        exact h.processed_of_watermark hwm he (hindex ▸ hle)
    · trivial

end Sound

theorem Inspected.step (h : Inspected o d pos st) (hsound : Sound o d)
    (hstep : Inspecting.Step d pos st st') :
  Inspected o d pos st'
  := by
  cases hstep with
  | sample => exact reached_iff.mp
  | inspect => exact hsound.inspected_ring h
  | _ => trivial

/-! ## Waits for configuration changes -/

/-- The receipts that were there when there had been `seen` of them. -/
def receiptsSeen (d : NodeDriver) (seen : ℕ) : List ConfReceiptEntry :=
  Ring.keep confReceiptsKept (d.history.confReceipts.take seen)

theorem receiptsSeen_grows (hgrows : Grows d d') {seen : ℕ}
    (h : seen ≤ d.history.confReceipts.length) :
  receiptsSeen d' seen = receiptsSeen d seen
  := by
  obtain ⟨more, hmore⟩ := hgrows.confReceipts
  rw [receiptsSeen, receiptsSeen, ← hmore, take_append_of_le_length h]

/-- The position of every receipt lies in the log. -/
theorem Sound.entry_of_confReceipt (h : Sound o d) {r : ConfReceiptEntry}
    (hr : r ∈ d.history.confReceipts) :
  ∃ e ∈ d.history.processed, e.isConf = true ∧ e.pos = r.pos
  := by
  have hmem := mem_map_of_mem (f := ConfReceiptEntry.pos) hr
  rw [h.confers.receipts_pos] at hmem
  obtain ⟨e, he, hpos⟩ := mem_map.mp hmem
  use e, (mem_filter.mp he).1, (mem_filter.mp he).2, hpos

theorem Sound.confReceipt_of_entry (h : Sound o d) (he : e ∈ d.history.processed)
    (hkind : e.isConf = true) :
  ∃ r ∈ d.history.confReceipts, r.pos = e.pos
  := by
  have hmem := mem_map_of_mem (f := CommittedEntry.pos) (mem_filter.mpr ⟨he, hkind⟩)
  rw [← h.confers.receipts_pos] at hmem
  exact mem_map.mp hmem

/-- What the peer has passed in this life is processed. -/
theorem Sound.processed_of_confApplied (h : Sound o d) (he : e ∈ o.log)
    (hnew : o.confApplied < e.index) (hlt : e.index < d.peer.confApplied) :
  e ∈ d.history.processed
  := by
  rcases h.confers.confApplied_from with hsame | ⟨e', he', hindex⟩
  · rw [hsame] at hlt
    exact absurd hlt (not_lt.mpr (le_of_lt hnew))
  rw [← hindex] at hlt
  rcases mem_append.mp he' with he' | he'
  · exact h.processed_of_le (mem_filter.mp he').1 he (le_of_lt hlt)
  -- The change that the peer applied last is the first one that is not yet processed.
  have hmem := he
  rw [← h.applies.log_eq] at hmem
  rcases mem_append.mp hmem with hmem | hmem
  · exact hmem
  exfalso
  have hordered := (pairwise_append.mp h.applies.ordered).2.1
  cases hpump : d.pump with
  | receipting entry members rest =>
    rw [hpump] at he' hmem hordered
    rw [mem_singleton.mp he'] at hlt
    rcases mem_cons.mp hmem with rfl | hmem
    · exact lt_irrefl _ hlt
    · exact absurd hlt (not_lt.mpr (le_of_lt ((pairwise_cons.mp hordered).1 e hmem)))
  | _ =>
    rw [hpump] at he'
    nomatch he'

/-- The entry at a position is processed, and the waiter did not see its receipt. -/
def Unseen (o : Opening) (d : NodeDriver) (pos : AppliedPosition) (seen : ℕ) : Prop :=
  o.machine.applied < pos.index → o.confApplied < pos.index →
    ∀ e ∈ o.log, e.isConf = true → e.pos = pos →
      e ∈ d.history.processed ∧ ∀ r ∈ receiptsSeen d seen, r.pos ≠ pos

/-- What a waiter for a configuration change has seen, and what it was told. -/
def Waited (o : Opening) (d : NodeDriver) (pos : AppliedPosition) : ConfWaiting → Prop
  | .missed seen => seen ≤ d.history.confReceipts.length ∧ ∀ r ∈ receiptsSeen d seen, r.pos ≠ pos
  | .behind seen => seen ≤ d.history.confReceipts.length ∧ ∀ r ∈ receiptsSeen d seen, r.pos ≠ pos
  | .told (.error (.overwritten _)) seen =>
    seen ≤ d.history.confReceipts.length ∧ Unseen o d pos seen
  | _ => True

theorem Waited.grows {st : ConfWaiting} (h : Waited o d pos st) (hgrows : Grows d d') :
  Waited o d' pos st
  := by
  have hlength := hgrows.confReceipts.length_le
  cases st with
  | missed seen
  | behind seen =>
    use h.1.trans hlength
    rw [receiptsSeen_grows hgrows h.1]
    exact h.2
  | told answer seen =>
    cases answer with
    | ok receipt => trivial
    | error cause =>
      cases cause with
      | overwritten p =>
        refine ⟨h.1.trans hlength, fun hmachine hpeer e he hkind hpos => ?_⟩
        rw [receiptsSeen_grows hgrows h.1]
        obtain ⟨hprocessed, hunseen⟩ := h.2 hmachine hpeer e he hkind hpos
        use hgrows.processed.subset hprocessed, hunseen
      | _ => trivial
  | _ => trivial

theorem Waited.step {st st' : ConfWaiting} (h : Waited o d pos st) (hsound : Sound o d)
    (hstep : ConfWaiting.Step d pos st st') :
  Waited o d pos st'
  := by
  have hkept : d.confReceipts = receiptsSeen d d.history.confReceipts.length := by
    rw [hsound.confers.receipts_eq, receiptsSeen, take_length]
  cases hstep with
  | @found r hfound =>
    have hmem : r ∈ d.history.confReceipts := by
      have := mem_of_find?_eq_some hfound
      rw [hsound.confers.receipts_eq] at this
      exact Ring.keep_subset this
    have hindex : r.index = pos.index := of_decide_eq_true (List.find?_some hfound :)
    rw [ConfReceiptEntry.answer]
    split_ifs with hterm
    · refine ⟨le_rfl, fun _ _ e he hkind hpos => ?_⟩
      -- The entry at that index is the one of the receipt, whose term is another one.
      obtain ⟨e', he', -, hr⟩ := hsound.entry_of_confReceipt hmem
      have hsame : e' = e := by
        apply o.entry_unique (hsound.processed_subset he') he
        rw [show e'.index = r.index from congrArg AppliedPosition.index hr, hindex, ← hpos]
        rfl
      exfalso
      apply hterm
      rw [← hpos, ← hsame, hr]
      rfl
    · trivial
  | missed hmissed =>
    refine ⟨le_rfl, fun r hr hpos => ?_⟩
    rw [← hkept] at hr
    exact List.find?_eq_none.mp hmissed r hr (decide_eq_true (congrArg AppliedPosition.index hpos))
  | passedPeer hpassed =>
    refine ⟨h.1, fun _ hpeer e he _ hpos => ⟨?_, h.2⟩⟩
    have hindex : e.index = pos.index := congrArg AppliedPosition.index hpos
    exact hsound.processed_of_confApplied he (hindex ▸ hpeer) (hindex ▸ hpassed)
  | notPassedPeer hbehind => exact h
  | passedMachine hpassed =>
    refine ⟨h.1, fun hmachine _ e he _ hpos => ⟨?_, h.2⟩⟩
    have hindex : e.index = pos.index := congrArg AppliedPosition.index hpos
    exact hsound.processed_of_applied he (hindex ▸ hmachine) (hindex ▸ hpassed)
  | _ => trivial

/-! ## Answers -/

/-- What a call has seen and was told. -/
def Told (o : Opening) (d : NodeDriver) : Task → Prop
  | .inspect pos st => Inspected o d pos st
  | .confWait pos st => Waited o d pos st
  | .barrier _ => True

theorem Told.grows (h : Told o d t) (hgrows : Grows d d') : Told o d' t := by
  cases t with
  | inspect pos st => exact Inspected.grows h hgrows
  | confWait pos st => exact Waited.grows h hgrows
  | barrier st => trivial

theorem sound_of_step (h : Task.Step d t d' t') (hsound : Sound o d) :
  Sound o d'
  := by
  cases h with
  | inspect h => exact hsound
  | confWait h => exact hsound
  | barrier h =>
    cases h with
    | mint h => exact hsound.mint h
    | submit h hready => apply hsound.submit
    | _ => exact hsound

/-- What calls are told holds whatever the pump and the other calls do. -/
theorem keeps_told : Keeps (Env x confer) Task.Step (Sound o) (Told o) fun _ _ => True where
  env_shared hsound hstep := hsound.env hstep
  env_thread _ htold hstep := htold.grows (.env hstep)
  act_shared hsound _ hstep := sound_of_step hstep hsound
  act_own hsound htold hstep := by
    cases hstep with
    | inspect h => exact Inspected.step htold hsound h
    | confWait h => exact Waited.step htold hsound h
    | barrier h => trivial
  act_other _ _ htold _ hstep := htold.grows (.task hstep)
  act_pair _ _ _ _ _ := trivial
  symm _ := trivial

theorem told_of_fresh (h : t.Fresh) : Told o d t := by
  cases t with
  | barrier st => trivial
  | _ =>
    cases h
    trivial

theorem kept_told (hfresh : ∀ i, (tasks i).Fresh) :
  Kept (Sound o) (Told o) (fun _ _ => True) (o.driver, tasks)
  := ⟨o.sound, fun i => told_of_fresh (hfresh i), fun _ _ _ => trivial⟩

namespace Sound

/-- Above where the machine was opened, what took effect is a command of the log. -/
theorem receipt_of_application (h : Sound o d) {applied : ApplyOutcome}
    (hmem : (pos, applied) ∈ d.history.applications) (hnew : o.machine.applied < pos.index) :
  ∃ r ∈ d.history.receipts, r.pos = pos ∧ r.outcome = applied
  := by
  rw [h.applies.applications_eq] at hmem
  rcases mem_append.mp hmem with hmem | hmem
  · exact absurd (o.applications_le _ hmem) (not_le.mpr hnew)
  · obtain ⟨r, hr, heq⟩ := mem_map.mp hmem
    cases heq
    exact ⟨r, (mem_filter.mp hr).1, rfl, rfl⟩

/-- A position that is not in the log does not take effect. -/
theorem not_applied (h : Sound o d) (hnone : NoCommandAt o pos)
    (hnew : o.machine.applied < pos.index) (applied : ApplyOutcome) :
  (pos, applied) ∉ d.history.applications
  := by
  intro hmem
  obtain ⟨r, hr, hpos, -⟩ := h.receipt_of_application hmem hnew
  obtain ⟨e, he, hkind, hentry⟩ := h.applies.entry_of_receipt hr
  exact hnone e (h.processed_subset he) hkind (hentry.trans hpos)

/-- A command takes effect once. -/
theorem application_unique (h : Sound o d) {applied applied' : ApplyOutcome}
    (hmem : (pos, applied) ∈ d.history.applications)
    (hmem' : (pos, applied') ∈ d.history.applications) (hnew : o.machine.applied < pos.index) :
  applied = applied'
  := by
  obtain ⟨r, hr, hpos, rfl⟩ := h.receipt_of_application hmem hnew
  obtain ⟨r', hr', hpos', rfl⟩ := h.receipt_of_application hmem' hnew
  have hsame : r = r' := by
    apply inj_on_of_nodup_map _ hr hr' (hpos.trans hpos'.symm)
    rw [h.applies.receipts_pos]
    have hlog : (o.log.map CommittedEntry.pos).Nodup := by
      apply pairwise_map.mpr
      apply o.committed.ordered.imp
      intro e e' hlt heq
      exact ne_of_lt hlt.1 (congrArg AppliedPosition.index heq :)
    apply List.Nodup.sublist _ hlog
    apply List.Sublist.map
    apply filter_sublist.trans
    rw [← h.applies.log_eq]
    apply sublist_append_left
  rw [hsame]

end Sound

namespace Sound

/-- Above where the peer was opened, a change that took effect is in the log. -/
theorem entry_of_confChange (h : Sound o d) (hmem : pos ∈ d.history.confChanges)
    (hnew : o.confApplied < pos.index) :
  ∃ e ∈ o.log, e.isConf = true ∧ e.pos = pos
  := by
  rw [h.confers.changes_eq] at hmem
  rcases mem_append.mp hmem with hmem | hmem
  · exact absurd (o.confChanges_le _ hmem) (not_le.mpr hnew)
  obtain ⟨e, he, hpos⟩ := mem_map.mp hmem
  refine ⟨e, ?_, ?_, hpos⟩
  · rw [← h.applies.log_eq]
    rcases mem_append.mp (mem_filter.mp he).1 with he | he
    · exact mem_append_left _ (mem_filter.mp he).1
    · apply mem_append_right
      apply mem_append_left
      exact PumpAt.mem_entries_of_unreceipted he
  · rcases mem_append.mp (mem_filter.mp he).1 with he | he
    · exact (mem_filter.mp he).2
    · exact h.confers.unreceipted_conf e he

end Sound

/-- An inspection of a position above the one the machine was opened at is exact: a verdict is
the one with which exactly that entry took effect, and what is said to be replaced does not take
effect, then or later. -/
theorem inspectApplied_exact {ι : Type} [DecidableEq ι] {tasks : ι → Task}
    {c c' : NodeDriver × (ι → Task)} (hfresh : ∀ i, (tasks i).Fresh)
    (hrun : Steps (Env x confer) Task.Step (o.driver, tasks) c)
    (hlater : Steps (Env x confer) Task.Step c c') {i : ι} {outcome : ApplyWaitOutcome}
    (htold : c.2 i = .inspect pos (.told (some (.ok outcome))))
    (hnew : o.machine.applied < pos.index) :
  (outcome = .replaced ∧ ∀ applied, (pos, applied) ∉ c'.1.history.applications)
    ∨ ∃ applied, outcome = .verdict pos applied ∧ (pos, applied) ∈ c.1.history.applications
      ∧ ∀ applied', (pos, applied') ∈ c'.1.history.applications → applied' = applied
  := by
  have hkept := keeps_told.steps hrun (kept_told hfresh)
  have hsound' := (keeps_told.steps hlater hkept).1
  obtain ⟨hsound, hJ, -⟩ := hkept
  have hinspected := hJ i
  rw [htold] at hinspected
  rcases hinspected hnew with ⟨hreplaced, hnone⟩ | ⟨applied, hverdict, hmem⟩
  · left
    use hreplaced, fun applied => hsound'.not_applied hnone hnew applied
  · right
    have hgrows : Grows c.1 c'.1 := Grows.steps hlater
    refine ⟨applied, hverdict, hmem, fun applied' hmem' => ?_⟩
    exact hsound'.application_unique hmem' (hgrows.applications.subset hmem) hnew

/-- A peer that accepts every configuration change and keeps the members. -/
def sampleConfer : Members → CommittedEntry → Except Error Members := fun members _ => .ok members

/-- The machine that has written a value. -/
def sampleWritten : Machine := Machine.sampleMachine.after [.put .default sampleKey [9]] ⟨1, 1⟩

theorem committedLog_sampleWrite : CommittedLog [sampleWrite 1] := by
  constructor
  · simp
  · simp [sampleWrite]
  · simp [sampleWrite]

/-- A first life, in which a value will be written. -/
def sampleOpening : Opening where
  machine := Machine.sampleMachine
  base := none
  confApplied := 0
  members := ⟨[1], []⟩
  readIncarnation := List.replicate 16 0
  log := [sampleWrite 1]
  applications := []
  confChanges := []
  committed := committedLog_sampleWrite
  base_le := nofun
  base_lt := nofun
  applications_le := nofun
  confChanges_le := nofun

/-- The life after it. -/
def sampleReopening : Opening :=
  { sampleOpening with
    machine := sampleWritten
    applications := [(⟨1, 1⟩, .plain)]
    base_le := nofun
    applications_le := fun a ha => by
      rw [List.mem_singleton.mp ha]
      exact le_refl (1 : UInt64) }

/-- In the first life the value is written. -/
theorem steps_sampleOpening (x : Externals) [DecidableEq ι] (tasks : ι → Task) :
  ∃ d, Steps (Env x sampleConfer) Task.Step (sampleOpening.driver, tasks) (d, tasks)
    ∧ d.machine = sampleWritten ∧ d.fatal = none ∧ d.driverApplied = none
    ∧ d.ring = [⟨1, 1, .plain⟩] ∧ d.history.applications = [(⟨1, 1⟩, .plain)]
  := by
  have hgroup : grouped Machine.sampleMachine (sampleWrite 1) (.put 0 sampleKey [9]) []
      = ([], []) := by
    rw [grouped]
    split_ifs <;> rfl
  have hanswer : answerCommands x Machine.sampleMachine (sampleWrite 1).pos
      (.put 0 sampleKey [9]) [] = .ok (sampleWritten, [⟨1, .plain⟩]) := by
    rfl
  have htake : Pump x sampleConfer sampleOpening.driver
      { sampleOpening.driver with pump := .applying [sampleWrite 1] ⟨0, 0⟩, left := [] } :=
    .take 0 rfl rfl (cons_ne_nil _ _)
  have hcommands : Pump x sampleConfer
      { sampleOpening.driver with pump := .applying [sampleWrite 1] ⟨0, 0⟩, left := [] } _ :=
    .commands rfl rfl (decode_sampleWrite 1) hgroup hanswer
  refine ⟨_, .tail (.single (.env tasks (.inl htake))) (.env tasks (.inl hcommands)), rfl, rfl,
    rfl, ?_, rfl⟩
  exact Ring.keep_of_length_le (show 1 ≤ appliedRing by decide)

/-- An inspection without anything in between. -/
theorem steps_inspect (d : NodeDriver) (hfatal : d.fatal = none) (pos : AppliedPosition) :
  Steps (Env x confer) Task.Step (d, fun _ : Unit => .inspect pos .start)
    (d, fun _ => .inspect pos (.told (d.inspectRing pos (d.reached pos.index))))
  :=
  .tail (.tail (.single (.only (.inspect (.unpoisoned hfatal)))) (.only (.inspect .sample)))
    (.only (.inspect .inspect))

/-- A value that is written and inspected in the same life. -/
theorem inspectApplied_exact_written :
  ∃ (x : Externals) (c : NodeDriver × (Unit → Task)),
    Steps (Env x sampleConfer) Task.Step
      (sampleOpening.driver, fun _ => .inspect ⟨1, 1⟩ .start) c
    ∧ c.2 () = .inspect ⟨1, 1⟩ (.told (some (.ok (.applied ⟨1, 1⟩))))
    ∧ (⟨1, 1⟩, .plain) ∈ c.1.history.applications
  := by
  obtain ⟨x⟩ := nonempty_externals
  obtain ⟨d, hsteps, -, hfatal, hmark, hring, -⟩ :=
    steps_sampleOpening x fun _ : Unit => .inspect ⟨1, 1⟩ .start
  have hrun := hsteps.trans (steps_inspect d hfatal ⟨1, 1⟩)
  have htold : d.inspectRing ⟨1, 1⟩ (d.reached 1) = some (.ok (.applied ⟨1, 1⟩)) := by
    rw [NodeDriver.inspectRing, hring]
    rfl
  rw [htold] at hrun
  have hfresh : ∀ i : Unit, Task.Fresh ((fun _ => .inspect ⟨1, 1⟩ .start : Unit → Task) i) :=
    fun _ => rfl
  refine ⟨x, _, hrun, rfl, ?_⟩
  rcases inspectApplied_exact hfresh hrun .refl (i := ()) rfl (by decide) with
    ⟨hreplaced, -⟩ | ⟨applied, hverdict, hmem, -⟩
  · nomatch hreplaced
  · cases applied with
    | plain => exact hmem
    | _ => nomatch hverdict

/-- A driver that is opened again, over the machine that has written the value, says that the
write was replaced. -/
theorem inspectApplied_after_reopen :
  ∃ (x : Externals) (c c' : NodeDriver × (Unit → Task)),
    Steps (Env x sampleConfer) Task.Step
      (sampleOpening.driver, fun _ => .inspect ⟨1, 1⟩ .start) c
    ∧ c.1.machine.reopen = .ok sampleReopening.machine
    ∧ sampleReopening.applications = c.1.history.applications
    ∧ sampleReopening.log = sampleOpening.log
    ∧ Steps (Env x sampleConfer) Task.Step
      (sampleReopening.driver, fun _ => .inspect ⟨1, 1⟩ .start) c'
    ∧ c'.2 () = .inspect ⟨1, 1⟩ (.told (some (.ok .replaced)))
    ∧ (⟨1, 1⟩, .plain) ∈ c'.1.history.applications
  := by
  obtain ⟨x⟩ := nonempty_externals
  obtain ⟨d, hsteps, hmachine, -, -, -, happlications⟩ :=
    steps_sampleOpening x fun _ : Unit => .inspect ⟨1, 1⟩ .start
  have hreopen : sampleWritten.reopen = .ok sampleWritten := rfl
  refine ⟨x, (d, _), _, hsteps, ?_, happlications.symm, rfl,
    steps_inspect sampleReopening.driver rfl ⟨1, 1⟩, ?_, mem_singleton_self _⟩
  · rw [hmachine]
    exact hreopen
  · rfl

/-- A wait that says a change was overwritten is right about a position above those the driver
was opened at, unless the receipt came only after the waiter had looked for it, or had been
evicted by then: the change does not take effect, then or later. -/
theorem waitConfApplied_overwritten {ι : Type} [DecidableEq ι] {tasks : ι → Task}
    {c c' : NodeDriver × (ι → Task)} (hfresh : ∀ i, (tasks i).Fresh)
    (hrun : Steps (Env x confer) Task.Step (o.driver, tasks) c)
    (hlater : Steps (Env x confer) Task.Step c c') {i : ι} {p : AppliedPosition} {seen : ℕ}
    (htold : c.2 i = .confWait pos (.told (.error (.overwritten p)) seen))
    (hmachine : o.machine.applied < pos.index) (hpeer : o.confApplied < pos.index)
    (hseen : ∀ k r, c.1.history.confReceipts[k]? = some r → r.pos = pos →
      k < seen ∧ seen ≤ k + confReceiptsKept) :
  pos ∉ c'.1.history.confChanges
  := by
  have hkept := keeps_told.steps hrun (kept_told hfresh)
  have hsound' := (keeps_told.steps hlater hkept).1
  obtain ⟨hsound, hJ, -⟩ := hkept
  have hwaited := hJ i
  rw [htold] at hwaited
  intro hchange
  obtain ⟨e, he, hkind, hpos⟩ := hsound'.entry_of_confChange hchange hpeer
  obtain ⟨hprocessed, hunseen⟩ := hwaited.2 hmachine hpeer e he hkind hpos
  obtain ⟨r, hr, hreceipt⟩ := hsound.confReceipt_of_entry hprocessed hkind
  obtain ⟨k, hk⟩ := List.getElem?_of_mem hr
  obtain ⟨hbefore, hkept⟩ := hseen k r hk (hreceipt.trans hpos)
  apply hunseen r _ (hreceipt.trans hpos)
  have htake : (c.1.history.confReceipts.take seen)[k]? = some r := by
    rw [List.getElem?_take_of_lt hbefore]
    exact hk
  apply Ring.mem_keep_of_getElem? htake
  exact (length_take_le _ _).trans hkept

/-- A change of the configuration. -/
def sampleConf (term index : UInt64) : CommittedEntry := ⟨index, term, .confChangeV2, []⟩

/-- A driver that will be handed two changes of the configuration. -/
def sampleConfOpening (term : UInt64) (hterm : term ≠ 0) : Opening where
  machine := Machine.sampleMachine
  base := none
  confApplied := 0
  members := ⟨[1], []⟩
  readIncarnation := List.replicate 16 0
  log := [sampleConf term 1, sampleConf term 2]
  applications := []
  confChanges := []
  committed := by
    constructor
    · simp [sampleConf]
    · simp [sampleConf]
    · simpa [sampleConf] using hterm
  base_le := nofun
  base_lt := nofun
  applications_le := nofun
  confChanges_le := nofun

/-- The driver to which both changes are handed, and which has receipted the first one. -/
theorem steps_sampleConf (x : Externals) (term : UInt64) (hterm : term ≠ 0) [DecidableEq ι]
    (tasks : ι → Task) :
  ∃ d, Steps (Env x sampleConfer) Task.Step ((sampleConfOpening term hterm).driver, tasks) (d, tasks)
    ∧ d.fatal = none ∧ d.pump = .applying [sampleConf term 2] ⟨term, 1⟩
    ∧ d.peer.confApplied = 1 ∧ d.peer.members = ⟨[1], []⟩
    ∧ d.confReceipts = [⟨1, term, ⟨[1], []⟩⟩]
    ∧ d.history.confReceipts = [⟨1, term, ⟨[1], []⟩⟩] ∧ d.history.confChanges = [⟨term, 1⟩]
  := by
  have htake : Pump x sampleConfer (sampleConfOpening term hterm).driver
      { (sampleConfOpening term hterm).driver with
        pump := .applying [sampleConf term 1, sampleConf term 2] ⟨0, 0⟩, left := [] } :=
    .take 1 rfl rfl (cons_ne_nil _ _)
  have hchange : Pump x sampleConfer { (sampleConfOpening term hterm).driver with
        pump := .applying [sampleConf term 1, sampleConf term 2] ⟨0, 0⟩, left := [] } _ :=
    .confChange rfl rfl (show (0 : UInt64) < 1 by decide) rfl
  refine ⟨_, .tail (.tail (.single (.env tasks (.inl htake))) (.env tasks (.inl hchange)))
    (.env tasks (.inl (.receipt rfl))), rfl, rfl, rfl, rfl, ?_, rfl, rfl⟩
  exact Ring.keep_of_length_le (show 1 ≤ confReceiptsKept by decide)

/-- A change that another leader's change at the same index has overwritten. -/
theorem waitConfApplied_overwritten_leader :
  ∃ (x : Externals) (c : NodeDriver × (Unit → Task)),
    Steps (Env x sampleConfer) Task.Step
      ((sampleConfOpening 2 (by decide)).driver, fun _ => .confWait ⟨1, 1⟩ .start) c
    ∧ c.2 () = .confWait ⟨1, 1⟩ (.told (.error (.overwritten ⟨1, 1⟩)) 1)
    ∧ (⟨1, 1⟩ : AppliedPosition) ∉ c.1.history.confChanges
  := by
  obtain ⟨x⟩ := nonempty_externals
  obtain ⟨d, hsteps, hfatal, -, -, -, hreceipts, hhistory, -⟩ :=
    steps_sampleConf x 2 (by decide) fun _ : Unit => .confWait ⟨1, 1⟩ .start
  have hfound : d.confReceipts.find? (fun r => r.index = (⟨1, 1⟩ : AppliedPosition).index)
      = some ⟨1, 2, ⟨[1], []⟩⟩ := by
    rw [hreceipts]
    rfl
  have hrun : Steps (Env x sampleConfer) Task.Step
      ((sampleConfOpening 2 (by decide)).driver, fun _ : Unit => .confWait ⟨1, 1⟩ .start)
      (d, fun _ => .confWait ⟨1, 1⟩
        (.told (.error (.overwritten ⟨1, 1⟩)) d.history.confReceipts.length)) :=
    .tail (.tail hsteps (.only (.confWait (.unpoisoned hfatal)))) (.only (.confWait (.found hfound)))
  have hfresh : ∀ i : Unit, Task.Fresh ((fun _ => .confWait ⟨1, 1⟩ .start : Unit → Task) i) :=
    fun _ => rfl
  refine ⟨x, _, hrun, by rw [hhistory]; rfl, ?_⟩
  apply waitConfApplied_overwritten hfresh hrun .refl (i := ()) rfl (by decide) (by decide)
  intro k r hk hpos
  have hmem := mem_of_getElem? hk
  rw [hhistory] at hmem
  rw [mem_singleton.mp hmem] at hpos
  nomatch hpos

/-- The waiter finds no receipt; then the pump applies and receipts the change and goes on to the
next one; and then the peer tells the waiter that the change was passed without a receipt. -/
theorem waitConfApplied_races_receipt :
  ∃ (x : Externals) (c : NodeDriver × (Unit → Task)),
    Steps (Env x sampleConfer) Task.Step
      ((sampleConfOpening 1 (by decide)).driver, fun _ => .confWait ⟨1, 1⟩ .start) c
    ∧ c.2 () = .confWait ⟨1, 1⟩ (.told (.error (.overwritten ⟨1, 1⟩)) 0)
    ∧ (⟨1, 1⟩ : AppliedPosition) ∈ c.1.history.confChanges
    ∧ (⟨1, 1, ⟨[1], []⟩⟩ : ConfReceiptEntry) ∈ c.1.confReceipts
  := by
  obtain ⟨x⟩ := nonempty_externals
  obtain ⟨d, hsteps, -, hpump, hconf, hmembers, hreceipts, -, hchanges⟩ :=
    steps_sampleConf x 1 (by decide) fun _ : Unit => .confWait ⟨1, 1⟩ (.missed 0)
  have hmissed : Steps (Env x sampleConfer) Task.Step
      ((sampleConfOpening 1 (by decide)).driver, fun _ : Unit => .confWait ⟨1, 1⟩ .start)
      ((sampleConfOpening 1 (by decide)).driver, fun _ => .confWait ⟨1, 1⟩ (.missed 0)) :=
    .tail (.single (.only (.confWait (.unpoisoned rfl)))) (.only (.confWait (.missed rfl)))
  have hnext : Pump x sampleConfer d { d.recordConfChange (sampleConf 1 2) ⟨[1], []⟩ with
        pump := .receipting (sampleConf 1 2) ⟨[1], []⟩ [] } :=
    .confChange hpump rfl (by rw [hconf]; decide) (by rw [hmembers]; rfl)
  have hpassed : Steps (Env x sampleConfer) Task.Step
      (d, fun _ : Unit => .confWait ⟨1, 1⟩ (.missed 0)) _ :=
    .tail (.single (.env _ (.inl hnext)))
      (.only (.confWait (.passedPeer (show (1 : UInt64) < 2 by decide))))
  refine ⟨x, _, (hmissed.trans hsteps).trans hpassed, rfl, ?_, ?_⟩
  · apply mem_append_left
    rw [hchanges]
    apply mem_singleton_self
  · change _ ∈ d.confReceipts
    rw [hreceipts]
    apply mem_singleton_self

end Kv9.Raft.Driver
