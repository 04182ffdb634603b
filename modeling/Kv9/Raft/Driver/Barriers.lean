import Kv9.Raft.Driver.Answers

/-!
# Read barriers

Every barrier has a context of its own, and only a confirmation of that context lets it go on.
It returns when the watermark, which never falls and covers only what is processed, has reached
the confirmed index.
-/

namespace Kv9.Raft.Driver

open Codec Engine Except Threads List NodeDriver

variable {x : Externals} {confer : Members → CommittedEntry → Except Error Members} {o : Opening}
  {d d' : NodeDriver} {context : Bytes}

/-! ## Contexts -/

theorem readContext_injective {seq seq' : UInt64} (h : d.readContext seq = d.readContext seq') :
  seq = seq'
  := by
  have hbytes := append_cancel_left h
  rw [← fromBe64_be64 seq, hbytes, fromBe64_be64]

/-- A context was minted by this driver. -/
def Minted (d : NodeDriver) (context : Bytes) : Prop :=
  ∃ seq < d.readSeq, context = d.readContext seq

/-- A context belongs to a barrier, and to no asynchronous read. -/
structure Own (d : NodeDriver) (context : Bytes) : Prop where
  minted : Minted d context
  not_async : context ∉ d.history.asyncContexts

/-- The confirmations and the contexts that were handed to the peer. -/
structure Reads (d : NodeDriver) : Prop where
  receipts : d.readReceipts ⊆ d.history.confirmed
  confirmed : ∀ receipt ∈ d.history.confirmed, receipt.1 ∈ d.peer.submitted
  submitted : ∀ context ∈ d.peer.submitted, Minted d context
  async : ∀ context ∈ d.history.asyncContexts, Minted d context

theorem Minted.grows (h : Minted d context) (hgrows : Grows d d') : Minted d' context := by
  obtain ⟨seq, hseq, rfl⟩ := h
  use seq, hseq.trans_le hgrows.readSeq
  rw [NodeDriver.readContext, NodeDriver.readContext, hgrows.readIncarnation]

/-- A context that is being minted was not minted before. -/
theorem not_minted_of_mint (h : d.mintReadContext = some (context, d')) : ¬ Minted d context := by
  rintro ⟨seq, hseq, hcontext⟩
  obtain ⟨rfl, -⟩ := mintReadContext_eq_some h
  rw [readContext_injective hcontext] at hseq
  exact lt_irrefl _ hseq

theorem minted_of_mint (h : d.mintReadContext = some (context, d')) : Minted d' context := by
  obtain ⟨rfl, next, rfl, hlt⟩ := mintReadContext_eq_some h
  exact ⟨d.readSeq, hlt, rfl⟩

namespace Reads

theorem pump (h : Reads d) (hstep : Pump x confer d d') : Reads d' := by
  have hgrows := Grows.pump hstep
  have hminted : ∀ context, Minted d context → Minted d' context := fun _ hm => hm.grows hgrows
  cases hstep with
  | reads states async hidle hfatal hstates =>
    refine ⟨?_, ?_, fun c hc => hminted c (h.submitted c hc), fun c hc => hminted c (h.async c hc)⟩
    · intro receipt hreceipt
      rcases mem_append.mp (Ring.keep_subset hreceipt) with hold | hnew
      · exact mem_append_left _ (h.receipts hold)
      · exact mem_append_right _ (mem_filter.mp hnew).1
    · intro receipt hreceipt
      rcases mem_append.mp hreceipt with hold | hnew
      · exact h.confirmed receipt hold
      · exact hstates receipt hnew
  | publish hpump =>
    rw [NodeDriver.publishDriverApplied]
    split_ifs <;> exact { h with }
  | _ => exact { h with }

theorem mint (h : Reads d) (hmint : d.mintReadContext = some (context, d')) : Reads d' := by
  have hgrows := Grows.mint hmint
  have hminted : ∀ context, Minted d context → Minted d' context := fun _ hm => hm.grows hgrows
  obtain ⟨-, next, rfl, -⟩ := mintReadContext_eq_some hmint
  exact ⟨h.receipts, h.confirmed, fun c hc => hminted c (h.submitted c hc),
    fun c hc => hminted c (h.async c hc)⟩

theorem submit (h : Reads d) (hminted : Minted d context) : Reads (d.submitRead context) := by
  refine ⟨h.receipts, fun receipt hreceipt => ?_, fun c hc => ?_, h.async⟩
  · exact mem_append_left _ (h.confirmed receipt hreceipt)
  · rcases mem_append.mp hc with hc | hc
    · exact h.submitted c hc
    · rw [mem_singleton.mp hc]
      exact hminted

theorem beside (h : Reads d) (hstep : Beside d d') : Reads d' := by
  cases hstep with
  | role leader hint ready => exact { h with }
  | @mint dm context hmint =>
    have hreads := h.mint hmint
    refine ⟨hreads.receipts, hreads.confirmed, hreads.submitted, fun c hc => ?_⟩
    rcases mem_append.mp hc with hc | hc
    · exact hreads.async c hc
    · rw [mem_singleton.mp hc]
      exact (minted_of_mint hmint : Minted dm context)
  | submit hcontext => exact h.submit (h.async _ hcontext)

end Reads

/-- Only newly minted contexts become contexts of asynchronous reads. -/
theorem Own.env (h : Own d context) (hstep : Env x confer d d') : Own d' context := by
  use h.minted.grows (.env hstep)
  rcases hstep with hstep | hstep
  · cases hstep with
    | publish hpump =>
      rw [NodeDriver.publishDriverApplied]
      split_ifs
      · exact h.not_async
      · exact h.not_async
    | _ => exact h.not_async
  · cases hstep with
    | mint hmint =>
      intro hmem
      rcases mem_append.mp hmem with hmem | hmem
      · obtain ⟨-, next, rfl, -⟩ := mintReadContext_eq_some hmint
        exact h.not_async hmem
      · rw [mem_singleton.mp hmem] at h
        exact not_minted_of_mint hmint h.minted
    | _ => exact h.not_async

theorem Own.same (h : Own d context) (hgrows : Grows d d')
    (hasync : d'.history.asyncContexts = d.history.asyncContexts) :
  Own d' context
  := ⟨h.minted.grows hgrows, hasync ▸ h.not_async⟩

/-! ## Barriers -/

/-- What is known of a barrier. -/
def Awaits (d : NodeDriver) : Barrier → Prop
  | .start => True
  | .leading => True
  | .minted context => Own d context ∧ context ∉ d.peer.submitted
  | .submitted context => Own d context
  | .polling context => Own d context
  | .confirmed context index => Own d context ∧ (context, index) ∈ d.history.confirmed
  | .catchingUp context index => Own d context ∧ (context, index) ∈ d.history.confirmed
  | .established context index => Own d context ∧ (context, index) ∈ d.history.confirmed
      ∧ ∃ wm ∈ d.driverApplied, index ≤ wm.index
  | .refused context _ => ∀ c ∈ context, Own d c

variable {ι : Type} {st st' : Barrier} {t : Task}

theorem Awaits.own (h : Awaits d st) : ∀ c ∈ st.context, Own d c := by
  intro c hc
  cases st with
  | start => nomatch hc
  | leading => nomatch hc
  | submitted context =>
    cases hc
    exact h
  | polling context =>
    cases hc
    exact h
  | refused context cause => exact h c hc
  | _ =>
    cases hc
    exact h.1

/-- What is known of a barrier stays true while its context stays its own and, until it is handed
over, is not handed to the peer by another. -/
theorem Awaits.grows (h : Awaits d st) (hgrows : Grows d d')
    (hown : ∀ c ∈ st.context, Own d c → Own d' c)
    (hsubmitted : ∀ c ∈ st.context, c ∉ d.peer.submitted → c ∉ d'.peer.submitted) :
  Awaits d' st
  := by
  have hconfirmed := hgrows.confirmed.subset
  cases st with
  | start => trivial
  | leading => trivial
  | minted context => exact ⟨hown context rfl h.1, hsubmitted context rfl h.2⟩
  | submitted context
  | polling context => exact hown context rfl h
  | confirmed context index
  | catchingUp context index => exact ⟨hown context rfl h.1, hconfirmed h.2⟩
  | established context index =>
    obtain ⟨howned, hmem, wm, hwm, hle⟩ := h
    obtain ⟨wm', hwm', hle'⟩ := hgrows.watermark wm hwm
    use hown context rfl howned, hconfirmed hmem, wm', hwm', hle.trans hle'
  | refused context cause => exact fun c hc => hown c hc (h c hc)

theorem Awaits.step (h : Awaits d st) (hreads : Reads d) (hstep : Barrier.Step d st d' st') :
  Awaits d' st'
  := by
  cases hstep with
  | notLeader hleader => exact nofun
  | exhausted hnone => exact nofun
  | leading hleader => trivial
  | mint hmint =>
    have hfresh := not_minted_of_mint hmint
    have hminted := minted_of_mint hmint
    obtain ⟨-, next, rfl, -⟩ := mintReadContext_eq_some hmint
    exact ⟨⟨hminted, fun hasync => hfresh (hreads.async _ hasync)⟩,
      fun hsubmitted => hfresh (hreads.submitted _ hsubmitted)⟩
  | unready hleader hready
  | poll hfatal
  | unconfirmed hnone
  | catchUp hfatal
  | behind hbehind => exact h
  | submit hleader hready => exact h.1.same (.submit d _) rfl
  | unconfirmedPoisoned hfatal
  | unconfirmedDeadline hnone =>
    intro c hc
    cases hc
    exact h
  | @hit context receipt hhit =>
    have hmem := hreads.receipts (mem_of_find?_eq_some hhit)
    have hcontext : receipt.1 = context := of_decide_eq_true (List.find?_some hhit :)
    rw [← hcontext]
    use hcontext ▸ h, hmem
  | establish hreached => exact ⟨h.1, h.2, reached_iff.mp hreached⟩
  | stopped hrunning hrunning' => exact h.own
  | _ =>
    intro c hc
    cases hc
    exact h.1

/-- A barrier keeps its context, or mints one. -/
theorem context_of_step (hstep : Barrier.Step d st d' st') :
  st'.context = st.context
    ∨ ∃ context, st'.context = some context ∧ d.mintReadContext = some (context, d')
  := by
  cases hstep with
  | mint hmint => exact .inr ⟨_, rfl, hmint⟩
  | _ => exact .inl rfl

/-- The context of a call, if it is a barrier that has one. -/
def taskContext : Task → Option Bytes
  | .barrier st => st.context
  | _ => none

/-- What is known of a call, if it is a barrier. -/
def TaskAwaits (d : NodeDriver) : Task → Prop
  | .barrier st => Awaits d st
  | _ => True

/-- Two calls have no context in common. -/
def Apart (t u : Task) : Prop := ∀ c ∈ taskContext t, c ∉ taskContext u

theorem Apart.symm {u : Task} (h : Apart t u) : Apart u t := fun c hc hc' => h c hc' hc

theorem submitted_env (hown : Own d context) (hstep : Env x confer d d')
    (h : context ∉ d.peer.submitted) :
  context ∉ d'.peer.submitted
  := by
  rcases hstep with hstep | hstep
  · cases hstep with
    | publish hpump =>
      rw [NodeDriver.publishDriverApplied]
      split_ifs
      · exact h
      · exact h
    | _ => exact h
  · cases hstep with
    | role leader hint ready => exact h
    | mint hmint =>
      obtain ⟨-, next, rfl, -⟩ := mintReadContext_eq_some hmint
      exact h
    | submit hcontext =>
      intro hmem
      rcases mem_append.mp hmem with hmem | hmem
      · exact h hmem
      · exact hown.not_async (mem_singleton.mp hmem ▸ hcontext)

/-- The actions of one barrier leave the others what they know. -/
theorem Awaits.other {su : Barrier} (h : Awaits d su)
    (hapart : Apart (.barrier st) (.barrier su)) (hstep : Barrier.Step d st d' st') :
  Awaits d' su
  := by
  have hgrows : Grows d d' := .task (.barrier hstep)
  apply h.grows hgrows
  · intro c _ hown
    apply hown.same hgrows
    cases hstep with
    | mint hmint =>
      obtain ⟨-, next, rfl, -⟩ := mintReadContext_eq_some hmint
      rfl
    | _ => rfl
  · intro c hc hnot
    cases hstep with
    | mint hmint =>
      obtain ⟨-, next, rfl, -⟩ := mintReadContext_eq_some hmint
      exact hnot
    | submit hleader hready =>
      intro hmem
      rcases mem_append.mp hmem with hmem | hmem
      · exact hnot hmem
      · rw [mem_singleton.mp hmem] at hc
        exact hapart _ rfl hc
    | _ => exact hnot

/-- What barriers know holds whatever the pump and the other calls do. -/
theorem keeps_awaits :
  Keeps (Env x confer) Task.Step (fun d => Sound o d ∧ Reads d) TaskAwaits Apart
  where
  env_shared h hstep := ⟨h.1.env hstep, hstep.elim h.2.pump h.2.beside⟩
  env_thread {_ _ t} h hawaits hstep := by
    cases t with
    | barrier st =>
      exact Awaits.grows hawaits (.env hstep) (fun c _ hown => hown.env hstep)
        fun c hc hnot => submitted_env (Awaits.own hawaits c hc) hstep hnot
    | _ => trivial
  act_shared h hawaits hstep := by
    use sound_of_step hstep h.1
    cases hstep with
    | inspect _ => exact h.2
    | confWait _ => exact h.2
    | barrier hstep =>
      cases hstep with
      | mint hmint => exact h.2.mint hmint
      | submit hleader hready => exact h.2.submit hawaits.1.minted
      | _ => exact h.2
  act_own h hawaits hstep := by
    cases hstep with
    | barrier hstep => exact Awaits.step hawaits h.2 hstep
    | _ => trivial
  act_other {_ _ _ _ u} h _ hawaits hapart hstep := by
    cases u with
    | barrier su =>
      cases hstep with
      | barrier hstep => exact Awaits.other hawaits hapart hstep
      | _ => exact hawaits
    | _ => trivial
  act_pair {_ _ _ _ u} h _ hawaits hapart hstep := by
    cases hstep with
    | barrier hstep =>
      rcases context_of_step hstep with hsame | ⟨context, hcontext, hmint⟩
      · intro c hc
        exact hapart c (hsame.symm.trans hc)
      · intro c hc hu
        cases hcontext.symm.trans hc
        cases u with
        | barrier su => exact not_minted_of_mint hmint (Awaits.own hawaits context hu).minted
        | _ => nomatch hu
    | _ => exact nofun
  symm := Apart.symm

theorem awaits_of_fresh (h : t.Fresh) : taskContext t = none ∧ TaskAwaits d t := by
  cases t with
  | barrier st =>
    cases h
    exact ⟨rfl, trivial⟩
  | _ => exact ⟨rfl, trivial⟩

theorem kept_awaits {tasks : ι → Task} (hfresh : ∀ i, (tasks i).Fresh) :
  Kept (fun d => Sound o d ∧ Reads d) TaskAwaits Apart (o.driver, tasks)
  := by
  refine ⟨⟨o.sound, ⟨nofun, nofun, nofun, nofun⟩⟩, fun i => (awaits_of_fresh (hfresh i)).2, ?_⟩
  intro i j _ c hc
  have hnone : taskContext (tasks i) = none := (awaits_of_fresh (d := o.driver) (hfresh i)).1
  cases hnone.symm.trans hc

/-- In every run the watermark does not fall and covers only processed entries; a barrier returns
only after its own context was confirmed, at an index the watermark has reached; a context that
has not been handed over is not confirmed; and no two requests share a context. -/
theorem readBarrier_linearizable {ι : Type} [DecidableEq ι] {tasks : ι → Task}
    {c c' : NodeDriver × (ι → Task)} (hfresh : ∀ i, (tasks i).Fresh)
    (hrun : Steps (Env x confer) Task.Step (o.driver, tasks) c)
    (hlater : Steps (Env x confer) Task.Step c c') :
  (∀ wm ∈ c.1.driverApplied, ∃ wm' ∈ c'.1.driverApplied, wm.index ≤ wm'.index)
    ∧ (∀ wm ∈ c.1.driverApplied, ∀ e ∈ o.log, e.index ≤ wm.index → e ∈ c.1.history.processed)
    ∧ (∀ i context index, c.2 i = .barrier (.established context index) →
      (context, index) ∈ c.1.history.confirmed ∧ context ∈ c.1.peer.submitted
        ∧ ∃ wm ∈ c.1.driverApplied, index ≤ wm.index)
    ∧ (∀ i context, c.2 i = .barrier (.minted context) →
      ∀ index, (context, index) ∉ c.1.history.confirmed)
    ∧ ∀ i, ∀ context ∈ taskContext (c.2 i), context ∉ c.1.history.asyncContexts
      ∧ ∀ j, j ≠ i → context ∉ taskContext (c.2 j)
  := by
  obtain ⟨⟨hsound, hreads⟩, hawaits, hapart⟩ := keeps_awaits.steps hrun (kept_awaits hfresh)
  refine ⟨(Grows.steps hlater).watermark, fun wm hwm e he hle =>
    hsound.processed_of_watermark hwm he hle, ?_, ?_, ?_⟩
  · intro i context index hi
    have hbarrier := hawaits i
    rw [hi] at hbarrier
    exact ⟨hbarrier.2.1, hreads.confirmed _ hbarrier.2.1, hbarrier.2.2⟩
  · intro i context hi index hmem
    have hbarrier := hawaits i
    rw [hi] at hbarrier
    exact hbarrier.2 (hreads.confirmed _ hmem)
  · intro i context hcontext
    constructor
    · cases htask : c.2 i with
      | barrier st =>
        have hbarrier := hawaits i
        rw [htask] at hbarrier hcontext
        exact (Awaits.own hbarrier context hcontext).not_async
      | _ =>
        rw [htask] at hcontext
        nomatch hcontext
    · intro j hj
      exact hapart (Ne.symm hj) context hcontext

/-- A driver that will be handed a barrier of the log. -/
def sampleNoopOpening : Opening :=
  { sampleOpening with
    log := [⟨1, 1, .noop, []⟩]
    committed := by
      constructor
      · simp
      · simp
      · simp
    base_lt := nofun }

/-- The pump processes the barrier of the log. -/
theorem steps_sampleNoop (x : Externals) (d : NodeDriver) (hidle : d.pump = .idle)
    (hfatal : d.fatal = none) (hleft : d.left = [⟨1, 1, .noop, []⟩]) (hmark : d.driverApplied = none) [DecidableEq ι] (tasks : ι → Task) :
  ∃ d', Steps (Env x sampleConfer) Task.Step (d, tasks) (d', tasks) ∧ d'.fatal = none
    ∧ d'.driverApplied = some ⟨1, 1⟩ ∧ d'.readReceipts = d.readReceipts
  := by
  cases d
  subst hidle hfatal hleft hmark
  refine ⟨_, .tail (.tail (.single (.env tasks (.inl (.take 0 rfl rfl ?_))))
    (.env tasks (.inl (.noop rfl rfl)))) (.env tasks (.inl (.publish rfl))), rfl, rfl, rfl⟩
  apply cons_ne_nil

/-- A barrier whose context is confirmed at an index that the pump reaches afterwards. -/
theorem readBarrier_linearizable_established :
  ∃ (x : Externals) (c : NodeDriver × (Unit → Task)) (context : Bytes),
    Steps (Env x sampleConfer) Task.Step (sampleNoopOpening.driver, fun _ => .barrier .start) c
    ∧ c.2 () = .barrier (.established context 1)
    ∧ (context, 1) ∈ c.1.history.confirmed ∧ c.1.driverApplied = some ⟨1, 1⟩
    ∧ ∃ wm ∈ c.1.driverApplied, (1 : UInt64) ≤ wm.index
  := by
  obtain ⟨x⟩ := nonempty_externals
  let context := sampleNoopOpening.driver.readContext 0
  let leading : NodeDriver :=
    { sampleNoopOpening.driver with
      peer := { sampleNoopOpening.driver.peer with leader := true, ready := true } }
  have hlead : Steps (Env x sampleConfer) Task.Step
      (sampleNoopOpening.driver, fun _ : Unit => .barrier .start)
      (leading, fun _ => .barrier .leading) :=
    .tail (.single (.env _ (.inr (.role true none true)))) (.only (.barrier (.leading rfl)))
  have hsubmit : Steps (Env x sampleConfer) Task.Step (leading, fun _ : Unit => .barrier .leading)
      ({ leading with readSeq := 1 }.submitRead context, fun _ => .barrier (.submitted context)) :=
    .tail (.single (.only (.barrier (.mint rfl)))) (.only (.barrier (.submit rfl rfl)))
  let reading := { leading with readSeq := 1 }.submitRead context
  have hreads : Pump x sampleConfer reading (reading.recordReads [(context, 1)] fun _ => false) :=
    .reads _ _ rfl rfl fun state hstate => by
      rw [mem_singleton.mp hstate]
      apply mem_singleton_self
  obtain ⟨d, hpump, hfatal, hmark, hreceipts⟩ := steps_sampleNoop x
    (reading.recordReads [(context, 1)] fun _ => false) rfl rfl rfl rfl
    fun _ : Unit => .barrier (.submitted context)
  have hkeep : (reading.recordReads [(context, 1)] fun _ => false).readReceipts
      = [(context, 1)] :=
    Ring.keep_of_length_le (show 1 ≤ appliedRing by decide)
  have hhit : d.readReceipts.find? (fun receipt => receipt.1 = context) = some (context, 1) := by
    rw [hreceipts, hkeep]
    simp
  have hreached : d.reached 1 = true := by
    rw [NodeDriver.reached, hmark]
    rfl
  have hestablish : Steps (Env x sampleConfer) Task.Step
      (d, fun _ : Unit => .barrier (.submitted context))
      (d, fun _ => .barrier (.established context 1)) :=
    .tail (.tail (.tail (.single (.only (.barrier (.poll hfatal)))) (.only (.barrier (.hit hhit))))
      (.only (.barrier (.catchUp hfatal)))) (.only (.barrier (.establish hreached)))
  have hrun := (((hlead.trans hsubmit).trans (.single (.env _ (.inl hreads)))).trans hpump).trans
    hestablish
  have hfresh : ∀ i : Unit, Task.Fresh ((fun _ => .barrier .start : Unit → Task) i) := fun _ => rfl
  obtain ⟨-, -, hestablished, -⟩ := readBarrier_linearizable hfresh hrun .refl
  obtain ⟨hconfirmed, -, hwm⟩ := hestablished () context 1 rfl
  exact ⟨x, _, context, hrun, rfl, hconfirmed, hmark, hwm⟩

end Kv9.Raft.Driver
