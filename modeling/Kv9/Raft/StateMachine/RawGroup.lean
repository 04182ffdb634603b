import Kv9.Lib.Stateful
import Kv9.Raft.StateMachine.Judged

/-!
# Applying a group of raw writes

Whatever judges the fences, a group that is applied leaves the machine where its commands leave
it one by one, with the same answers: the verdicts of a judge that takes part do not depend on
the values that the commands of the group write.  The group is written to the engine at its end,
with one positioned write, and a group that fails leaves the machine as it was.
-/

namespace Kv9.Raft

open Codec Engine Except RawTtl

/-- A batch of clients' values. -/
def ClientBatch (batch : WriteBatch) : Prop :=
  ∀ m ∈ batch, m.cf = .default ∧ Machine.rawKey (cfCode .default) m.key = true

theorem ClientBatch.agree {batch : WriteBatch} (h : ClientBatch batch) (s : Store)
    (applied : Option AppliedPosition) :
  Store.AgreeOutsideRaw ⟨s.rows.write batch, applied⟩ s
  := by
  intro cf key hkey
  apply Rows.write_of_forall_ne
  rintro m hm ⟨rfl, rfl⟩
  obtain ⟨hcf, hraw⟩ := h m hm
  rw [hkey hcf] at hraw
  nomatch hraw

namespace Machine

variable {x : Externals} {judge : Option Judge} {m m' : Machine} {pos : AppliedPosition}
  {cmd : Command} {batch : WriteBatch} {outcome : ApplyOutcome}
  {commands : List (AppliedPosition × Command)} {result : ApplyResult}
  {results : List ApplyResult}

/-! ## What may be grouped -/

theorem clientBatch_lowerOps {ops : List KvOp} (h : rawOps ops = true) :
  ClientBatch (lowerOps ops)
  := by
  intro m hm
  obtain ⟨op, hop, rfl⟩ := mem_lowerOps.mp hm
  have hraw := List.all_eq_true.mp h op hop
  have hcf := (isRawKey_of_rawKey hraw).1
  rw [KvOp.cf_lower, KvOp.key_lower]
  rw [hcf] at hraw ⊢
  constructor
  · rfl
  · apply hraw

section

variable (h : m.canGroupRawBy judge cmd = true)
include h

/-- What may be grouped is a plain or fenced write of clients' values, before expiry is
enabled; a fenced one has a judge to whom clients' values do not matter. -/
theorem canGroupRawBy_eq_true :
  m.ttlEnabled = false ∧ ∃ ops, legacyOps cmd = some ops ∧ rawOps ops = true
    ∧ ∀ fence inner, cmd = .fenced fence inner →
      ∃ j, judge = some j ∧ j.independentOfRawWrites = true
  := by
  rw [canGroupRawBy.eq_def] at h
  split_ifs at h with henabled
  use Bool.not_eq_true _ ▸ henabled
  cases cmd with
  | put cf key value =>
    refine ⟨_, rfl, ?_, nofun⟩
    rw [rawOps, List.all_cons, List.all_nil, Bool.and_true]
    apply h
  | write ops => exact ⟨ops, rfl, h, nofun⟩
  | fenced fence inner =>
    obtain ⟨hraw, hjudge⟩ := (Bool.and_eq_true _ _ ▸ h : _ ∧ _)
    use inner.ops, rfl, hraw
    rintro _ _ ⟨⟩
    rwa [Option.any_eq_true] at hjudge
  | _ => nomatch h

/-- A single apply of what may be grouped judges it and writes its batch. -/
theorem applyAtBy_of_canGroupRawBy (hindex : m.applied < pos.index) :
  m.applyAtBy x judge pos cmd = (do
    let (batch, outcome) ← m.adjudicateBy judge missingAdjudicator cmd
    m.finish batch pos outcome)
  := by
  obtain ⟨hdisabled, ops, hops, hraw, -⟩ := canGroupRawBy_eq_true h
  apply applyAtBy_of_legacyOps hops hdisabled (any_reservedOp_of_rawOps hraw) hindex

/-- Which refusal stands for a missing judge does not matter where there is one. -/
theorem adjudicateBy_missing (missing missing' : Error) :
  m.adjudicateBy judge missing cmd = m.adjudicateBy judge missing' cmd
  := by
  obtain ⟨-, ops, -, -, hjudge⟩ := canGroupRawBy_eq_true h
  cases cmd with
  | fenced fence inner =>
    obtain ⟨j, rfl, -⟩ := hjudge fence inner rfl
    rfl
  | _ => rfl

theorem clientBatch_of_adjudicateBy {missing : Error}
    (hbatch : m.adjudicateBy judge missing cmd = .ok (batch, outcome)) :
  ClientBatch batch
  := by
  obtain ⟨-, ops, hops, hraw, hjudge⟩ := canGroupRawBy_eq_true h
  cases cmd with
  | put cf key value
  | write ops
  | catalogTxn ops =>
    cases hbatch
    cases hops
    apply clientBatch_lowerOps hraw
  | fenced fence inner =>
    cases hops
    obtain ⟨j, rfl, -⟩ := hjudge fence inner rfl
    obtain ⟨fresh, -, hbatch⟩ := bind_eq_ok.mp hbatch
    cases fresh with
    | true =>
      cases hbatch
      apply clientBatch_lowerOps hraw
    | false =>
      cases hbatch
      nofun
  | _ => nomatch hops

end

/-! ## Independence -/

theorem adjudicateBy_after (h : ClientBatch batch) (hcmd : m.canGroupRawBy judge cmd = true)
    (missing : Error) :
  (m.after batch pos).adjudicateBy judge missing cmd = m.adjudicateBy judge missing cmd
  := by
  obtain ⟨-, ops, -, -, hjudge⟩ := canGroupRawBy_eq_true hcmd
  cases cmd with
  | fenced fence inner =>
    obtain ⟨j, rfl, hindependent⟩ := hjudge fence inner rfl
    have hcongr := j.isFreshWrite_congr hindependent _ _ (h.agree m.engine (some pos))
    simp [adjudicateBy, after, hcongr]
  | _ => rfl

theorem groupLoopBy_after (h : ClientBatch batch) (previous : AppliedPosition)
    (commands : List (AppliedPosition × Command)) :
  (m.after batch pos).groupLoopBy judge previous commands = m.groupLoopBy judge previous commands
  := by
  induction commands generalizing previous with
  | nil => rfl
  | cons c commands ih =>
    obtain ⟨next, cmd⟩ := c
    have hsame : (m.after batch pos).canGroupRawBy judge cmd = m.canGroupRawBy judge cmd := rfl
    by_cases hcmd : m.canGroupRawBy judge cmd = true
    · simp [groupLoopBy, hsame, adjudicateBy_after h hcmd, ih]
    · simp [groupLoopBy, hsame, failIf_pos (Bool.not_eq_true _ ▸ hcmd)]

/-! ## One by one -/

variable {previous : AppliedPosition}

/-- Judging a group and writing once is applying its commands one by one. -/
theorem applyAllBy_eq_groupLoopBy (hm : m.Settled) (hprevious : m.applied ≤ previous.index)
    (hordered : Ordered previous commands)
    (hgroup : ∀ c ∈ commands, m.canGroupRawBy judge c.2 = true) :
  m.applyAllBy x judge commands = (do
    let (batch, results) ← m.groupLoopBy judge previous commands
    return (m.afterGroup batch commands, results))
  := by
  induction commands generalizing m previous with
  | nil => rfl
  | cons c commands ih =>
    obtain ⟨pos, cmd⟩ := c
    obtain ⟨⟨hindex, hterm, hprior⟩, hordered⟩ := hordered
    have hcmd := hgroup (pos, cmd) (List.mem_cons_self ..)
    have happlied : m.applied < pos.index := lt_of_le_of_lt hprevious hindex
    have hpos : ¬ (pos.index ≤ previous.index ∨ pos.term = 0 ∨ pos.term < previous.term) := by
      push Not
      use hindex, hterm, hprior
    simp only [applyAllBy, groupLoopBy, applyAtBy_of_canGroupRawBy hcmd happlied,
      failIf_neg hpos, ok_bind, adjudicateBy_missing hcmd missingAdjudicator
        (.raft "Raw apply group requires fence adjudicator")]
    rw [failIf_neg (Bool.not_eq_false _ ▸ hcmd)]
    cases hadj : m.adjudicateBy judge (.raft "Raw apply group requires fence adjudicator") cmd with
    | error e => rfl
    | ok answer =>
      obtain ⟨next, outcome⟩ := answer
      have hclient := clientBatch_of_adjudicateBy hcmd hadj
      have hfinish : m.finish next pos outcome = .ok (m.after next pos, ⟨pos.index, outcome⟩) :=
        finish_eq_ok.mpr ⟨hm.advances happlied, rfl, rfl⟩
      have hrest := ih (settled_after m next pos) (le_refl pos.index) hordered
        (fun c hc => hgroup c (List.mem_cons_of_mem _ hc))
      simp only [ok_bind, hfinish, hrest, groupLoopBy_after hclient]
      cases hloop : m.groupLoopBy judge pos commands with
      | error e => rfl
      | ok answer =>
        obtain ⟨batch, results⟩ := answer
        have hnil : commands = [] → batch = [] := by
          rintro rfl
          cases hloop
          rfl
        simp only [ok_bind, pure_eq_ok]
        rw [after_afterGroup next batch hnil]

theorem of_groupLoopBy_eq_ok {answer : WriteBatch × List ApplyResult}
    (h : m.groupLoopBy judge previous commands = .ok answer) :
  Ordered previous commands
  := by
  induction commands generalizing previous answer with
  | nil => trivial
  | cons c commands ih =>
    simp only [groupLoopBy, bind_eq_ok, failIf_eq_ok] at h
    obtain ⟨_, hpos, _, -, _, -, _, hloop, -⟩ := h
    push Not at hpos
    use hpos, ih hloop

/-- Only what may be grouped passes, and it writes clients' values. -/
theorem clientBatch_of_groupLoopBy
    (h : m.groupLoopBy judge previous commands = .ok (batch, results)) :
  ClientBatch batch ∧ ∀ c ∈ commands, m.canGroupRawBy judge c.2 = true
  := by
  induction commands generalizing previous batch results with
  | nil =>
    cases h
    use nofun, nofun
  | cons c commands ih =>
    simp only [groupLoopBy, bind_eq_ok, failIf_eq_ok] at h
    obtain ⟨_, -, _, hgroup, ⟨next, outcome⟩, hnext, ⟨rest, results⟩, hrest, h⟩ := h
    cases h
    rw [Bool.not_eq_false] at hgroup
    obtain ⟨hbatch, hcommands⟩ := ih hrest
    constructor
    · intro mutation hmutation
      obtain hmutation | hmutation := List.mem_append.mp hmutation
      · apply clientBatch_of_adjudicateBy hgroup hnext mutation hmutation
      · apply hbatch mutation hmutation
    · rw [List.forall_mem_cons]
      use hgroup, hcommands

/-- A group that is applied is one write at its last position. -/
theorem after_of_applyRawGroupBy (h : m.applyRawGroupBy judge commands = .ok (m', results)) :
  ∃ batch last, m.groupLoopBy judge ⟨m.appliedTerm, m.applied⟩ commands = .ok (batch, results)
    ∧ commands.getLast? = some last ∧ m' = m.after batch last.1
  := by
  rw [applyRawGroupBy] at h
  cases hlast : commands.getLast? with
  | none =>
    rw [hlast] at h
    cases h
  | some last =>
    simp only [hlast, bind_eq_ok] at h
    obtain ⟨_, -, ⟨batch, results⟩, hloop, engine, hwrite, h⟩ := h
    obtain ⟨-, rfl⟩ := Store.writeApplied_eq_ok.mp hwrite
    cases h
    exact ⟨batch, last, hloop, rfl, rfl⟩

/-- A group that is applied leaves the machine where its commands do, one by one. -/
theorem applyAllBy_of_applyRawGroupBy (hm : m.Settled)
    (hgroup : ∀ c ∈ commands, m.canGroupRawBy judge c.2 = true)
    (h : m.applyRawGroupBy judge commands = .ok (m', results)) :
  m.applyAllBy x judge commands = .ok (m', results)
  := by
  obtain ⟨batch, last, hloop, hlast, rfl⟩ := after_of_applyRawGroupBy h
  have hordered := of_groupLoopBy_eq_ok hloop
  rw [applyAllBy_eq_groupLoopBy hm (le_refl m.applied) hordered hgroup, hloop]
  simp only [ok_bind, afterGroup, hlast]
  rfl

/-- Commands in order that may be grouped and succeed one by one succeed as a group. -/
theorem applyRawGroupBy_of_applyAllBy (hm : m.Settled) (hne : commands ≠ [])
    (hlength : commands.length ≤ maxRawGroupEntries)
    (hordered : Ordered ⟨m.appliedTerm, m.applied⟩ commands)
    (hgroup : ∀ c ∈ commands, m.canGroupRawBy judge c.2 = true)
    (h : m.applyAllBy x judge commands = .ok (m', results)) :
  m.applyRawGroupBy judge commands = .ok (m', results)
  := by
  rw [applyAllBy_eq_groupLoopBy hm (le_refl m.applied) hordered hgroup, bind_eq_ok] at h
  obtain ⟨⟨batch, answers⟩, hloop, h⟩ := h
  cases h
  have hlast := List.getLast?_eq_some_getLast hne
  have hadvances : m.Advances (commands.getLast hne).1 :=
    hm.advances (hordered.index_lt _ (List.getLast_mem hne))
  have hwrite : m.engine.writeApplied batch (commands.getLast hne).1
      = .ok ⟨m.engine.rows.write batch, some (commands.getLast hne).1⟩ :=
    Store.writeApplied_eq_ok.mpr ⟨hadvances, rfl⟩
  simp only [applyRawGroupBy, hlast, failIf_neg (not_lt.mpr hlength), hloop, ok_bind, hwrite,
    afterGroup]
  rfl

/-! ## The groups of a data group -/

/-- What may be grouped is a plain or fenced write of clients' values, before expiry is enabled,
that the machine can judge. -/
theorem canGroupRaw_eq_true (h : m.canGroupRaw cmd = true) :
  m.ttlEnabled = false ∧ ∃ ops, legacyOps cmd = some ops ∧ rawOps ops = true
    ∧ ∀ fence inner, cmd = .fenced fence inner → m.dataIdentity.isSome = true
  := by
  rw [← canGroupRawBy_judge] at h
  obtain ⟨hdisabled, ops, hops, hraw, hjudge⟩ := canGroupRawBy_eq_true h
  use hdisabled, ops, hops, hraw
  intro fence inner hcmd
  obtain ⟨j, hj, -⟩ := hjudge fence inner hcmd
  obtain ⟨identity, hidentity, -⟩ := Option.map_eq_some_iff.mp hj
  rw [hidentity, Option.isSome_some]

/-- A single apply of what may be grouped judges it and writes its batch. -/
theorem applyAt_of_canGroupRaw (h : m.canGroupRaw cmd = true) (hindex : m.applied < pos.index) :
  m.applyAt x pos cmd = (do
    let (batch, outcome) ← m.adjudicate missingAdjudicator cmd
    m.finish batch pos outcome)
  := by
  rw [← canGroupRawBy_judge] at h
  rw [← applyAtBy_judge, applyAtBy_of_canGroupRawBy h hindex, adjudicateBy_judge]

theorem judge_of_applyAt (h : m.applyAt x pos cmd = .ok (m', result)) :
  m'.judge = m.judge
  := by
  by_cases hindex : m.applied < pos.index
  · obtain ⟨batch, happlied⟩ := applied_of_applyAt h hindex
    rw [happlied.after_eq]
    rfl
  · rw [applyAt_of_le (not_lt.mp hindex)] at h
    cases h
    rfl

theorem applyAllBy_judge (commands : List (AppliedPosition × Command)) :
  m.applyAllBy x m.judge commands = m.applyAll x commands
  := by
  induction commands generalizing m with
  | nil => rfl
  | cons c commands ih =>
    obtain ⟨pos, cmd⟩ := c
    simp only [applyAllBy, applyAll, applyAtBy_judge]
    cases hat : m.applyAt x pos cmd with
    | error e => rfl
    | ok answer =>
      simp [← judge_of_applyAt hat, ih]

/-- A group that is applied is in order, and holds only what may be grouped. -/
theorem of_applyRawGroup (h : m.applyRawGroup commands = .ok (m', results)) :
  Ordered ⟨m.appliedTerm, m.applied⟩ commands ∧ ∀ c ∈ commands, m.canGroupRaw c.2 = true
  := by
  rw [← applyRawGroupBy_judge] at h
  obtain ⟨batch, last, hloop, -, -⟩ := after_of_applyRawGroupBy h
  have hgroup := (clientBatch_of_groupLoopBy hloop).2
  simp only [canGroupRawBy_judge] at hgroup
  use of_groupLoopBy_eq_ok hloop, hgroup

/-- A group that is applied leaves the machine where its commands do, one by one. -/
theorem applyAll_of_applyRawGroup (hm : m.Settled)
    (h : m.applyRawGroup commands = .ok (m', results)) :
  m.applyAll x commands = .ok (m', results)
  := by
  have hgroup := (of_applyRawGroup h).2
  simp only [← canGroupRawBy_judge] at hgroup
  rw [← applyRawGroupBy_judge] at h
  rw [← applyAllBy_judge, applyAllBy_of_applyRawGroupBy hm hgroup h]

/-- Commands in order that may be grouped and succeed one by one succeed as a group. -/
theorem applyRawGroup_of_applyAll (hm : m.Settled) (hne : commands ≠ [])
    (hlength : commands.length ≤ maxRawGroupEntries)
    (hordered : Ordered ⟨m.appliedTerm, m.applied⟩ commands)
    (hgroup : ∀ c ∈ commands, m.canGroupRaw c.2 = true)
    (h : m.applyAll x commands = .ok (m', results)) :
  m.applyRawGroup commands = .ok (m', results)
  := by
  simp only [← canGroupRawBy_judge] at hgroup
  rw [← applyAllBy_judge] at h
  rw [← applyRawGroupBy_judge, applyRawGroupBy_of_applyAllBy hm hne hlength hordered hgroup h]

/-! ## Failures -/

/-- The positioned write of an engine, in place.  `disk` is what its durable write answers. -/
def writeInPlace (disk : Except Error Unit) (batch : WriteBatch) (pos : AppliedPosition) :
    Stateful Error Store Unit := do
  let engine ← get
  let written ← ofExcept (engine.writeApplied batch pos)
  ofExcept disk
  set written

/-- Apply a group in place.  The applied index moves after the engine has accepted the write. -/
def applyGroupInPlace (judge : Option Judge) (disk : Except Error Unit)
    (commands : List (AppliedPosition × Command)) : Stateful Error Machine (List ApplyResult) := do
  let m ← get
  match commands.getLast? with
  | none => throw (.raft "invalid Raw apply group length")
  | some last => do
    ofExcept (failIf (maxRawGroupEntries < commands.length)
      (.raft "invalid Raw apply group length"))
    let (batch, results) ←
      ofExcept (m.groupLoopBy judge ⟨m.appliedTerm, m.applied⟩ commands)
    Stateful.zoom Machine.engine (fun engine m => { m with engine := engine })
      (writeInPlace disk batch last.1)
    modify fun m => { m with applied := last.1.index }
    return results

/-- A group applied in place ends as the group does if the disk allows it, and otherwise
changes nothing. -/
theorem wp_applyGroupInPlace (judge : Option Judge) (m : Machine) (disk : Except Error Unit)
    (commands : List (AppliedPosition × Command)) :
  Stateful.wp (applyGroupInPlace judge disk commands) (Stateful.ends
    (fun results m' => m.applyRawGroupBy judge commands = .ok (m', results))
    (fun m' => m' = m ∧ (disk = .ok () → ∀ answer,
      m.applyRawGroupBy judge commands ≠ .ok answer))) m
  := by
  rw [applyGroupInPlace, Stateful.wp_get_bind, applyRawGroupBy]
  cases commands.getLast? with
  | none => exact ⟨rfl, fun _ _ => by simp⟩
  | some last =>
    simp only [Stateful.wp_bind, Stateful.wp_ofExcept]
    cases failIf (maxRawGroupEntries < commands.length)
        (.raft "invalid Raw apply group length" : Error) with
    | error e => exact ⟨rfl, fun _ _ => by simp⟩
    | ok =>
      cases m.groupLoopBy judge ⟨m.appliedTerm, m.applied⟩ commands with
      | error e => exact ⟨rfl, fun _ _ => by simp⟩
      | ok loop =>
        simp only [ok_bind, writeInPlace, Stateful.wp_zoom]
        rw [Stateful.wp_get_bind]
        cases m.engine.writeApplied loop.1 last.1 with
        | error e => exact ⟨rfl, fun _ _ => by simp⟩
        | ok engine =>
          cases disk with
          | error e => exact ⟨rfl, (by simp)⟩
          | ok => rfl

/-- A group of writes that may be grouped does what its entries do one by one.  If it is
applied, the machine ends where they leave it, with their answers; if they are in order and
succeed one by one, the group is applied unless the disk fails; and a group that fails leaves
the machine as it was. -/
theorem raw_group_applies_one_by_one (x : Externals) (judge : Option Judge) {m : Machine}
    (hm : m.Settled) {commands : List (AppliedPosition × Command)}
    (hgroup : ∀ c ∈ commands, m.canGroupRawBy judge c.2 = true) (disk : Except Error Unit) :
  let (answer, m') := (applyGroupInPlace judge disk commands).run m
  (∀ results, answer = .ok results → m.applyAllBy x judge commands = .ok (m', results))
    ∧ (∀ e, answer = .error e → m' = m)
    ∧ (commands ≠ [] → commands.length ≤ maxRawGroupEntries →
      Ordered ⟨m.appliedTerm, m.applied⟩ commands → disk = .ok () →
      ∀ after results, m.applyAllBy x judge commands = .ok (after, results) →
        answer = .ok results ∧ m' = after)
  := by
  have hwp := wp_applyGroupInPlace judge m disk commands
  rw [Stateful.wp] at hwp
  cases hrun : (applyGroupInPlace judge disk commands).run m with
  | mk answer m' =>
    rw [hrun] at hwp
    cases answer with
    | error e =>
      obtain ⟨rfl, hfails⟩ := hwp
      use (by simp), fun _ _ => rfl
      intro hne hlength hordered hdisk after results hall
      have := applyRawGroupBy_of_applyAllBy hm hne hlength hordered hgroup hall
      exact absurd this (hfails hdisk _)
    | ok results =>
      have hall := applyAllBy_of_applyRawGroupBy (x := x) hm hgroup hwp
      refine ⟨?_, by simp, ?_⟩
      · rintro _ ⟨⟩
        apply hall
      · intro _ _ _ _ after results' hafter
        cases hall.symm.trans hafter
        exact ⟨rfl, rfl⟩

/-- Two puts of one key, the second judged after the first: they may be grouped. -/
theorem raw_group_applies_one_by_one_puts :
  let key : Bytes := [0x72, 0, 0, 7, 1]
  let m : Machine := ⟨none, Store.empty, 0, false⟩
  let commands : List (AppliedPosition × Command) :=
    [(⟨1, 1⟩, .put 0 key [1]), (⟨1, 2⟩, .put 0 key [2])]
  let m' : Machine := { m with
    engine := ⟨Store.empty.rows.write [.put .default key [1], .put .default key [2]], some ⟨1, 2⟩⟩
    applied := 2 }
  (applyGroupInPlace none (.ok ()) commands).run m = (.ok [⟨1, .plain⟩, ⟨2, .plain⟩], m')
    ∧ ∃ x : Externals, m.applyAllBy x none commands = .ok (m', [⟨1, .plain⟩, ⟨2, .plain⟩])
  := by
  intro key m commands m'
  obtain ⟨x⟩ := nonempty_externals
  have hrun : (applyGroupInPlace none (.ok ()) commands).run m
      = (.ok [⟨1, .plain⟩, ⟨2, .plain⟩], m') := rfl
  have hm : m.Settled := nofun
  have hgroup : ∀ c ∈ commands, m.canGroupRawBy none c.2 = true := by
    simp only [commands, List.forall_mem_cons]
    exact ⟨by decide, by decide, nofun⟩
  have h := raw_group_applies_one_by_one x none hm hgroup (.ok ())
  rw [hrun] at h
  use hrun, x
  apply h.1
  rfl

end Machine

end Kv9.Raft
