import Kv9.Raft.StateMachine.Grouping

/-!
# Judges of fences

A state machine consults a judge for fenced writes and for the epochs of checkpoints.  A data
group judges by the range it has installed, the metadata group by its catalog; a machine may
also have no judge.  Apart from fenced writes and manifest changes no command reaches the judge.
A judge may declare that clients' values do not matter to it, and only then are fenced writes
grouped.
-/

namespace Kv9.Raft

open Codec Engine Except RawTtl

/-- Whether two stores differ in clients' values only. -/
def Store.AgreeOutsideRaw (s s' : Store) : Prop :=
  ∀ cf key, (cf = .default → Machine.rawKey (cfCode .default) key = false) →
    s.rows cf key = s'.rows cf key

/-- A judge of fences.  The declaration that clients' values do not matter binds its verdicts. -/
structure Judge where
  isFresh : Store → RegionFence → Except Error Bool
  isFreshWrite : Store → RegionFence → FencedInner → Except Error Bool
  independentOfRawWrites : Bool
  isFreshWrite_congr : independentOfRawWrites = true → ∀ s s', Store.AgreeOutsideRaw s s' →
    isFreshWrite s = isFreshWrite s'

namespace Machine

/-- The batch of a plain command, or of a fenced one that the judge has judged. -/
def adjudicateBy (judge : Option Judge) (m : Machine) (missing : Error) (cmd : Command) :
    Except Error (WriteBatch × ApplyOutcome) :=
  match cmd with
  | .fenced fence inner =>
    match judge with
    | none => .error missing
    | some j => do
      let fresh ← j.isFreshWrite m.engine fence inner
      if fresh then
        return (inner.toWriteBatch, .plain)
      else
        return ([], .fenceRejected fence.regionId)
  | cmd => do
    let batch ← cmd.toWriteBatch
    return (batch, .plain)

/-- Apply a fenced write. -/
def applyFencedBy (judge : Option Judge) (m : Machine) (pos : AppliedPosition)
    (fence : RegionFence) (inner : FencedInner) : Except Error (Machine × ApplyResult) := do
  let guarded ← m.guardLegacyTtl pos (.fenced fence inner)
  match guarded with
  | some result => return result
  | none => do
    let (batch, outcome) ← m.adjudicateBy judge missingAdjudicator (.fenced fence inner)
    m.finish batch pos outcome

/-- What is wrong with the checkpoint of a manifest change. -/
def checkpointErrorBy (x : Externals) (judge : Option Judge) (m : Machine) (large : Bool)
    (p : ManifestChangePayload) : Except Error (Option ManifestInvalidReason) :=
  if isCheckpoint p.changeset then do
    let checkpoint ← decodeCheckpointManifest x large p.changeset
    let mismatch ←
      if checkpoint.scope.region ≠ p.region ∨ checkpoint.term ≠ p.watermarkTerm
          ∨ checkpoint.index ≠ p.watermarkIndex then
        pure true
      else do
        let changeId ← checkpointChangeId x checkpoint p.expectedGeneration
        pure (changeId != p.changeId)
    if mismatch then
      return some .invalidCheckpoint
    else
      match judge with
      | none => throw (.raft "checkpoint apply requires epoch adjudicator")
      | some j => do
        let fresh ← j.isFresh m.engine
          ⟨p.region, checkpoint.scope.confVer, checkpoint.scope.version⟩
        return if fresh then none else some .staleEpoch
  else
    return if large then some .invalidCheckpoint else none

/-- Apply a manifest change. -/
def applyManifestChangeBy (x : Externals) (judge : Option Judge) (m : Machine)
    (pos : AppliedPosition) (large : Bool) (p : ManifestChangePayload) :
    Except Error (Machine × ApplyResult) := do
  let current ← manifestPair m.engine p.region
  let invalid ← m.checkpointErrorBy x judge large p
  let (batch, verdict) := manifestEffect current invalid p pos.index
  m.finish batch pos (.manifest verdict)

/-- Apply a command at a position.  A position that is not above the applied one is skipped. -/
def applyAtBy (x : Externals) (judge : Option Judge) (m : Machine) (pos : AppliedPosition)
    (cmd : Command) : Except Error (Machine × ApplyResult) :=
  if pos.index ≤ m.applied then
    .ok (m, ⟨pos.index, .plain⟩)
  else
    match cmd with
    | .fenced fence inner => m.applyFencedBy judge pos fence inner
    | .manifestChange p => m.applyManifestChangeBy x judge pos false p
    | .largeManifestChange p => m.applyManifestChangeBy x judge pos true p
    -- No other command is judged.
    | cmd => m.applyAt x pos cmd

/-! ## Groups -/

/-- Whether a command may be applied together with others. -/
def canGroupRawBy (judge : Option Judge) (m : Machine) (cmd : Command) : Bool :=
  if m.ttlEnabled then false
  else
    match cmd with
    | .put cf key _ => rawKey cf key
    | .write ops => rawOps ops
    | .fenced _ inner => rawOps inner.ops && judge.any (·.independentOfRawWrites)
    | _ => false

/-- The batch and the answers of a group, after a position. -/
def groupLoopBy (judge : Option Judge) (m : Machine) (previous : AppliedPosition) :
    List (AppliedPosition × Command) → Except Error (WriteBatch × List ApplyResult)
  | [] => .ok ([], [])
  | (pos, cmd) :: commands => do
    failIf (pos.index ≤ previous.index ∨ pos.term = 0 ∨ pos.term < previous.term)
      (.raft "Raw apply group positions are not ordered")
    failIf (m.canGroupRawBy judge cmd = false) (.raft "non-independent command in Raw apply group")
    let (next, outcome) ←
      m.adjudicateBy judge (.raft "Raw apply group requires fence adjudicator") cmd
    let (batch, results) ← groupLoopBy judge m pos commands
    return (next ++ batch, ⟨pos.index, outcome⟩ :: results)

/-- Apply a group of commands with one positioned write. -/
def applyRawGroupBy (judge : Option Judge) (m : Machine)
    (commands : List (AppliedPosition × Command)) : Except Error (Machine × List ApplyResult) :=
  match commands.getLast? with
  | none => .error (.raft "invalid Raw apply group length")
  | some last => do
    failIf (maxRawGroupEntries < commands.length) (.raft "invalid Raw apply group length")
    let (batch, results) ← m.groupLoopBy judge ⟨m.appliedTerm, m.applied⟩ commands
    let engine ← m.engine.writeApplied batch last.1
    return ({ m with engine := engine, applied := last.1.index }, results)

/-- Apply commands one by one. -/
def applyAllBy (x : Externals) (judge : Option Judge) (m : Machine) :
    List (AppliedPosition × Command) → Except Error (Machine × List ApplyResult)
  | [] => .ok (m, [])
  | (pos, cmd) :: commands => do
    let (m, result) ← m.applyAtBy x judge pos cmd
    let (m, results) ← applyAllBy x judge m commands
    return (m, result :: results)

/-! ## What is applied -/

section

variable {x : Externals} {judge : Option Judge} {m m' : Machine} {pos : AppliedPosition}
  {cmd : Command} {result : ApplyResult}

theorem applyAtBy_of_le (h : pos.index ≤ m.applied) :
  m.applyAtBy x judge pos cmd = .ok (m, ⟨pos.index, .plain⟩)
  := by
  rw [applyAtBy.eq_def, if_pos h]

theorem applied_of_applyManifestChangeBy {p : ManifestChangePayload} {large : Bool}
    (hcmd : cmd = .manifestChange p ∨ cmd = .largeManifestChange p)
    (h : m.applyManifestChangeBy x judge pos large p = .ok (m', result)) :
  ∃ batch, Applied x m pos cmd m' result.outcome batch
  := by
  simp only [applyManifestChangeBy, bind_eq_ok] at h
  obtain ⟨current, -, invalid, -, h⟩ := h
  apply applied_of_finish _ _ h
  · apply effect_of_manifestEffect hcmd
  · rcases hcmd with rfl | rfl
    · rfl
    · rfl

/-- Every entry above the applied position that is not an error has the effect it has on a data
group, except for fenced writes that the judge lets through: they are written as they are. -/
theorem applied_of_applyAtBy (h : m.applyAtBy x judge pos cmd = .ok (m', result))
    (hindex : m.applied < pos.index) :
  (∃ batch, Applied x m pos cmd m' result.outcome batch)
    ∨ ∃ fence inner, cmd = .fenced fence inner ∧ m.Advances pos ∧ m.ttlEnabled = false
      ∧ inner.ops.any reservedOp = false ∧ result.outcome = .plain
      ∧ m' = m.after (lowerOps inner.ops) pos
  := by
  rw [applyAtBy.eq_def, if_neg (not_le_of_gt hindex)] at h
  cases cmd with
  | fenced fence inner =>
    obtain ⟨guarded, hguarded, h⟩ := bind_eq_ok.mp h
    cases guarded with
    | some answer =>
      cases h
      left
      apply applied_of_guardLegacyTtl hguarded
    | none =>
      obtain ⟨hdisabled, hreserved⟩ := guardLegacyTtl_eq_none hguarded rfl
      simp only [adjudicateBy] at h
      cases judge with
      | none => nomatch h
      | some j =>
        simp only [bind_eq_ok] at h
        obtain ⟨⟨batch, outcome⟩, ⟨fresh, -, hfresh⟩, h⟩ := h
        cases fresh with
        | false =>
          cases hfresh
          left
          apply applied_of_finish _ rfl h
          exact .idle (fun _ _ => nofun) nofun
        | true =>
          cases hfresh
          right
          obtain ⟨hadvances, hafter, rfl⟩ := finish_eq_ok.mp h
          use fence, inner, rfl, hadvances, hdisabled, hreserved, rfl, hafter
  | manifestChange p =>
    left
    apply applied_of_applyManifestChangeBy (.inl rfl) h
  | largeManifestChange p =>
    left
    apply applied_of_applyManifestChangeBy (.inr rfl) h
  | _ =>
    left
    apply applied_of_applyAt h hindex

/-- A write that the guard lets through is judged and written. -/
theorem applyAtBy_of_legacyOps {ops : List KvOp} (hops : legacyOps cmd = some ops)
    (hdisabled : m.ttlEnabled = false) (hreserved : ops.any reservedOp = false)
    (hindex : m.applied < pos.index) :
  m.applyAtBy x judge pos cmd = (do
    let (batch, outcome) ← m.adjudicateBy judge missingAdjudicator cmd
    m.finish batch pos outcome)
  := by
  have hguard : m.guardLegacyTtl pos cmd = .ok none := by
    simp only [guardLegacyTtl, hops, hdisabled, hreserved]
    rfl
  rw [applyAtBy.eq_def, if_neg (not_le_of_gt hindex)]
  cases cmd with
  | fenced fence inner => simp only [applyFencedBy, hguard, ok_bind]
  | put cf key value
  | write ops
  | catalogTxn ops =>
    simp only [applyAt, if_neg (not_le_of_gt hindex), applyOther, hguard, ok_bind]
    rfl
  | _ => cases hops

/-- An entry above the applied position moves the machine there, with one write. -/
theorem engine_of_applyAtBy (h : m.applyAtBy x judge pos cmd = .ok (m', result))
    (hindex : m.applied < pos.index) :
  m'.engine.applied = some pos ∧ m'.applied = pos.index
  := by
  obtain ⟨batch, happlied⟩ | ⟨fence, inner, -, -, -, -, -, rfl⟩ := applied_of_applyAtBy h hindex
  · rw [happlied.after_eq]
    exact ⟨rfl, rfl⟩
  · exact ⟨rfl, rfl⟩

end

/-! ## The judge of a data group -/

theorem rawKey_rangeKey (cf : UInt8) :
  rawKey cf rangeKey = false
  := by
  rw [Bool.eq_false_iff]
  intro h
  have hkey := (isRawKey_of_rawKey h).2
  nomatch hkey

theorem fenceCurrent_congr {s s' : Store} (h : s.AgreeOutsideRaw s') (identity : Identity) :
  fenceCurrent identity s = fenceCurrent identity s'
  := by
  have hrange : rangeOf s = rangeOf s' := by
    rw [rangeOf, rangeOf, Store.get, Store.get, h .default rangeKey fun _ => rawKey_rangeKey _]
  rw [fenceCurrent, fenceCurrent, hrange]

/-- A data group judges by its installed range. -/
def rangeJudge (identity : Identity) : Judge where
  isFresh := isFresh identity
  isFreshWrite := isFreshWrite identity
  independentOfRawWrites := true
  isFreshWrite_congr := by
    intro _ s s' h
    funext fence inner
    rw [isFreshWrite, isFreshWrite, fenceCurrent_congr h]

/-- The judge of a machine that has the identity of a data group. -/
def judge (m : Machine) : Option Judge := m.dataIdentity.map rangeJudge

variable {x : Externals} {m : Machine} {pos : AppliedPosition}

theorem adjudicateBy_judge (missing : Error) (cmd : Command) :
  m.adjudicateBy m.judge missing cmd = m.adjudicate missing cmd
  := by
  cases cmd with
  | fenced fence inner =>
    cases hid : m.dataIdentity with
    | none => simp only [adjudicateBy, adjudicate, judge, hid, Option.map_none]
    | some identity =>
      simp only [adjudicateBy, adjudicate, judge, hid, Option.map_some]
      rfl
  | _ => rfl

theorem applyManifestChangeBy_judge (large : Bool) (p : ManifestChangePayload) :
  m.applyManifestChangeBy x m.judge pos large p = m.applyManifestChange x pos large p
  := by
  have herror : m.checkpointErrorBy x m.judge large p = m.checkpointError x large p := by
    rw [checkpointError, judge]
    cases m.dataIdentity with
    | none => rfl
    | some identity => rfl
  rw [applyManifestChangeBy, applyManifestChange, herror]

/-- A data group applies as its machine does. -/
theorem applyAtBy_judge (cmd : Command) :
  m.applyAtBy x m.judge pos cmd = m.applyAt x pos cmd
  := by
  by_cases hskip : pos.index ≤ m.applied
  · rw [applyAtBy.eq_def, if_pos hskip, applyAt_of_le hskip]
  · rw [applyAtBy.eq_def, if_neg hskip]
    cases cmd with
    | fenced fence inner =>
      rw [applyAt.eq_def, if_neg hskip]
      simp only [applyFencedBy, adjudicateBy_judge, applyOther]
      rfl
    | manifestChange p
    | largeManifestChange p =>
      rw [applyAt.eq_def, if_neg hskip]
      simp only [applyManifestChangeBy_judge]
      rfl
    | _ => rfl

theorem canGroupRawBy_judge (cmd : Command) :
  m.canGroupRawBy m.judge cmd = m.canGroupRaw cmd
  := by
  have hsome : m.judge.any (·.independentOfRawWrites) = m.dataIdentity.isSome := by
    rw [judge]
    cases m.dataIdentity with
    | none => rfl
    | some identity => rfl
  cases cmd with
  | fenced fence inner => simp only [canGroupRawBy, canGroupRaw, hsome]
  | _ => rfl

theorem groupLoopBy_judge (previous : AppliedPosition)
    (commands : List (AppliedPosition × Command)) :
  m.groupLoopBy m.judge previous commands = m.groupLoop previous commands
  := by
  induction commands generalizing previous with
  | nil => rfl
  | cons c commands ih =>
    simp [groupLoopBy, groupLoop, canGroupRawBy_judge, adjudicateBy_judge, ih]

/-- A data group groups as its machine does. -/
theorem applyRawGroupBy_judge (commands : List (AppliedPosition × Command)) :
  m.applyRawGroupBy m.judge commands = m.applyRawGroup commands
  := by
  rw [applyRawGroupBy, applyRawGroup]
  cases commands.getLast? with
  | none => rfl
  | some last => simp only [groupLoopBy_judge]

end Machine

end Kv9.Raft
