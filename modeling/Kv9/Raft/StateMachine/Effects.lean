import Kv9.Raft.StateMachine.Apply

/-!
# What an applied entry can do

Every entry that is applied and not skipped writes one batch at its position.  `Effect` lists
the batches there are, each with what the machine has checked before it writes the batch.
-/

namespace Kv9.Raft

open Codec Engine Except RawTtl

namespace Machine

variable {x : Externals} {m m' : Machine} {pos : AppliedPosition} {cmd : Command}
  {batch : WriteBatch} {outcome : ApplyOutcome} {result : ApplyResult}

/-- The machine after a batch at a position. -/
def after (m : Machine) (batch : WriteBatch) (pos : AppliedPosition) : Machine :=
  { m with engine := ⟨m.engine.rows.write batch, some pos⟩, applied := pos.index }

theorem get_after (m : Machine) (batch : WriteBatch) (pos : AppliedPosition) (cf : ColumnFamily)
    (key : Bytes) :
  (m.after batch pos).engine.get cf key = m.engine.rows.write batch cf key
  := rfl

/-- The position is above everything the engine has applied. -/
def Advances (m : Machine) (pos : AppliedPosition) : Prop :=
  ∀ previous ∈ m.engine.applied, previous.index < pos.index

theorem finish_eq_ok :
  m.finish batch pos outcome = .ok (m', result)
    ↔ m.Advances pos ∧ m' = m.after batch pos ∧ result = ⟨pos.index, outcome⟩
  := by
  rw [finish, bind_eq_ok]
  constructor
  · rintro ⟨engine, hwrite, h⟩
    obtain ⟨hadvances, rfl⟩ := Store.writeApplied_eq_ok.mp hwrite
    cases h
    exact ⟨hadvances, rfl, rfl⟩
  · rintro ⟨hadvances, rfl, rfl⟩
    exact ⟨_, Store.writeApplied_eq_ok.mpr ⟨hadvances, rfl⟩, rfl⟩

/-- What a command writes, with the checks it has passed. -/
inductive Effect (x : Externals) (m : Machine) (pos : AppliedPosition) :
    Command → WriteBatch → ApplyOutcome → Prop where
  /-- Nothing: a refusal, or a command with nothing to do. -/
  | idle {cmd : Command} {outcome : ApplyOutcome}
      (hlegacy : ∀ ops, legacyOps cmd = some ops → outcome ≠ .plain)
      (httl : ∀ command, cmd = .rawTtl command → outcome ≠ .plain) :
      Effect x m pos cmd [] outcome
  /-- The operations of a plain write, or of a fenced one whose fence holds. -/
  | lowered {cmd : Command} {ops : List KvOp}
      (hops : legacyOps cmd = some ops)
      (hdisabled : m.ttlEnabled = false)
      (hreserved : ops.any reservedOp = false)
      (hfence : ∀ fence inner, cmd = .fenced fence inner →
        ∃ r, m.dataIdentity = some (.ofRange r) ∧ rangeOf m.engine = .ok (some r)
          ∧ fenceMatches r fence = true ∧ ops.all (ownsOp r) = true) :
      Effect x m pos cmd (lowerOps ops) .plain
  /-- A range that is installed, or sealed. -/
  | range {expected : Option RootDigest} {next : DataRange} {current : Option DataRange}
      (hvalid : next.validate = .ok ())
      (hidentity : m.dataIdentity = some (.ofRange next))
      (hcurrent : rangeOf m.engine = .ok current)
      (hsealed : ¬ (m.ttlEnabled = true ∧ next.isSealed = true))
      (haccepts : acceptsRange x current expected next = true)
      (hne : current ≠ some next) :
      Effect x m pos (.dataRange expected next) [.put .default rangeKey next.encode] .plain
  /-- A compaction floor that advances. -/
  | floor {region : UInt64} {floor : AppliedPosition}
      (hadvances : ∀ c ∈ confirmedFloor m.engine, c.index < floor.index) :
      Effect x m pos (.compactionConfirmed region floor)
        [.put .default compactionConfirmedKey (encodeFloor floor)] .plain
  /-- The next generation of a manifest. -/
  | manifest {cmd : Command} {p : ManifestChangePayload} {generation : UInt64}
      (hcmd : cmd = .manifestChange p ∨ cmd = .largeManifestChange p) :
      Effect x m pos cmd
        [.put .default (manifestPairKey p.region) (ManifestPair.encode ⟨generation, p.changeId⟩),
          .put .default (manifestGenKey p.region generation)
            (be64 p.watermarkTerm ++ (be64 p.watermarkIndex ++ p.changeset))]
        (.manifest (.applied p.region generation))
  /-- A command on expiring values. -/
  | ttl {command : RawTtlCommand} {r : DataRange} {prior : Option ClockWatermark}
      {clock : ClockWatermark} {batch : WriteBatch}
      (hidentity : m.dataIdentity = some (.ofRange r))
      (hrange : rangeOf m.engine = .ok (some r))
      (hregion : r.region = command.fence.regionId)
      (hkeyspace : r.keyspace = command.keyspace)
      (hfresh : ttlFresh r command = true)
      (hprior : readRow ClockWatermark.decode (m.engine.get .default clockKey) = .ok prior)
      (henabled : prior.isSome = m.ttlEnabled)
      (henable : prior = none → command.action.isEnable = true)
      (heffect : ttlEffect m.engine command (prior.getD .initial) pos = .ok (clock, batch)) :
      Effect x m pos (.rawTtl command)
        (if prior ≠ some clock then batch ++ [.put .default clockKey clock.encode] else batch)
        .plain

/-- Whether an accepted command leaves expiring values enabled. -/
def enablesTtl : Command → ApplyOutcome → Bool
  | .rawTtl _, .plain => true
  | _, _ => false

/-- An entry that was applied and not skipped. -/
structure Applied (x : Externals) (m : Machine) (pos : AppliedPosition) (cmd : Command)
    (m' : Machine) (outcome : ApplyOutcome) (batch : WriteBatch) : Prop where
  advances : m.Advances pos
  effect : Effect x m pos cmd batch outcome
  after_eq : m' = { m.after batch pos with ttlEnabled := m.ttlEnabled || enablesTtl cmd outcome }

/-! ## Inversion -/

theorem applied_of_finish (heffect : Effect x m pos cmd batch outcome)
    (henables : enablesTtl cmd outcome = false)
    (h : m.finish batch pos outcome = .ok (m', result)) :
  ∃ batch, Applied x m pos cmd m' result.outcome batch
  := by
  obtain ⟨hadvances, rfl, rfl⟩ := finish_eq_ok.mp h
  use batch, hadvances, heffect
  rw [henables, Bool.or_false]
  rfl

theorem applied_of_ttlRefuse {region : RegionId} {reason : TtlRejection}
    (h : m.ttlRefuse pos region reason = .ok (m', result)) :
  ∃ batch, Applied x m pos cmd m' result.outcome batch
  := by
  apply applied_of_finish _ _ h
  · exact .idle (fun _ _ => nofun) (fun _ _ => nofun)
  · cases cmd <;> rfl

theorem applied_of_applyDataRange {expected : Option RootDigest} {next : DataRange}
    (h : m.applyDataRange x pos expected next = .ok (m', result)) :
  ∃ batch, Applied x m pos (.dataRange expected next) m' result.outcome batch
  := by
  simp only [applyDataRange, bind_eq_ok, failIf_eq_ok, not_not] at h
  obtain ⟨_, hvalid, _, hidentity, current, hcurrent, _, -, h⟩ := h
  by_cases hsealed : m.ttlEnabled = true ∧ next.isSealed = true
  · rw [if_pos hsealed] at h
    apply applied_of_ttlRefuse h
  · rw [if_neg hsealed] at h
    by_cases hbatch : acceptsRange x current expected next = true ∧ current ≠ some next
    · rw [if_pos hbatch, if_pos hbatch.1] at h
      apply applied_of_finish _ rfl h
      exact .range hvalid hidentity hcurrent hsealed hbatch.1 hbatch.2
    · rw [if_neg hbatch] at h
      apply applied_of_finish _ rfl h
      exact .idle (fun _ h => by cases h) (fun _ h => by cases h)

theorem applied_of_applyCompactionConfirmed {region : UInt64} {floor : AppliedPosition}
    (h : m.applyCompactionConfirmed pos region floor = .ok (m', result)) :
  ∃ batch, Applied x m pos (.compactionConfirmed region floor) m' result.outcome batch
  := by
  rw [applyCompactionConfirmed] at h
  split at h
  · cases h
  · simp only [bind_eq_ok] at h
    obtain ⟨_, -, h⟩ := h
    split_ifs at h with hadvance
    · apply applied_of_finish _ rfl h
      apply Effect.floor
      intro c hc
      rw [Option.mem_def.mp hc] at hadvance
      simpa using hadvance
    · apply applied_of_finish _ rfl h
      exact .idle (fun _ h => by cases h) (fun _ h => by cases h)

theorem effect_of_manifestEffect {p : ManifestChangePayload}
    (hcmd : cmd = .manifestChange p ∨ cmd = .largeManifestChange p) (current : ManifestPair)
    (invalid : Option ManifestInvalidReason) (index : UInt64) :
  Effect x m pos cmd (manifestEffect current invalid p index).1
    (.manifest (manifestEffect current invalid p index).2)
  := by
  have hidle : ∀ verdict, Effect x m pos cmd [] (.manifest verdict) :=
    fun _ => .idle (fun _ _ => nofun) (fun _ _ => nofun)
  cases invalid with
  | some reason => apply hidle
  | none =>
    simp only [manifestEffect]
    split_ifs
    · apply hidle
    · apply hidle
    · cases hnext : checkedAdd64 current.generation 1 with
      | none => apply hidle
      | some generation => exact .manifest hcmd
    · apply hidle
    · apply hidle

theorem applied_of_applyManifestChange {p : ManifestChangePayload} {large : Bool}
    (hcmd : cmd = .manifestChange p ∨ cmd = .largeManifestChange p)
    (h : m.applyManifestChange x pos large p = .ok (m', result)) :
  ∃ batch, Applied x m pos cmd m' result.outcome batch
  := by
  simp only [applyManifestChange, bind_eq_ok] at h
  obtain ⟨current, -, invalid, -, h⟩ := h
  apply applied_of_finish _ _ h
  · apply effect_of_manifestEffect hcmd
  · rcases hcmd with rfl | rfl
    · rfl
    · rfl

theorem applied_of_applyRawTtl {command : RawTtlCommand}
    (h : m.applyRawTtl pos command = .ok (m', result)) :
  ∃ batch, Applied x m pos (.rawTtl command) m' result.outcome batch
  := by
  rw [applyRawTtl] at h
  cases hid : m.dataIdentity with
  | none =>
    rw [hid] at h
    cases h
  | some identity =>
    simp only [hid, bind_eq_ok, failIf_eq_ok] at h
    obtain ⟨current, hcurrent, _, hforeign, h⟩ := h
    split_ifs at h with hscope hfresh
    · apply applied_of_ttlRefuse h
    · apply applied_of_finish _ rfl h
      exact .idle (by simp) (fun _ _ => by simp)
    · obtain ⟨prior, hprior, h⟩ := bind_eq_ok.mp h
      obtain ⟨_, henabled, h⟩ := bind_eq_ok.mp h
      rw [failIf_eq_ok, not_not] at henabled
      split_ifs at h with hnone
      · apply applied_of_ttlRefuse h
      · simp only [bind_eq_ok] at h
        obtain ⟨⟨clock, batch⟩, heffect, ⟨m₁, result₁⟩, hfinish, h⟩ := h
        obtain ⟨hadvances, rfl, rfl⟩ := finish_eq_ok.mp hfinish
        cases h
        rw [Bool.not_eq_false, Option.any_eq_true] at hfresh
        obtain ⟨r, rfl, hfresh⟩ := hfresh
        push Not at hforeign hscope
        have hidentity := hforeign r rfl
        have hregion : r.region = command.fence.regionId := by
          have := congrArg Identity.region (hidentity.trans hscope.1.symm)
          exact this
        refine ⟨_, hadvances, .ttl ?_ hcurrent hregion (hscope.2 r rfl) hfresh hprior henabled ?_
          heffect, ?_⟩
        · rw [hid, hidentity]
        · intro hprior
          by_contra henable
          exact hnone ⟨hprior, Bool.not_eq_true _ ▸ henable⟩
        · rw [enablesTtl, Bool.or_true]

/-- A fence that holds was judged by the installed range of the group. -/
theorem isFreshWrite_eq_true {identity : Identity} {engine : Store} {fence : RegionFence}
    {inner : FencedInner} (h : isFreshWrite identity engine fence inner = .ok true) :
  ∃ r, rangeOf engine = .ok (some r) ∧ Identity.ofRange r = identity
    ∧ fenceMatches r fence = true ∧ inner.ops.all (ownsOp r) = true
  := by
  simp only [isFreshWrite, fenceCurrent, bind_eq_ok, failIf_eq_ok] at h
  obtain ⟨range, ⟨range', hrange, _, hforeign, hrange'⟩, h⟩ := h
  cases hrange'
  have hany := Except.ok.inj h
  rw [Option.any_eq_true] at hany
  obtain ⟨r, rfl, hr⟩ := hany
  rw [Bool.and_eq_true] at hr
  push Not at hforeign
  use r, hrange, hforeign r rfl, hr.1, hr.2

theorem effect_of_adjudicate {missing : Error}
    (hguard : ∀ ops, legacyOps cmd = some ops → m.ttlEnabled = false ∧ ops.any reservedOp = false)
    (h : m.adjudicate missing cmd = .ok (batch, outcome)) :
  Effect x m pos cmd batch outcome ∧ enablesTtl cmd outcome = false
  := by
  cases cmd with
  | fenced fence inner =>
    obtain ⟨hdisabled, hreserved⟩ := hguard inner.ops rfl
    simp only [adjudicate] at h
    cases hid : m.dataIdentity with
    | none =>
      rw [hid] at h
      nomatch h
    | some identity =>
      simp only [hid, bind_eq_ok] at h
      obtain ⟨fresh, hfresh, h⟩ := h
      cases fresh with
      | false =>
        cases h
        exact ⟨.idle (fun _ _ => nofun) nofun, rfl⟩
      | true =>
        cases h
        refine ⟨.lowered rfl hdisabled hreserved ?_, rfl⟩
        rintro _ _ ⟨⟩
        obtain ⟨r, hrange, hidentity, hmatches, howns⟩ := isFreshWrite_eq_true hfresh
        exact ⟨r, by rw [hid, hidentity], hrange, hmatches, howns⟩
  | put cf key value
  | catalogTxn ops
  | write ops =>
    obtain ⟨hdisabled, hreserved⟩ := hguard _ rfl
    cases h
    exact ⟨.lowered rfl hdisabled hreserved nofun, rfl⟩
  | confChange add node
  | noop =>
    cases h
    exact ⟨.idle nofun nofun, rfl⟩
  | _ => nomatch h

theorem guardLegacyTtl_eq_none (h : m.guardLegacyTtl pos cmd = .ok none) {ops : List KvOp}
    (hops : legacyOps cmd = some ops) :
  m.ttlEnabled = false ∧ ops.any reservedOp = false
  := by
  simp only [guardLegacyTtl, hops] at h
  split_ifs at h with hpass henabled
  · rwa [Bool.or_eq_false_iff] at hpass
  · split at h
    · nomatch h
    · obtain ⟨_, -, h⟩ := bind_eq_ok.mp h
      nomatch h

theorem applied_of_guardLegacyTtl (h : m.guardLegacyTtl pos cmd = .ok (some (m', result))) :
  ∃ batch, Applied x m pos cmd m' result.outcome batch
  := by
  rw [guardLegacyTtl] at h
  split at h
  · nomatch h
  · split_ifs at h
    · nomatch h
    · split at h
      · nomatch h
      · obtain ⟨answer, hrefuse, h⟩ := bind_eq_ok.mp h
        cases h
        apply applied_of_ttlRefuse hrefuse

theorem applied_of_applyOther (h : m.applyOther x pos cmd = .ok (m', result)) :
  ∃ batch, Applied x m pos cmd m' result.outcome batch
  := by
  rw [applyOther, bind_eq_ok] at h
  obtain ⟨guarded, hguarded, h⟩ := h
  cases guarded with
  | some answer =>
    cases h
    apply applied_of_guardLegacyTtl hguarded
  | none =>
    have hplain : (m.adjudicate missingAdjudicator cmd >>= fun r => m.finish r.1 pos r.2)
        = .ok (m', result) →
        ∃ batch, Applied x m pos cmd m' result.outcome batch := by
      intro h
      obtain ⟨⟨batch, outcome⟩, hbatch, h⟩ := bind_eq_ok.mp h
      obtain ⟨heffect, henables⟩ :=
        effect_of_adjudicate (fun ops => guardLegacyTtl_eq_none hguarded) hbatch
      apply applied_of_finish heffect henables h
    cases cmd with
    | dataRange expected next => apply applied_of_applyDataRange h
    | compactionConfirmed region floor => apply applied_of_applyCompactionConfirmed h
    | manifestChange p => apply applied_of_applyManifestChange (.inl rfl) h
    | largeManifestChange p => apply applied_of_applyManifestChange (.inr rfl) h
    | _ => apply hplain h

/-- A position that is not above the applied one is skipped. -/
theorem applyAt_of_le (h : pos.index ≤ m.applied) :
  m.applyAt x pos cmd = .ok (m, ⟨pos.index, .plain⟩)
  := by
  rw [applyAt.eq_def, if_pos h]

/-- Every entry above the applied position that is not an error has an effect. -/
theorem applied_of_applyAt (h : m.applyAt x pos cmd = .ok (m', result))
    (hindex : m.applied < pos.index) :
  ∃ batch, Applied x m pos cmd m' result.outcome batch
  := by
  rw [applyAt.eq_def, if_neg (not_le_of_gt hindex)] at h
  cases cmd with
  | rawTtl command => apply applied_of_applyRawTtl h
  | _ => apply applied_of_applyOther h

end Machine

end Kv9.Raft
