import Kv9.Raft.StateMachine.Expiry

/-!
# Manifest changes

The manifest of a region has a generation and the identity of the change that made it.  A change
names the generation it expects and is applied if that is the current one, so the changes that
were applied are numbered from zero, and the pair that is stored tells the last of them.  A
publisher that has lost its answer reads the pair: one generation above the expected one, the pair
names the only change that could be its own.
-/

namespace Kv9.Raft

open Codec Engine Except RawTtl List Rows

/-- What reading the pair tells about an attempt. -/
inductive ReconcileObservation where
  | myChangeApplied (generation : UInt64)
  | knownNotApplied (winnerChangeId : Bytes)
  | unknown
deriving DecidableEq

/-- Classify a pair against an attempt. -/
def classifyReconciliation (pair : ManifestPair) (expectedGeneration : UInt64)
    (changeId : Bytes) : ReconcileObservation :=
  if changeId = [] then
    .unknown
  else
    match checkedAdd64 expectedGeneration 1 with
    | none => .unknown
    | some exactWindow =>
      if pair.generation = exactWindow then
        if pair.lastChangeId = changeId then
          .myChangeApplied pair.generation
        else
          .knownNotApplied pair.lastChangeId
      else
        .unknown

/-- The payload of a manifest change. -/
def Command.manifestPayload : Command → Option ManifestChangePayload
  | .manifestChange p => some p
  | .largeManifestChange p => some p
  | _ => none

/-- Whether a manifest change is a large one. -/
def Command.isLarge : Command → Bool
  | .largeManifestChange _ => true
  | _ => false

/-- The change of a region's manifest that an entry made: the generation it expected, and its
identity. -/
def Event.transition (region : UInt64) (e : Event) : Option (UInt64 × Bytes) :=
  match e.cmd.manifestPayload, e.outcome with
  | some p, .manifest (.applied _ _) =>
    if p.region = region then some (p.expectedGeneration, p.changeId) else none
  | _, _ => none

/-- The changes of a region's manifest that a run made. -/
def transitions (region : UInt64) (trace : List Event) : List (UInt64 × Bytes) :=
  trace.filterMap (Event.transition region)

/-- The pair after some changes. -/
def pairAfter (changes : List (UInt64 × Bytes)) : ManifestPair :=
  match changes.getLast? with
  | none => ⟨0, []⟩
  | some change => ⟨change.1 + 1, change.2⟩

/-- An entry whose plain operations, if it was accepted, do not name the pair of a region. -/
def Event.SparesManifest (e : Event) : Prop :=
  e.outcome = .plain → ∀ ops, Machine.legacyOps e.cmd = some ops → ∀ op ∈ ops,
    cfFromCode op.cf = .default → ∀ region, op.key ≠ manifestPairKey region

/-! ## Rows -/

theorem manifestPairKey_injective :
  Function.Injective manifestPairKey
  := by
  intro region region' h
  have hbytes : be64 region = be64 region' := by
    simpa only [manifestPairKey, append_cancel_left_eq] using h
  rw [← fromBe64_be64 region, hbytes, fromBe64_be64]

theorem manifestPairKey_ne_manifestGenKey (region region' generation : UInt64) :
  manifestPairKey region ≠ manifestGenKey region' generation
  := by
  intro h
  simp only [manifestPairKey, manifestGenKey, append_cancel_left_eq] at h
  have htake := congrArg (List.take 10) h
  rw [take_append_of_le_length (by decide +kernel),
    take_append_of_le_length (by decide +kernel)] at htake
  revert htake
  decide +kernel

variable {pair : ManifestPair}

theorem ManifestPair.decode_encode (h : pair.generation = 0 ↔ pair.lastChangeId = []) :
  decode pair.encode = .ok pair
  := by
  have hlength : ¬ pair.encode.length < 8 := by
    rw [encode, length_append, length_be64]
    omega
  have htake : pair.encode.take 8 = be64 pair.generation := take_left' (length_be64 _)
  have hdrop : pair.encode.drop 8 = pair.lastChangeId := drop_left' (length_be64 _)
  have hadvanced : ¬ (0 < pair.generation ∧ pair.lastChangeId = []) := by
    rintro ⟨hpos, hnil⟩
    rw [h.mpr hnil] at hpos
    exact absurd hpos (lt_irrefl _)
  have hvirgin : ¬ (pair.generation = 0 ∧ pair.lastChangeId ≠ []) := fun hzero =>
    hzero.2 (h.mp hzero.1)
  rw [decode, failIf_neg hlength, htake, hdrop]
  simp [failIf_neg hadvanced, failIf_neg hvirgin]

namespace Machine

variable {x : Externals} {judge : Option Judge} {start m m' : Machine} {pos : AppliedPosition}
  {cmd : Command} {result : ApplyResult} {trace : List Event} {p : ManifestChangePayload}
  {region : UInt64}

theorem applyAtBy_manifest (hcmd : cmd.manifestPayload = some p) (hindex : m.applied < pos.index) :
  m.applyAtBy x judge pos cmd = m.applyManifestChangeBy x judge pos cmd.isLarge p
  := by
  rw [applyAtBy.eq_def, if_neg (not_le_of_gt hindex)]
  cases cmd with
  | manifestChange | largeManifestChange =>
    cases hcmd
    rfl
  | _ => cases hcmd

theorem applyManifestChangeBy_eq_ok {large : Bool} :
  m.applyManifestChangeBy x judge pos large p = .ok (m', result)
    ↔ ∃ current invalid, manifestPair m.engine p.region = .ok current
      ∧ m.checkpointErrorBy x judge large p = .ok invalid ∧ m.Advances pos
      ∧ m' = m.after (manifestEffect current invalid p pos.index).1 pos
      ∧ result = ⟨pos.index, .manifest (manifestEffect current invalid p pos.index).2⟩
  := by
  simp only [applyManifestChangeBy, bind_eq_ok, finish_eq_ok]
  constructor
  · rintro ⟨current, hcurrent, invalid, hinvalid, h⟩
    exact ⟨current, invalid, hcurrent, hinvalid, h⟩
  · rintro ⟨current, invalid, hcurrent, hinvalid, h⟩
    exact ⟨current, hcurrent, invalid, hinvalid, h⟩

/-- A change is applied to the generation it expects, with an identity, or nothing is written. -/
theorem manifestEffect_cases (current : ManifestPair) (invalid : Option ManifestInvalidReason)
    (p : ManifestChangePayload) (index : UInt64) :
  (current.generation = p.expectedGeneration ∧ p.changeId ≠ []
      ∧ p.expectedGeneration.toNat + 1 < 2 ^ 64
      ∧ manifestEffect current invalid p index = ([.put .default (manifestPairKey p.region)
              (ManifestPair.encode ⟨p.expectedGeneration + 1, p.changeId⟩),
            .put .default (manifestGenKey p.region (p.expectedGeneration + 1))
              (be64 p.watermarkTerm ++ (be64 p.watermarkIndex ++ p.changeset))],
          .applied p.region (p.expectedGeneration + 1)))
    ∨ ((manifestEffect current invalid p index).1 = []
      ∧ ∀ region generation, (manifestEffect current invalid p index).2 ≠ .applied region generation)
  := by
  cases invalid with
  | some reason => exact .inr ⟨rfl, fun _ _ => by rintro ⟨⟩⟩
  | none =>
    simp only [manifestEffect]
    split_ifs with hid hmark hgeneration
    · exact .inr ⟨rfl, fun _ _ => by simp⟩
    · exact .inr ⟨rfl, fun _ _ => by simp⟩
    · rw [checkedAdd64, ← hgeneration]
      split_ifs with hlast
      · exact .inl ⟨rfl, hid, hlast, rfl⟩
      · exact .inr ⟨rfl, fun _ _ => by simp⟩
    · exact .inr ⟨rfl, fun _ _ => by simp⟩
    · exact .inr ⟨rfl, fun _ _ => by simp⟩

/-- An entry that is not a manifest change leaves the pair of a region alone, unless one of its
plain operations names it. -/
theorem get_pair_of_applyAtBy (hcmd : cmd.manifestPayload = none)
    (hspares : Event.SparesManifest ⟨pos, cmd, result.outcome⟩) (hindex : m.applied < pos.index)
    (h : m.applyAtBy x judge pos cmd = .ok (m', result)) (region : UInt64) :
  m'.engine.get .default (manifestPairKey region) = m.engine.get .default (manifestPairKey region)
  := by
  obtain ⟨index, outcome⟩ := result
  have hlowered : ∀ ops, outcome = .plain → legacyOps cmd = some ops →
      m.engine.rows.write (lowerOps ops) .default (manifestPairKey region)
        = m.engine.rows .default (manifestPairKey region) := by
    intro ops hplain hops
    apply write_of_forall_ne
    rintro mutation hmutation ⟨hcf, hkey⟩
    obtain ⟨op, hop, rfl⟩ := mem_lowerOps.mp hmutation
    rw [KvOp.cf_lower] at hcf
    rw [KvOp.key_lower] at hkey
    exact hspares hplain ops hops op hop hcf.symm region hkey.symm
  have hne : clockKey ≠ manifestPairKey region := cons_ne_manifestPairKey (by decide) _ region
  obtain ⟨batch, happlied⟩ | ⟨fence, inner, rfl, -, -, -, hplain, rfl⟩ :=
    applied_of_applyAtBy h hindex
  · rw [happlied.after_eq]
    cases happlied.effect with
    | idle => rfl
    | lowered hops => apply hlowered _ rfl hops
    | manifest hmanifest =>
      obtain rfl | rfl := hmanifest
      · nomatch hcmd
      · nomatch hcmd
    | ttl _ _ _ _ _ _ _ _ heffect =>
      apply write_ttl_of_not_raw heffect _ _ (isRawKey_manifestPairKey region) hne.symm
    | _ =>
      rfl
  · apply hlowered _ hplain rfl

/-! ## The number of a change -/

/-- The changes of a region are numbered from zero, have identities, and leave the pair that is
stored. -/
structure Tallies (region : UInt64) (trace : List Event) (m : Machine) : Prop where
  pair_eq : manifestPair m.engine region = .ok (pairAfter (transitions region trace))
  numbered : (transitions region trace).map (·.1.toNat)
    = List.range (transitions region trace).length
  identified : ∀ change ∈ transitions region trace, change.2 ≠ [] ∧ change.1.toNat + 1 < 2 ^ 64

theorem manifestPair_congr (h : m'.engine.get .default (manifestPairKey region)
    = m.engine.get .default (manifestPairKey region)) :
  manifestPair m'.engine region = manifestPair m.engine region
  := by
  rw [manifestPair, manifestPair, h]

theorem transitions_concat (region : UInt64) (trace : List Event) (e : Event) :
  transitions region (trace ++ [e])
    = transitions region trace ++ (e.transition region).toList
  := by
  rw [transitions, transitions, filterMap_append]
  cases h : e.transition region with
  | none => rw [filterMap_cons_none h, filterMap_nil, Option.toList_none]
  | some change => rw [filterMap_cons_some h, filterMap_nil, Option.toList_some]

/-- An entry that leaves the pair alone and makes no change. -/
theorem Tallies.idle {e : Event} (h : Tallies region trace m)
    (hget : m'.engine.get .default (manifestPairKey region)
      = m.engine.get .default (manifestPairKey region))
    (htransition : e.transition region = none) :
  Tallies region (trace ++ [e]) m'
  := by
  have hsame : transitions region (trace ++ [e]) = transitions region trace := by
    rw [transitions_concat, htransition, Option.toList_none, append_nil]
  constructor
  · rw [hsame, manifestPair_congr hget]
    apply h.pair_eq
  · rw [hsame]
    apply h.numbered
  · rw [hsame]
    apply h.identified

theorem numbered_concat {changes : List (UInt64 × Bytes)} {change : UInt64 × Bytes} :
  (changes ++ [change]).map (·.1.toNat) = List.range (changes ++ [change]).length
    ↔ changes.map (·.1.toNat) = List.range changes.length ∧ change.1.toNat = changes.length
  := by
  rw [map_append, length_append, length_singleton, range_succ, map_singleton]
  constructor
  · intro h
    obtain ⟨hinit, hlast⟩ := append_inj' h rfl
    use hinit, singleton_inj.mp hlast
  · rintro ⟨hinit, hlast⟩
    rw [hinit, hlast]

/-- The pair counts the changes. -/
theorem Tallies.generation_eq (h : Tallies region trace m) :
  (pairAfter (transitions region trace)).generation.toNat = (transitions region trace).length
  := by
  cases hlast : (transitions region trace).getLast? with
  | none =>
    rw [List.getLast?_eq_none_iff] at hlast
    rw [hlast]
    rfl
  | some change =>
    have hsplit := dropLast_append_getLast? change hlast
    have hnumbered := h.numbered
    have hbound := (h.identified change (mem_of_getLast? hlast)).2
    rw [← hsplit, numbered_concat] at hnumbered
    rw [pairAfter, hlast, ← hsplit, length_append, length_singleton]
    simp only [UInt64.toNat_add, UInt64.reduceToNat]
    omega

variable {id : Bytes}

theorem Tallies.change {e : Event} (h : Tallies region trace m) {generation : UInt64}
    (htransition : e.transition region = some (generation, id))
    (hgeneration : (pairAfter (transitions region trace)).generation = generation) (hid : id ≠ [])
    (hbound : generation.toNat + 1 < 2 ^ 64)
    (hpair : m'.engine.get .default (manifestPairKey region)
      = some (ManifestPair.encode ⟨generation + 1, id⟩)) :
  Tallies region (trace ++ [e]) m'
  := by
  have hchanges : transitions region (trace ++ [e])
      = transitions region trace ++ [(generation, id)] := by
    rw [transitions_concat, htransition, Option.toList_some]
  have hcount := h.generation_eq
  have hnext : generation + 1 ≠ 0 := by
    intro hzero
    have := congrArg UInt64.toNat hzero
    simp only [UInt64.toNat_add, UInt64.reduceToNat] at this
    omega
  have hdecode : ManifestPair.decode (ManifestPair.encode ⟨generation + 1, id⟩)
      = .ok ⟨generation + 1, id⟩ :=
    ManifestPair.decode_encode ⟨fun hzero => absurd hzero hnext, fun hnil => absurd hnil hid⟩
  constructor
  · rw [manifestPair, hpair, readRow, hdecode, hchanges, pairAfter, List.getLast?_concat]
    rfl
  · rw [hchanges, numbered_concat]
    use h.numbered
    rw [← hcount, hgeneration]
  · intro change hmem
    rw [hchanges, mem_append, mem_singleton] at hmem
    obtain hmem | rfl := hmem
    · apply h.identified change hmem
    · use hid, hbound

/-- A manifest change keeps the tally of every region. -/
theorem Tallies.manifest (h : Tallies region trace m) (hcmd : cmd.manifestPayload = some p)
    (hindex : m.applied < pos.index) (happly : m.applyAtBy x judge pos cmd = .ok (m', result)) :
  Tallies region (trace ++ [⟨pos, cmd, result.outcome⟩]) m'
  := by
  rw [applyAtBy_manifest hcmd hindex, applyManifestChangeBy_eq_ok] at happly
  obtain ⟨current, invalid, hcurrent, -, -, rfl, rfl⟩ := happly
  obtain ⟨hgeneration, hid, hbound, heffect⟩ | ⟨hbatch, hverdict⟩ :=
    manifestEffect_cases current invalid p pos.index
  · rw [heffect]
    have hgen : ∀ region, manifestPairKey region ≠ manifestGenKey p.region (p.expectedGeneration + 1) :=
      fun region => manifestPairKey_ne_manifestGenKey _ _ _
    by_cases hregion : p.region = region
    · have htransition : Event.transition region ⟨pos, cmd, .manifest (.applied p.region
          (p.expectedGeneration + 1))⟩ = some (p.expectedGeneration, p.changeId) := by
        simp [Event.transition, hcmd, if_pos hregion]
      rw [hregion, h.pair_eq] at hcurrent
      apply h.change htransition _ hid hbound
      · rw [get_after, write_cons, write_cons, write_nil, mutate_put,
          if_neg fun h => hgen region h.2, mutate_put, if_pos ⟨rfl, by rw [hregion]⟩]
      · rw [Except.ok.inj hcurrent, hgeneration]
    · apply h.idle
      · rw [get_after, write_cons, write_cons, write_nil, mutate_put,
          if_neg fun h => hgen region h.2, mutate_put,
          if_neg fun h => hregion (manifestPairKey_injective h.2).symm]
        rfl
      · simp [Event.transition, hcmd, if_neg hregion]
  · apply h.idle
    · rw [hbatch]
      rfl
    · simp only [Event.transition, hcmd]
      split
      · rename_i happlied
        exact absurd (ApplyOutcome.manifest.inj happlied) (hverdict _ _)
      · rfl

theorem tallies_of_empty (hstart : start.engine = Store.empty) (region : UInt64) :
  Tallies region [] start
  := by
  constructor
  · rw [hstart]
    rfl
  · rfl
  · nofun

/-- In every run from an empty engine in which no plain operation names the pair of a region, the
changes of every region are tallied. -/
theorem RunBy.tallies (hstart : start.engine = Store.empty)
    (hspares : ∀ e ∈ trace, e.SparesManifest) (hrun : RunBy x judge start trace m)
    (region : UInt64) :
  m.Settled ∧ Tallies region trace m
  := by
  have hsettled : start.Settled := by
    rw [Settled, hstart]
    nofun
  have hinvariant : m.Settled ∧ ((∀ e ∈ trace, e.SparesManifest) → Tallies region trace m) := by
    refine RunBy.induction
      (P := fun trace m => (∀ e ∈ trace, e.SparesManifest) → Tallies region trace m)
      hsettled (fun _ => tallies_of_empty hstart region) ?_ ?_ hrun
    · intro trace m m' pos cmd result _ ih hindex happly hspares
      rw [forall_mem_append, forall_mem_singleton] at hspares
      cases hcmd : cmd.manifestPayload with
      | some p => apply (ih hspares.1).manifest hcmd hindex happly
      | none =>
        apply (ih hspares.1).idle
        · apply get_pair_of_applyAtBy hcmd hspares.2 hindex happly
        · simp [Event.transition, hcmd]
    · intro trace m m' ih hreopen hspares
      obtain ⟨clock, -, rfl⟩ := reopen_eq_ok hreopen
      have h := ih hspares
      use h.pair_eq, h.numbered, h.identified
  exact ⟨hinvariant.1, hinvariant.2 hspares⟩

/-! ## Reconciliation -/

variable {expected : UInt64}

/-- An answer other than unknown is given one generation above the expected one. -/
theorem window_of_classifyReconciliation (h : classifyReconciliation pair expected id ≠ .unknown) :
  id ≠ [] ∧ pair.generation.toNat = expected.toNat + 1
    ∧ classifyReconciliation pair expected id
      = if pair.lastChangeId = id then .myChangeApplied pair.generation
        else .knownNotApplied pair.lastChangeId
  := by
  rw [classifyReconciliation, checkedAdd64] at h ⊢
  by_cases hid : id = []
  · rw [if_pos hid] at h
    exact absurd rfl h
  · rw [if_neg hid] at h ⊢
    by_cases hbound : expected.toNat + (1 : UInt64).toNat < 2 ^ 64
    · simp only [if_pos hbound] at h ⊢
      by_cases hwindow : pair.generation = expected + 1
      · rw [if_pos hwindow]
        refine ⟨hid, ?_, rfl⟩
        rw [hwindow, UInt64.toNat_add]
        simp only [UInt64.reduceToNat] at hbound ⊢
        omega
      · rw [if_neg hwindow] at h
        exact absurd rfl h
    · simp only [if_neg hbound] at h
      exact absurd rfl h

/-- One generation above the expected one an attempt with an identity is classified. -/
theorem classifyReconciliation_ne_unknown (hid : id ≠ [])
    (hwindow : pair.generation.toNat = expected.toNat + 1) :
  classifyReconciliation pair expected id ≠ .unknown
  := by
  have hbound : expected.toNat + (1 : UInt64).toNat < 2 ^ 64 := by
    have := pair.generation.toNat_lt
    simp only [UInt64.reduceToNat]
    omega
  have hgeneration : pair.generation = expected + 1 := by
    rw [← UInt64.toNat_inj, UInt64.toNat_add]
    simp only [UInt64.reduceToNat] at hbound ⊢
    omega
  rw [classifyReconciliation, checkedAdd64, if_neg hid]
  simp only [if_pos hbound, if_pos hgeneration]
  split_ifs
  · simp
  · simp

/-- One generation above an expected one, the pair names the change that expected it. -/
theorem Tallies.mem_of_window (h : Tallies region trace m)
    (hwindow : (pairAfter (transitions region trace)).generation.toNat = expected.toNat + 1) :
  (expected, (pairAfter (transitions region trace)).lastChangeId) ∈ transitions region trace
  := by
  rw [h.generation_eq] at hwindow
  cases hlast : (transitions region trace).getLast? with
  | none =>
    rw [List.getLast?_eq_none_iff] at hlast
    rw [hlast] at hwindow
    nomatch hwindow
  | some change =>
    have hsplit := dropLast_append_getLast? change hlast
    have hnumbered := h.numbered
    rw [← hsplit, numbered_concat] at hnumbered
    rw [← hsplit, length_append, ← hnumbered.2] at hwindow
    have hexpected : change.1 = expected := UInt64.toNat_inj.mp (Nat.succ.inj hwindow)
    rw [pairAfter, hlast, ← hexpected]
    apply mem_of_getLast? hlast

/-- No two changes expect the same generation. -/
theorem Tallies.unique (h : Tallies region trace m) {id' : Bytes}
    (hid : (expected, id) ∈ transitions region trace)
    (hid' : (expected, id') ∈ transitions region trace) :
  id = id'
  := by
  have hnodup : ((transitions region trace).map (·.1.toNat)).Nodup := by
    rw [h.numbered]
    apply nodup_range
  exact congrArg Prod.snd (inj_on_of_nodup_map hnodup hid hid' rfl)

/-- After any run an attempt that is answered as applied was applied; one that is answered as not
applied was not, and is not in any continuation of the run; and an attempt with an identity is
answered one way or the other as soon as the generation is one above the expected one. -/
theorem reconciliation_is_sound (hstart : start.engine = Store.empty)
    (hrun : RunBy x judge start trace m) (hspares : ∀ e ∈ trace, e.SparesManifest)
    (region expected : UInt64) (id : Bytes) :
  ∃ pair, manifestPair m.engine region = .ok pair
    ∧ (∀ generation, classifyReconciliation pair expected id = .myChangeApplied generation →
      (expected, id) ∈ transitions region trace)
    ∧ (∀ winner, classifyReconciliation pair expected id = .knownNotApplied winner →
      ∀ trace' m', RunBy x judge m trace' m' → (∀ e ∈ trace', e.SparesManifest) →
        (expected, id) ∉ transitions region (trace ++ trace'))
    ∧ (id ≠ [] → pair.generation.toNat = expected.toNat + 1 →
      classifyReconciliation pair expected id ≠ .unknown)
  := by
  have htallies := (hrun.tallies hstart hspares region).2
  refine ⟨_, htallies.pair_eq, ?_, ?_, classifyReconciliation_ne_unknown⟩
  · intro generation happlied
    obtain ⟨-, hwindow, hanswer⟩ := window_of_classifyReconciliation (by rw [happlied]; nofun)
    rw [happlied] at hanswer
    split_ifs at hanswer with hmine
    · rw [← hmine]
      apply htallies.mem_of_window hwindow
  · intro winner hnot trace' m' hrun' hspares' hmem
    obtain ⟨-, hwindow, hanswer⟩ := window_of_classifyReconciliation (by rw [hnot]; nofun)
    rw [hnot] at hanswer
    split_ifs at hanswer with hmine
    · have hlater := ((hrun.trans hrun').tallies hstart
        (forall_mem_append.mpr ⟨hspares, hspares'⟩) region).2
      apply hmine
      apply hlater.unique _ hmem
      rw [transitions, filterMap_append, mem_append]
      left
      apply htallies.mem_of_window hwindow

/-- The first change of a region. -/
def firstChange : ManifestChangePayload := ⟨7, [1], 0, [], 0, 0⟩

/-- The machine after the first change. -/
def afterFirstChange : Machine :=
  (⟨none, Store.empty, 0, false⟩ : Machine).after
    (manifestEffect ⟨0, []⟩ none firstChange 1).1 ⟨1, 1⟩

theorem run_firstChange (x : Externals) :
  RunBy x none ⟨none, Store.empty, 0, false⟩
    [⟨⟨1, 1⟩, .manifestChange firstChange, .manifest (.applied 7 1)⟩] afterFirstChange
  := by
  have happly : (⟨none, Store.empty, 0, false⟩ : Machine).applyAtBy x none ⟨1, 1⟩
      (.manifestChange firstChange)
        = .ok (afterFirstChange, ⟨1, .manifest (.applied 7 1)⟩) := by
    have hplain : isCheckpoint firstChange.changeset = false := by decide +kernel
    rw [applyAtBy_manifest rfl (by decide), applyManifestChangeBy_eq_ok]
    refine ⟨⟨0, []⟩, none, rfl, ?_, nofun, rfl, rfl⟩
    rw [checkpointErrorBy, hplain]
    rfl
  exact RunBy.start.apply happly

theorem manifestPair_afterFirstChange :
  manifestPair afterFirstChange.engine 7 = .ok ⟨1, [1]⟩
  := by
  obtain ⟨x⟩ := nonempty_externals
  apply ((run_firstChange x).tallies rfl _ 7).2.pair_eq
  simp [Event.SparesManifest]

/-- An attempt without an identity is not answered, one generation above the expected one. -/
theorem attempt_without_identity_is_unknown :
  ∃ (x : Externals) (trace : List Event) (m : Machine) (pair : ManifestPair),
    RunBy x none ⟨none, Store.empty, 0, false⟩ trace m
    ∧ (∀ e ∈ trace, e.cmd.manifestPayload ≠ none)
    ∧ manifestPair m.engine 7 = .ok pair ∧ pair.generation.toNat = (0 : UInt64).toNat + 1
    ∧ classifyReconciliation pair 0 [] = .unknown
  := by
  obtain ⟨x⟩ := nonempty_externals
  refine ⟨x, _, _, _, run_firstChange x, ?_, manifestPair_afterFirstChange, rfl, rfl⟩
  simp [Command.manifestPayload]

/-- The publisher of the first change reads that it was applied. -/
theorem reconciliation_is_sound_first :
  classifyReconciliation ⟨1, [1]⟩ 0 [1] = .myChangeApplied 1
    ∧ (0, [1]) ∈ transitions 7
      [⟨⟨1, 1⟩, .manifestChange firstChange, .manifest (.applied 7 1)⟩]
  := by
  obtain ⟨x⟩ := nonempty_externals
  have hspares : ∀ e ∈ [(⟨⟨1, 1⟩, .manifestChange firstChange, .manifest (.applied 7 1)⟩ : Event)],
      e.SparesManifest := by
    simp [Event.SparesManifest]
  obtain ⟨pair, hpair, happlied, -⟩ :=
    reconciliation_is_sound rfl (run_firstChange x) hspares 7 0 [1]
  cases hpair.symm.trans manifestPair_afterFirstChange
  have hanswer : classifyReconciliation ⟨1, [1]⟩ 0 [1] = .myChangeApplied 1 := by decide
  use hanswer, happlied 1 hanswer

/-! ## Verdicts -/

/-- The checkpoint of a change is for its region and its position. -/
def Fits (p : ManifestChangePayload)
    (checkpoint : CheckpointManifest) : Prop :=
  checkpoint.scope.region = p.region ∧ checkpoint.term = p.watermarkTerm
    ∧ checkpoint.index = p.watermarkIndex

/-- A change that is not a checkpoint, or one that the format of the command reads and, as far as
it is looked at, that can be written again and whose epoch is judged. -/
def Legible (x : Externals) (judge : Option Judge) (m : Machine) (large : Bool)
    (p : ManifestChangePayload) : Prop :=
  isCheckpoint p.changeset = true →
    ∃ checkpoint, decodeCheckpointManifest x large p.changeset = .ok checkpoint
      ∧ (Fits p checkpoint → ∃ id, checkpointChangeId x checkpoint p.expectedGeneration = .ok id
        ∧ (id = p.changeId → ∃ j fresh, judge = some j
          ∧ j.isFresh m.engine ⟨p.region, checkpoint.scope.confVer, checkpoint.scope.version⟩
            = .ok fresh))

theorem checkpointErrorBy_isOk_iff {large : Bool} :
  (∃ invalid, m.checkpointErrorBy x judge large p = .ok invalid) ↔ Legible x judge m large p
  := by
  rw [checkpointErrorBy, Legible]
  cases hcheckpoint : isCheckpoint p.changeset with
  | false =>
    simp only [Bool.false_eq_true, if_false, false_implies, iff_true]
    exact ⟨_, rfl⟩
  | true =>
    simp only [if_true, true_implies]
    cases hdecode : decodeCheckpointManifest x large p.changeset with
    | error e => simp only [error_bind, reduceCtorEq, exists_false, false_and]
    | ok checkpoint =>
      simp only [ok_bind, Except.ok.injEq, exists_eq_left']
      by_cases hfits : Fits p checkpoint
      · have hagrees : ¬ (checkpoint.scope.region ≠ p.region ∨ checkpoint.term ≠ p.watermarkTerm
            ∨ checkpoint.index ≠ p.watermarkIndex) := by
          rintro (h | h | h)
          · exact h hfits.1
          · exact h hfits.2.1
          · exact h hfits.2.2
        simp only [if_neg hagrees, hfits, true_implies]
        cases hid : checkpointChangeId x checkpoint p.expectedGeneration with
        | error e => simp only [error_bind, reduceCtorEq, exists_false, false_and]
        | ok id =>
          simp only [ok_bind, pure_eq_ok, Except.ok.injEq, exists_eq_left', bne_iff_ne]
          by_cases hsame : id = p.changeId
          · simp only [hsame, ne_eq, not_true_eq_false, if_false, true_implies]
            cases judge with
            | none => simp [throw, throwThe, MonadExceptOf.throw]
            | some j =>
              simp only [bind_eq_ok]
              constructor
              · rintro ⟨_, fresh, hfresh, -⟩
                use j, fresh, rfl, hfresh
              · rintro ⟨_, fresh, ⟨⟩, hfresh⟩
                exact ⟨_, fresh, hfresh, rfl⟩
          · simp only [ne_eq, hsame, not_false_eq_true, if_true, false_implies, iff_true]
            exact ⟨_, rfl⟩
      · have hdiffers : checkpoint.scope.region ≠ p.region ∨ checkpoint.term ≠ p.watermarkTerm
            ∨ checkpoint.index ≠ p.watermarkIndex := by
          by_contra h
          push Not at h
          exact hfits h
        simp only [if_pos hdiffers, hfits, false_implies, iff_true, pure_eq_ok, ok_bind, if_true]
        exact ⟨_, rfl⟩

/-- After any run from an empty engine in which no plain operation named the pair of a region, a
manifest change is answered by a verdict exactly if it is legible.  A change that is refused moves
the applied position and nothing else. -/
theorem manifest_change_returns_verdict_iff (hstart : start.engine = Store.empty)
    (hrun : RunBy x judge start trace m) (hspares : ∀ e ∈ trace, e.SparesManifest)
    (hcmd : cmd.manifestPayload = some p) (hindex : m.applied < pos.index) :
  ((∃ m' verdict, m.applyAtBy x judge pos cmd = .ok (m', ⟨pos.index, .manifest verdict⟩))
      ↔ Legible x judge m cmd.isLarge p)
    ∧ ∀ m' result, m.applyAtBy x judge pos cmd = .ok (m', result) →
      ∃ verdict, result = ⟨pos.index, .manifest verdict⟩
        ∧ ((∃ generation, verdict = .applied p.region generation) ∨ m' = m.after [] pos)
  := by
  obtain ⟨hsettled, htallies⟩ := hrun.tallies hstart hspares p.region
  rw [applyAtBy_manifest hcmd hindex, ← checkpointErrorBy_isOk_iff]
  constructor
  · constructor
    · rintro ⟨m', verdict, happly⟩
      obtain ⟨-, invalid, -, hinvalid, -⟩ := applyManifestChangeBy_eq_ok.mp happly
      use invalid, hinvalid
    · rintro ⟨invalid, hinvalid⟩
      refine ⟨_, _, applyManifestChangeBy_eq_ok.mpr
        ⟨_, invalid, htallies.pair_eq, hinvalid, hsettled.advances hindex, rfl, rfl⟩⟩
  · intro m' result happly
    obtain ⟨current, invalid, -, -, -, rfl, rfl⟩ := applyManifestChangeBy_eq_ok.mp happly
    refine ⟨_, rfl, ?_⟩
    obtain ⟨-, -, -, heffect⟩ | ⟨hbatch, -⟩ := manifestEffect_cases current invalid p pos.index
    · left
      rw [heffect]
      exact ⟨_, rfl⟩
    · right
      rw [hbatch]

/-- A change whose checkpoint ends after the magic. -/
def cutCheckpoint : ManifestChangePayload := ⟨7, [1], 0, "KV9CHECKPOINT".toUTF8.toList, 0, 0⟩

/-- The bytes of the change. -/
def cutCheckpointBytes : Bytes :=
  [1, 7] ++ (be64 7 ++ ([0, 0, 0, 1, 1] ++ (be64 0 ++ ([0, 0, 0, 13]
    ++ ("KV9CHECKPOINT".toUTF8.toList ++ (be64 0 ++ be64 0))))))

/-- The change is decoded, and applying it fails on a machine that has applied nothing, with every
judge. -/
theorem cutCheckpoint_fails_apply :
  Command.decode cutCheckpointBytes = .ok (.manifestChange cutCheckpoint)
    ∧ ∃ x : Externals, ∀ judge, (⟨none, Store.empty, 0, false⟩ : Machine).applyAtBy x judge ⟨1, 1⟩
        (.manifestChange cutCheckpoint)
      = .error (.engine "legacy checkpoint command requires V1 manifest")
  := by
  constructor
  · decide +kernel
  · obtain ⟨x⟩ := nonempty_externals
    use x
    intro judge
    have hcheckpoint : isCheckpoint cutCheckpoint.changeset = true := by decide +kernel
    have hversion : (CheckpointManifest.magic 1).isPrefixOf cutCheckpoint.changeset = false := by
      decide +kernel
    have hdecode : decodeCheckpointManifest x false cutCheckpoint.changeset
        = .error (.engine "legacy checkpoint command requires V1 manifest") := by
      rw [decodeCheckpointManifest, failIf_pos hversion]
      rfl
    have hpair : manifestPair Store.empty cutCheckpoint.region = .ok ⟨0, []⟩ := rfl
    rw [applyAtBy_manifest rfl (by decide), applyManifestChangeBy, hpair, ok_bind, checkpointErrorBy,
      if_pos hcheckpoint]
    simp [Command.isLarge, hdecode]

/-- A change without a checkpoint, after the first one. -/
theorem manifest_change_returns_verdict_iff_second :
  ∃ (x : Externals) (m' : Machine) (verdict : ManifestVerdict),
    afterFirstChange.applyAtBy x none ⟨1, 2⟩ (.manifestChange firstChange)
      = .ok (m', ⟨2, .manifest verdict⟩)
  := by
  obtain ⟨x⟩ := nonempty_externals
  have hspares : ∀ e ∈ [(⟨⟨1, 1⟩, .manifestChange firstChange, .manifest (.applied 7 1)⟩ : Event)],
      e.SparesManifest := by
    simp [Event.SparesManifest]
  have hplain : isCheckpoint firstChange.changeset = false := by decide +kernel
  have hindex : afterFirstChange.applied < (⟨1, 2⟩ : AppliedPosition).index := by
    decide
  have hlegible : Legible x none afterFirstChange false firstChange := by
    intro h
    rw [hplain] at h
    nomatch h
  use x
  apply (manifest_change_returns_verdict_iff rfl (run_firstChange x) hspares rfl hindex).1.mpr
  apply hlegible

end Machine

end Kv9.Raft
