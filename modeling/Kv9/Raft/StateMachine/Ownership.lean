import Kv9.Raft.StateMachine.Expiry

/-!
# A group writes only what it owns

A fenced write or a command on expiring values takes effect only at the epoch of the installed
range and on keys of the range, and changes only rows of its own keys and the watermark.  Once
the range is sealed it stays sealed and no row of a client changes; the confirmed compaction
floor does not decrease.
-/

namespace Kv9.Raft

open Codec Engine Except RawTtl List

namespace Command

/-- The command writes clients' keys on its own authority. -/
def IsWrite : Command → Prop
  | .fenced _ _ => True
  | .rawTtl _ => True
  | _ => False

/-- The commands of the log of a data group: fenced writes, commands on expiring values, range
commands, manifest changes and compaction confirmations. -/
def OfDataGroup : Command → Prop
  | .put _ _ _ => False
  | .write _ => False
  | .catalogTxn _ => False
  | _ => True

/-- The command names the epoch of the range, and only keys of the range. -/
def InRange (r : DataRange) : Command → Prop
  | .fenced fence inner =>
    r.isSealed = false ∧ fence = ⟨r.region, r.confVer, r.version⟩
      ∧ ∀ op ∈ inner.ops, op.cf = cfCode .default ∧ ∃ userKey,
        decodeKey op.key = .ok ⟨.raw, r.keyspace, userKey⟩ ∧ r.contains userKey = true
  | .rawTtl command =>
    r.isSealed = false ∧ command.fence = ⟨r.region, r.confVer, r.version⟩
      ∧ command.keyspace = r.keyspace ∧ ∀ userKey ∈ command.keys, r.contains userKey = true
  | _ => False

/-- The rows a command may change: those of its keys, and the watermark. -/
def OwnRow (cf : ColumnFamily) (key : Bytes) : Command → Prop
  | .fenced _ inner => cf = .default ∧ ∃ op ∈ inner.ops, op.key = key
  | .rawTtl command =>
    ((cf = .default ∨ cf = .write)
        ∧ ∃ userKey ∈ command.keys, encodeKey .raw command.keyspace userKey = .ok key)
      ∨ (cf = .default ∧ key = clockKey)
  | _ => False

end Command

namespace Machine

variable {x : Externals} {start m m' : Machine} {pos : AppliedPosition} {cmd : Command}
  {outcome : ApplyOutcome} {batch : WriteBatch} {trace : List Event} {cf : ColumnFamily}
  {key : Bytes} {r : DataRange}

/-! ## One entry -/

theorem inRange_of_fence {fence : RegionFence} {inner : FencedInner}
    (hmatches : fenceMatches r fence = true) (howns : inner.ops.all (ownsOp r) = true) :
  Command.InRange r (.fenced fence inner)
  := by
  simp only [fenceMatches, Bool.and_eq_true, Bool.not_eq_true', beq_iff_eq] at hmatches
  obtain ⟨⟨⟨hsealed, hregion⟩, hconf⟩, hversion⟩ := hmatches
  refine ⟨hsealed, ?_, ?_⟩
  · rw [hregion, hconf, hversion]
  · intro op hop
    have hown := all_eq_true.mp howns op hop
    rw [ownsOp, Bool.and_eq_true, beq_iff_eq] at hown
    use hown.1
    cases hkey : decodeKey op.key with
    | error e =>
      rw [hkey] at hown
      cases hown.2
    | ok k =>
      have howned := hown.2
      simp only [hkey, Bool.and_eq_true, beq_iff_eq] at howned
      obtain ⟨mode, keyspace, userKey⟩ := k
      obtain ⟨⟨rfl, rfl⟩, hcontains⟩ := howned
      use userKey, rfl, hcontains

theorem inRange_of_ttl {command : RawTtlCommand} (hregion : r.region = command.fence.regionId)
    (hkeyspace : r.keyspace = command.keyspace) (hfresh : ttlFresh r command = true) :
  Command.InRange r (.rawTtl command)
  := by
  simp only [ttlFresh, Bool.and_eq_true, Bool.not_eq_true', beq_iff_eq] at hfresh
  obtain ⟨⟨⟨hsealed, hconf⟩, hversion⟩, hkeys⟩ := hfresh
  refine ⟨hsealed, ?_, hkeyspace.symm, all_eq_true.mp hkeys⟩
  rw [hregion, hconf, hversion]

/-- A write that is accepted or changes a row is in the installed range, and the row is its
own. -/
theorem Applied.inRange (h : Applied x m pos cmd m' outcome batch) (hcmd : cmd.IsWrite) :
  (outcome = .plain → ∃ r, rangeOf m.engine = .ok (some r) ∧ cmd.InRange r)
    ∧ ∀ cf key, m'.engine.get cf key ≠ m.engine.get cf key → outcome = .plain ∧ cmd.OwnRow cf key
  := by
  have hget : ∀ cf key, m'.engine.get cf key = m.engine.rows.write batch cf key := by
    rw [h.after_eq]
    exact fun _ _ => rfl
  cases h.effect with
  | idle hlegacy httl =>
    constructor
    · intro hplain
      cases cmd with
      | fenced fence inner => exact absurd hplain (hlegacy _ rfl)
      | rawTtl command => exact absurd hplain (httl _ rfl)
      | _ => exact absurd hcmd id
    · intro cf key hne
      exact absurd (hget cf key) hne
  | @lowered _ ops hops _ _ hfence =>
    cases cmd with
    | fenced fence inner =>
      cases hops
      obtain ⟨r, -, hrange, hmatches, howns⟩ := hfence fence inner rfl
      have hin := inRange_of_fence hmatches howns
      use fun _ => ⟨r, hrange, hin⟩
      intro cf key hne
      rw [hget] at hne
      obtain ⟨mutation, hmutation, rfl, rfl⟩ := Rows.exists_of_write_ne hne
      obtain ⟨op, hop, rfl⟩ := mem_lowerOps.mp hmutation
      refine ⟨rfl, ?_, op, hop, ?_⟩
      · rw [KvOp.cf_lower, (hin.2.2 op hop).1]
        rfl
      · rw [KvOp.key_lower]
    | rawTtl command => nomatch hops
    | _ => exact absurd hcmd id
  | manifest hpayload =>
    rcases hpayload with rfl | rfl
    · exact absurd hcmd id
    · exact absurd hcmd id
  | @ttl command r prior clock batch _ hrange hregion hkeyspace hfresh _ _ _ heffect =>
    use fun _ => ⟨r, hrange, inRange_of_ttl hregion hkeyspace hfresh⟩
    intro cf key hne
    rw [hget] at hne
    use rfl
    obtain ⟨mutation, hmutation, rfl, rfl⟩ := Rows.exists_of_write_ne hne
    split_ifs at hmutation
    · rcases mem_append.mp hmutation with hmutation | hmutation
      · exact .inl (mem_ttlEffect heffect hmutation)
      · rw [mem_singleton.mp hmutation]
        exact .inr ⟨rfl, rfl⟩
    · exact .inl (mem_ttlEffect heffect hmutation)
  | _ => exact absurd hcmd id

/-! ## Sealed ranges -/

/-- Nothing but itself follows a sealed range. -/
theorem eq_of_acceptsRange {expected : Option RootDigest} {next : DataRange}
    (hsealed : r.isSealed = true) (h : acceptsRange x (some r) expected next = true) :
  some r = some next
  := by
  rw [acceptsRange.eq_def] at h
  split_ifs at h with heq
  · exact heq
  · cases expected with
    | none => cases h
    | some digest =>
      simp only [Bool.and_eq_true, DataRange.mayFollow] at h
      split at h
      · cases h.2
      · rw [hsealed] at h
        cases h.2

/-- An entry of a data group leaves a sealed range and the rows of clients alone. -/
theorem Applied.sealed (h : Applied x m pos cmd m' outcome batch) (hcmd : cmd.OfDataGroup)
    (hr : rangeOf m.engine = .ok (some r)) (hsealed : r.isSealed = true) :
  rangeOf m'.engine = .ok (some r)
    ∧ ∀ cf key, isRawKey key = true → m'.engine.get cf key = m.engine.get cf key
  := by
  have hengine : m'.engine = (m.after batch pos).engine := by
    rw [h.after_eq]
  have hopen : ∀ r', rangeOf m.engine = .ok (some r') → r'.isSealed = false → False := by
    intro r' hr' hopen
    cases hr.symm.trans hr'
    rw [hsealed] at hopen
    cases hopen
  -- What is left are batches on the rows of floors and manifests.
  have hreserved : (∀ mutation ∈ batch, isRawKey mutation.key = false ∧ mutation.key ≠ clockKey) →
      (∀ mutation ∈ batch, mutation.key ≠ rangeKey) →
      rangeOf m'.engine = .ok (some r)
        ∧ ∀ cf key, isRawKey key = true → m'.engine.get cf key = m.engine.get cf key := by
    intro hraw hrange
    rw [hengine]
    constructor
    · rw [rangeOf, get_after, Rows.write_of_forall_ne]
      · exact hr
      · rintro mutation hmutation ⟨-, hkey⟩
        exact hrange mutation hmutation hkey.symm
    · intro cf key hkey
      exact write_of_reserved (fun mutation hmutation => (hraw mutation hmutation).1) cf hkey
  have hbatch := reserved_of_effect h.effect
  cases h.effect with
  | idle => exact hreserved (by simp) (by simp)
  | lowered hops _ _ hfence =>
    cases cmd with
    | fenced fence inner =>
      obtain ⟨r', -, hrange, hmatches, howns⟩ := hfence fence inner rfl
      exact absurd (inRange_of_fence hmatches howns).1 (hopen r' hrange)
    | put cf key value
    | write ops
    | catalogTxn ops => exact absurd hcmd id
    | _ => cases hops
  | range _ _ hcurrent _ haccepts hne =>
    cases hr.symm.trans hcurrent
    exact absurd (eq_of_acceptsRange hsealed haccepts) hne
  | floor =>
    apply hreserved (hbatch (fun _ h => by cases h) (fun _ h => by cases h))
    intro mutation hmutation
    rw [mem_singleton.mp hmutation]
    exact rangeKey_ne_compactionConfirmedKey.symm
  | manifest =>
    apply hreserved (hbatch (fun _ _ => by simp) (fun _ _ => by simp))
    intro mutation hmutation
    rcases mem_cons.mp hmutation with rfl | hmutation
    · exact (cons_ne_manifestPairKey (by decide) _ _).symm
    · rw [mem_singleton.mp hmutation]
      exact (cons_ne_manifestGenKey (by decide) _ _ _).symm
  | ttl _ hrange hregion hkeyspace hfresh =>
    exact absurd (inRange_of_ttl hregion hkeyspace hfresh).1 (hopen _ hrange)

/-- A run of a data group leaves a sealed range and the rows of clients alone. -/
theorem Run.sealed (h : Run x m trace m') (hsettled : m.Settled)
    (hcmds : ∀ e ∈ trace, e.cmd.OfDataGroup) (hr : rangeOf m.engine = .ok (some r))
    (hsealed : r.isSealed = true) :
  rangeOf m'.engine = .ok (some r)
    ∧ ∀ cf key, isRawKey key = true → m'.engine.get cf key = m.engine.get cf key
  := by
  refine (Run.induction (P := fun trace m' => (∀ e ∈ trace, e.cmd.OfDataGroup) →
    rangeOf m'.engine = .ok (some r)
      ∧ ∀ cf key, isRawKey key = true → m'.engine.get cf key = m.engine.get cf key)
    hsettled (fun _ => ⟨hr, fun _ _ _ => rfl⟩) ?_ ?_ h).2 hcmds
  · intro trace m₁ m₂ pos cmd outcome batch _ ih _ happlied hcmds
    obtain ⟨hr', hrows⟩ := ih fun e he => hcmds e (mem_append_left _ he)
    obtain ⟨hr'', hrows'⟩ := happlied.sealed
      (hcmds _ (mem_append_right _ (mem_singleton_self _))) hr' hsealed
    use hr'', fun cf key hkey => (hrows' cf key hkey).trans (hrows cf key hkey)
  · intro trace m₁ m₂ ih hreopen hcmds
    obtain ⟨clock, -, rfl⟩ := reopen_eq_ok hreopen
    exact ih hcmds

/-! ## Compaction floors -/

@[simp]
theorem floorOf_encodeFloor (floor : AppliedPosition) :
  floorOf (encodeFloor floor) = some floor
  := by
  have hlength : (encodeFloor floor).length = 16 := by
    rw [encodeFloor, length_append, length_be64, length_be64]
  rw [floorOf, if_pos hlength, encodeFloor, take_left' (length_be64 _),
    drop_left' (length_be64 _), fromBe64_be64, fromBe64_be64]

variable {c : AppliedPosition} {commands : List (AppliedPosition × Command)}
  {results : List ApplyResult}

/-- An entry of a data group keeps the compaction floor or raises it. -/
theorem Applied.floor (h : Applied x m pos cmd m' outcome batch) (hcmd : cmd.OfDataGroup) (hc : confirmedFloor m.engine = some c) :
  ∃ c', confirmedFloor m'.engine = some c' ∧ (c' = c ∨ c.index < c'.index)
  := by
  have hengine : m'.engine = (m.after batch pos).engine := by
    rw [h.after_eq]
  have hsame : (∀ mutation ∈ batch, mutation.key ≠ compactionConfirmedKey) →
      ∃ c', confirmedFloor m'.engine = some c' ∧ (c' = c ∨ c.index < c'.index) := by
    intro hbatch
    refine ⟨c, ?_, .inl rfl⟩
    rw [hengine, confirmedFloor, get_after, Rows.write_of_forall_ne]
    · exact hc
    · rintro mutation hmutation ⟨-, hkey⟩
      exact hbatch mutation hmutation hkey.symm
  have hraw : (∀ mutation ∈ batch, isRawKey mutation.key = true ∨ mutation.key = clockKey) →
      ∃ c', confirmedFloor m'.engine = some c' ∧ (c' = c ∨ c.index < c'.index) := by
    intro hbatch
    apply hsame
    intro mutation hmutation hkey
    rcases hbatch mutation hmutation with hraw | hclock
    · rw [hkey] at hraw
      nomatch hraw
    · exact clockKey_ne_compactionConfirmedKey (hclock.symm.trans hkey)
  cases h.effect with
  | idle => exact hsame nofun
  | lowered hops _ _ hfence =>
    apply hraw
    intro mutation hmutation
    obtain ⟨op, hop, rfl⟩ := mem_lowerOps.mp hmutation
    rw [KvOp.key_lower]
    cases cmd with
    | fenced fence inner =>
      obtain ⟨r, -, -, hmatches, howns⟩ := hfence fence inner rfl
      obtain ⟨-, userKey, hkey, -⟩ := (inRange_of_fence hmatches howns).2.2 op hop
      exact .inl (isRawKey_of_decodeKey hkey rfl)
    | put cf key value
    | write ops
    | catalogTxn ops => exact absurd hcmd id
    | _ => nomatch hops
  | range =>
    apply hsame
    intro mutation hmutation
    rw [mem_singleton.mp hmutation]
    exact rangeKey_ne_compactionConfirmedKey
  | @floor region floor hadvances =>
    refine ⟨floor, ?_, .inr (hadvances c hc)⟩
    rw [hengine, confirmedFloor, get_after, Rows.write_cons, Rows.write_nil, Rows.mutate_put,
      if_pos ⟨rfl, rfl⟩]
    exact floorOf_encodeFloor floor
  | manifest =>
    apply hsame
    intro mutation hmutation
    rcases mem_cons.mp hmutation with rfl | hmutation
    · exact (cons_ne_manifestPairKey (by decide) _ _).symm
    · rw [mem_singleton.mp hmutation]
      exact (cons_ne_manifestGenKey (by decide) _ _ _).symm
  | ttl _ _ _ _ _ _ _ _ heffect =>
    apply hraw
    intro mutation hmutation
    split_ifs at hmutation
    · rcases mem_append.mp hmutation with hmutation | hmutation
      · exact .inl (isRawKey_of_mem_ttlEffect heffect hmutation)
      · rw [mem_singleton.mp hmutation]
        exact .inr rfl
    · exact .inl (isRawKey_of_mem_ttlEffect heffect hmutation)

/-- A run of a data group does not lower the compaction floor. -/
theorem Run.floor (h : Run x m trace m') (hsettled : m.Settled)
    (hcmds : ∀ e ∈ trace, e.cmd.OfDataGroup) (hc : confirmedFloor m.engine = some c) :
  ∃ c', confirmedFloor m'.engine = some c' ∧ (c' = c ∨ c.index < c'.index)
  := by
  refine (Run.induction (P := fun trace m' => (∀ e ∈ trace, e.cmd.OfDataGroup) →
    ∃ c', confirmedFloor m'.engine = some c' ∧ (c' = c ∨ c.index < c'.index))
    hsettled (fun _ => ⟨c, hc, .inl rfl⟩) ?_ ?_ h).2 hcmds
  · intro trace m₁ m₂ pos cmd outcome batch _ ih _ happlied hcmds
    obtain ⟨c', hc', hle⟩ := ih fun e he => hcmds e (mem_append_left _ he)
    obtain ⟨c'', hc'', hle'⟩ := happlied.floor
      (hcmds _ (mem_append_right _ (mem_singleton_self _))) hc'
    use c'', hc''
    rcases hle with rfl | hlt
    · exact hle'
    · rcases hle' with rfl | hlt'
      · exact .inr hlt
      · exact .inr (hlt.trans hlt')
  · intro trace m₁ m₂ ih hreopen hcmds
    obtain ⟨clock, -, rfl⟩ := reopen_eq_ok hreopen
    exact ih hcmds

/-! ## Groups -/

theorem cmd_of_mem_events {e : Event} (he : e ∈ events commands results) :
  ∃ c ∈ commands, c.2 = e.cmd
  := by
  induction commands generalizing results with
  | nil => simp [events] at he
  | cons c commands ih =>
    cases results with
    | nil => simp [events] at he
    | cons result results =>
      rcases mem_cons.mp he with rfl | he
      · exact ⟨c, mem_cons_self .., rfl⟩
      · obtain ⟨c', hc', heq⟩ := ih he
        use c', mem_cons_of_mem _ hc', heq

/-- Fenced writes that lead from one machine to another: the range stays, the accepted ones are
in it, and every changed row belongs to one of them. -/
def Owned (m : Machine) (trace : List Event) (m' : Machine) : Prop :=
  (∀ e ∈ trace, ∃ fence inner, e.cmd = .fenced fence inner) →
    rangeOf m'.engine = rangeOf m.engine
    ∧ (∀ e ∈ trace, e.outcome = .plain → ∃ r, rangeOf m.engine = .ok (some r) ∧ e.cmd.InRange r)
    ∧ ∀ cf key, m'.engine.get cf key ≠ m.engine.get cf key →
      ∃ e ∈ trace, e.outcome = .plain ∧ e.cmd.OwnRow cf key

/-- Every fenced write of a group that is accepted is in the range installed before the group,
and every row the group changes belongs to one of them. -/
theorem group_inRange (x : Externals) (hsettled : m.Settled) (hcmds : ∀ c ∈ commands, c.2.OfDataGroup)
    (h : m.applyRawGroup commands = .ok (m', results)) :
  (∀ e ∈ events commands results, e.outcome = .plain →
      ∃ r, rangeOf m.engine = .ok (some r) ∧ e.cmd.InRange r)
    ∧ ∀ cf key, m'.engine.get cf key ≠ m.engine.get cf key →
      ∃ e ∈ events commands results, e.outcome = .plain ∧ e.cmd.OwnRow cf key
  := by
  obtain ⟨hordered, hcan⟩ := of_applyRawGroup h
  have hall := applyAll_of_applyRawGroup (x := x) hsettled h
  have hfenced : ∀ e ∈ events commands results, ∃ fence inner, e.cmd = .fenced fence inner := by
    intro e he
    obtain ⟨c, hc, heq⟩ := cmd_of_mem_events he
    have hgroup := hcan c hc
    have hcmd := hcmds c hc
    rw [← heq]
    obtain ⟨-, ops, hops, -⟩ := canGroupRaw_eq_true hgroup
    cases hc2 : c.2 with
    | fenced fence inner => exact ⟨fence, inner, rfl⟩
    | put cf key value
    | write ops
    | catalogTxn ops =>
      rw [hc2] at hcmd
      exact absurd hcmd id
    | _ =>
      rw [hc2] at hops
      cases hops
  have hstart : Owned m [] m := fun _ => ⟨rfl, by simp, fun cf key hne => absurd rfl hne⟩
  refine ((applyAll_induction ?_ hsettled hstart le_rfl hordered hall).2 hfenced).2
  intro trace m₁ m₂ pos cmd outcome batch _ ih _ happlied hfenced
  obtain ⟨hrange, haccepted, hrows⟩ := ih fun e he => hfenced e (mem_append_left _ he)
  obtain ⟨fence, inner, rfl⟩ :=
    hfenced _ (mem_append_right _ (mem_singleton_self _))
  obtain ⟨hin, hown⟩ := happlied.inRange trivial
  refine ⟨?_, ?_, ?_⟩
  · rw [← hrange, rangeOf]
    congr 1
    by_contra hne
    obtain ⟨hplain, -, op, hop, hkey⟩ := hown _ _ hne
    obtain ⟨r, -, hr⟩ := hin hplain
    obtain ⟨-, userKey, hdecode, -⟩ := hr.2.2 op hop
    have := isRawKey_of_decodeKey hdecode rfl
    rw [hkey] at this
    cases this
  · intro e he hplain
    rcases mem_append.mp he with he | he
    · exact haccepted e he hplain
    · cases mem_singleton.mp he
      rw [← hrange]
      exact hin hplain
  · intro cf key hne
    by_cases hlast : m₂.engine.get cf key = m₁.engine.get cf key
    · rw [hlast] at hne
      obtain ⟨e, he, hplain, hrow⟩ := hrows cf key hne
      use e, mem_append_left _ he, hplain, hrow
    · obtain ⟨hplain, hrow⟩ := hown cf key hlast
      exact ⟨_, mem_append_right _ (mem_singleton_self _), hplain, hrow⟩

/-! ## Every run -/

/-- A data group writes only what it owns: from whatever state it has reached, a fenced write
or a command on expiring values is accepted or changes a row only in the installed range and
at its epoch, and the row is its own, applied alone or in a group; once the range is sealed it
stays so and no row of a client changes; the compaction floor does not decrease. -/
theorem group_writes_own_range {identity : Identity} (hopen : opening identity = .ok start)
    (hrun : Run x start trace m) :
  (∀ pos cmd m' result, cmd.IsWrite → m.applyAt x pos cmd = .ok (m', result) →
    (m.applied < pos.index → result.outcome = .plain →
        ∃ r, rangeOf m.engine = .ok (some r) ∧ cmd.InRange r)
      ∧ ∀ cf key, m'.engine.get cf key ≠ m.engine.get cf key →
        (∃ r, rangeOf m.engine = .ok (some r) ∧ cmd.InRange r) ∧ cmd.OwnRow cf key)
  ∧ (∀ commands m' results, (∀ c ∈ commands, c.2.OfDataGroup) →
    m.applyRawGroup commands = .ok (m', results) →
    (∀ e ∈ events commands results, e.outcome = .plain →
        ∃ r, rangeOf m.engine = .ok (some r) ∧ e.cmd.InRange r)
      ∧ ∀ cf key, m'.engine.get cf key ≠ m.engine.get cf key →
        ∃ e ∈ events commands results, e.outcome = .plain ∧ e.cmd.OwnRow cf key)
  ∧ (∀ r trace' m', rangeOf m.engine = .ok (some r) → r.isSealed = true →
    Run x m trace' m' → (∀ e ∈ trace', e.cmd.OfDataGroup) →
    rangeOf m'.engine = .ok (some r)
      ∧ ∀ cf key, isRawKey key = true → m'.engine.get cf key = m.engine.get cf key)
  ∧ (∀ c trace' m', confirmedFloor m.engine = some c → Run x m trace' m' →
    (∀ e ∈ trace', e.cmd.OfDataGroup) →
    ∃ c', confirmedFloor m'.engine = some c' ∧ (c' = c ∨ c.index < c'.index))
  := by
  have hsettled := hrun.settled (settled_of_opening hopen)
  refine ⟨?_, ?_, ?_, ?_⟩
  · intro pos cmd m' result hwrite happly
    by_cases hindex : pos.index ≤ m.applied
    · rw [applyAt_of_le hindex] at happly
      cases happly
      exact ⟨fun hlt => absurd hlt (not_lt.mpr hindex), fun cf key hne => absurd rfl hne⟩
    · obtain ⟨batch, happlied⟩ := applied_of_applyAt happly (not_le.mp hindex)
      obtain ⟨hin, hown⟩ := happlied.inRange hwrite
      use fun _ => hin
      intro cf key hne
      obtain ⟨hplain, hrow⟩ := hown cf key hne
      use hin hplain, hrow
  · intro commands m' results hgroup happly
    exact group_inRange x hsettled hgroup happly
  · intro r trace' m' hr hsealed hlater hlaterCmds
    exact hlater.sealed hsettled hlaterCmds hr hsealed
  · intro c trace' m' hc hlater hlaterCmds
    exact hlater.floor hsettled hlaterCmds hc

/-- A range is installed, and owns what is written after. -/
theorem group_writes_own_range_installed :
  ∃ (x : Externals) (trace : List Event), Run x sampleMachine trace sampleInstalled
    ∧ ∃ r, rangeOf sampleInstalled.engine = .ok (some r)
      ∧ Command.InRange r (.rawTtl sampleEnable)
  := by
  obtain ⟨x⟩ := nonempty_externals
  have hopen : opening (.ofRange sampleRange) = .ok sampleMachine := rfl
  have hrun : Run x sampleMachine [⟨⟨1, 1⟩, .dataRange none sampleRange, .plain⟩]
      sampleInstalled :=
    Run.start.apply (sampleInstalled_eq x)
  obtain ⟨m, henable⟩ := sampleEnable_accepted x
  have howned := (group_writes_own_range hopen hrun).1 ⟨1, 2⟩ (.rawTtl sampleEnable) m _
    trivial henable
  exact ⟨x, _, hrun, howned.1 (by decide) rfl⟩

end Machine

end Kv9.Raft
