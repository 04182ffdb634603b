import Kv9.Raft.StateMachine.Rows

/-!
# Expiring values stay consistent

Values and records of expiry live in different column families.  Over every run, a record
stands only beside a value, and names the position of the put that stored it; once expiry is
enabled, the watermark of the group does not decrease, the range is not sealed, and nothing
but commands on expiring values changes a value.
-/

namespace Kv9.Raft

open Codec Engine Except RawTtl List Rows

/-- The event is an accepted write of expiring values that names the key. -/
def Event.Writes (e : Event) (key : Bytes) : Prop :=
  ∃ command plan mutations, e.cmd = .rawTtl command ∧ e.outcome = .plain
    ∧ command.action = .write plan mutations
    ∧ ∃ mutation ∈ mutations, encodeKey .raw command.keyspace mutation.key = .ok key

/-- The event is an accepted write of expiring values whose last word on the key is to put the
value. -/
def Event.Puts (e : Event) (key value : Bytes) : Prop :=
  ∃ command plan mutations userKey, e.cmd = .rawTtl command ∧ e.outcome = .plain
    ∧ command.action = .write plan mutations
    ∧ Machine.LastOn command.keyspace key mutations (.put userKey value)

/-- The latest write of a key was a put of the value, at a position. -/
def LatestPut (trace : List Event) (key : Bytes) (pos : AppliedPosition) (value : Bytes) : Prop :=
  ∃ before e after, trace = before ++ e :: after ∧ e.pos = pos ∧ e.Puts key value
    ∧ ∀ later ∈ after, ¬ later.Writes key

/-- A command on expiring values was accepted. -/
def Activated (trace : List Event) : Prop :=
  ∃ e ∈ trace, Machine.enablesTtl e.cmd e.outcome = true

variable {value : Bytes}

variable {trace : List Event} {key : Bytes} {pos : AppliedPosition} {e : Event}

theorem LatestPut.append (h : LatestPut trace key pos value) (he : ¬ e.Writes key) :
  LatestPut (trace ++ [e]) key pos value
  := by
  obtain ⟨before, e', after, rfl, hpos, hputs, hafter⟩ := h
  refine ⟨before, e', after ++ [e], by simp, hpos, hputs, ?_⟩
  intro later hlater
  rcases mem_append.mp hlater with hlater | hlater
  · exact hafter later hlater
  · rwa [mem_singleton.mp hlater]

theorem Event.Puts.writes (h : e.Puts key value) :
  e.Writes key
  := by
  obtain ⟨command, plan, mutations, userKey, hcmd, houtcome, haction, front, rest, rfl, hkey, -⟩ := h
  refine ⟨command, plan, _, hcmd, houtcome, haction, .put userKey value, ?_, hkey⟩
  exact mem_append_right _ (mem_cons_self ..)

/-- There is one latest put. -/
theorem LatestPut.position_eq {value' : Bytes} {pos' : AppliedPosition}
    (h : LatestPut trace key pos value) (h' : LatestPut trace key pos' value') :
  pos = pos'
  := by
  obtain ⟨before, e, after, rfl, rfl, hputs, hafter⟩ := h
  obtain ⟨before', e', after', htrace, rfl, hputs', hafter'⟩ := h'
  rcases append_eq_append_iff.mp htrace with ⟨gap, -, hgap⟩ | ⟨gap, -, hgap⟩
  · cases gap with
    | nil =>
      cases hgap
      rfl
    | cons _ gap =>
      cases hgap
      exact absurd hputs'.writes (hafter e' (mem_append_right _ (mem_cons_self ..)))
  · cases gap with
    | nil =>
      cases hgap
      rfl
    | cons _ gap =>
      cases hgap
      exact absurd hputs.writes (hafter' e (mem_append_right _ (mem_cons_self ..)))

theorem LatestPut.isRawKey (h : LatestPut trace key pos value) :
  isRawKey key = true
  := by
  obtain ⟨_, _, _, -, -, ⟨_, _, _, _, -, -, -, _, _, -, hkey, -⟩, -⟩ := h
  apply isRawKey_of_encodeKey hkey

theorem activated_append :
  Activated (trace ++ [e]) ↔ Activated trace ∨ Machine.enablesTtl e.cmd e.outcome = true
  := by
  simp [Activated, or_and_right, exists_or]

namespace Machine

variable {x : Externals} {start m m' : Machine} {pos : AppliedPosition} {cmd : Command}
  {outcome : ApplyOutcome} {batch : WriteBatch} {trace : List Event} {key : Bytes}

/-- The watermark of the group, if there is one. -/
def watermark (engine : Store) : Except Error (Option ClockWatermark) :=
  readRow ClockWatermark.decode (engine.get .default clockKey)

/-- What holds of the records of expiry after every run. -/
structure Consistent (trace : List Event) (m : Machine) : Prop where
  /-- Where expiry is enabled there is a watermark. -/
  clock : m.ttlEnabled = true → ∃ clock, watermark m.engine = .ok (some clock)
  /-- A record stands beside the value of the latest put, and names its position. -/
  records : ∀ key bytes, isRawKey key = true → m.engine.get .write key = some bytes →
    m.ttlEnabled = true ∧ ∃ record value, bytes = ExpiryRecord.encode record
      ∧ m.engine.get .default key = some value ∧ LatestPut trace key record.position value
  /-- Once expiry was enabled by the log, it is enabled, and the range is not sealed. -/
  unsealed : Activated trace →
    m.ttlEnabled = true ∧ ∃ r, rangeOf m.engine = .ok (some r) ∧ r.isSealed = false

/-! ## Rows after a command on expiring values -/

/-- The batch of a command on expiring values, with the watermark if it changes. -/
def withClock (prior : Option ClockWatermark) (clock : ClockWatermark) (batch : WriteBatch) :
    WriteBatch :=
  if prior ≠ some clock then batch ++ [.put .default clockKey clock.encode] else batch

theorem write_withClock (rows : Rows) (prior : Option ClockWatermark) (clock : ClockWatermark)
    (batch : WriteBatch) (cf : ColumnFamily) {key : Bytes} (hkey : key ≠ clockKey) :
  rows.write (withClock prior clock batch) cf key = rows.write batch cf key
  := by
  rw [withClock]
  split_ifs
  · rw [write_append, write_cons, write_nil, mutate_put, if_neg]
    exact fun h => hkey h.2
  · rfl

theorem ne_clockKey_of_isRawKey (hkey : isRawKey key = true) :
  key ≠ clockKey
  := by
  rintro rfl
  nomatch hkey

variable {command : RawTtlCommand} {prior : Option ClockWatermark} {clock : ClockWatermark}

variable {clock' : ClockWatermark} {rows : Rows} {result : ApplyResult}

/-- A command on expiring values leaves every row alone that is neither the watermark nor the
row of a client's key. -/
theorem write_ttl_of_not_raw (heffect : ttlEffect m.engine command clock' pos = .ok (clock, batch))
    (rows : Rows) (cf : ColumnFamily) (hkey : isRawKey key = false) (hclock : key ≠ clockKey) :
  rows.write (withClock prior clock batch) cf key = rows cf key
  := by
  rw [write_withClock rows prior clock batch cf hclock]
  apply write_of_forall_ne
  rintro mutation hmutation ⟨-, rfl⟩
  rw [isRawKey_of_mem_ttlEffect heffect hmutation] at hkey
  nomatch hkey

/-- The watermark after a command on expiring values. -/
theorem watermark_after_ttl (hprior : watermark m.engine = .ok prior)
    (heffect : ttlEffect m.engine command (prior.getD .initial) pos = .ok (clock, batch)) :
  watermark (m.after (withClock prior clock batch) pos).engine = .ok (some clock)
  := by
  have hbatch : m.engine.rows.write batch .default clockKey = m.engine.rows .default clockKey := by
    apply write_of_forall_ne
    rintro mutation hmutation ⟨-, hkey⟩
    have := isRawKey_of_mem_ttlEffect heffect hmutation
    rw [← hkey] at this
    nomatch this
  rw [watermark, get_after, withClock]
  by_cases hsame : prior = some clock
  · rw [if_neg (not_not.mpr hsame), hbatch, ← hsame]
    exact hprior
  · rw [if_pos hsame, write_append, write_cons, write_nil, mutate_put,
      if_pos ⟨rfl, rfl⟩, readRow, ClockWatermark.decode_encode]
    rfl

/-! ## One entry -/

/-- An entry that leaves the rows of clients' keys alone keeps the records consistent. -/
theorem Consistent.records_of_same (h : Consistent trace m) {e : Event} {m' : Machine}
    (hwrites : ∀ key, ¬ e.Writes key) (henabled : m'.ttlEnabled = m.ttlEnabled)
    (hrows : ∀ cf key, isRawKey key = true → m'.engine.get cf key = m.engine.get cf key) :
  ∀ key bytes, isRawKey key = true → m'.engine.get .write key = some bytes →
    m'.ttlEnabled = true ∧ ∃ record value, bytes = ExpiryRecord.encode record
      ∧ m'.engine.get .default key = some value
      ∧ LatestPut (trace ++ [e]) key record.position value
  := by
  intro key bytes hkey hbytes
  rw [hrows _ _ hkey] at hbytes
  obtain ⟨henabled', record, value, hrecord, hvalue, hlatest⟩ := h.records key bytes hkey hbytes
  rw [henabled, hrows _ _ hkey]
  exact ⟨henabled', record, value, hrecord, hvalue, hlatest.append (hwrites key)⟩

/-- The rows that range commands, compaction floors and manifests change are no rows of
clients' keys. -/
theorem write_of_reserved (hbatch : ∀ m ∈ batch, isRawKey m.key = false)
    (cf : ColumnFamily) (hkey : isRawKey key = true) :
  rows.write batch cf key = rows cf key
  := by
  apply write_of_forall_ne
  rintro m hm ⟨-, rfl⟩
  rw [hbatch m hm] at hkey
  nomatch hkey

/-- No watermark and no record of expiry comes from a plain write before expiry is enabled. -/
theorem write_lowerOps_write {ops : List KvOp} (h : ops.any reservedOp = false)
    (hkey : isRawKey key = true) :
  rows.write (lowerOps ops) .write key = rows .write key
  := by
  apply write_of_forall_ne
  rintro m hm ⟨hcf, hmkey⟩
  obtain ⟨op, hop, rfl⟩ := mem_lowerOps.mp hm
  rw [KvOp.cf_lower] at hcf
  rw [KvOp.key_lower] at hmkey
  have hreserved := any_eq_false.mp h op hop
  rw [reservedOp, cfFromCode_eq_write.mp hcf.symm, ← hmkey, hkey] at hreserved
  simp at hreserved

/-- A command on expiring values keeps the records consistent. -/
theorem Consistent.records_of_ttl (h : Consistent trace m)
    (heffect : ttlEffect m.engine command clock' pos = .ok (clock, batch)) :
  ∀ key bytes, isRawKey key = true →
    m.engine.rows.write (withClock prior clock batch) .write key = some bytes →
    ∃ record value, bytes = ExpiryRecord.encode record
      ∧ m.engine.rows.write (withClock prior clock batch) .default key = some value
      ∧ LatestPut (trace ++ [⟨pos, .rawTtl command, .plain⟩]) key record.position value
  := by
  intro key bytes hkey hbytes
  have hclock := ne_clockKey_of_isRawKey hkey
  rw [write_withClock _ _ _ _ _ hclock] at hbytes
  rw [write_withClock _ _ _ _ _ hclock]
  -- A key the command leaves alone keeps its record, and the put that is the latest.
  have hsame : ¬ (Event.mk pos (.rawTtl command) .plain).Writes key →
      (∀ cf, m.engine.rows.write batch cf key = m.engine.rows cf key) →
      ∃ record value, bytes = ExpiryRecord.encode record
        ∧ m.engine.rows.write batch .default key = some value
        ∧ LatestPut (trace ++ [⟨pos, .rawTtl command, .plain⟩]) key record.position value := by
    intro hwrites hrows
    rw [hrows] at hbytes
    obtain ⟨-, record, value, hrecord, hvalue, hlatest⟩ := h.records key bytes hkey hbytes
    exact ⟨record, value, hrecord, (hrows _).trans hvalue, hlatest.append hwrites⟩
  rw [ttlEffect] at heffect
  split at heffect
  · rename_i observed haction
    cases heffect
    apply hsame
    · rintro ⟨_, _, _, ⟨⟩, -, hwrite, -⟩
      rw [haction] at hwrite
      cases hwrite
    · exact fun _ => rfl
  · rename_i observed haction
    cases heffect
    apply hsame
    · rintro ⟨_, _, _, ⟨⟩, -, hwrite, -⟩
      rw [haction] at hwrite
      cases hwrite
    · exact fun _ => rfl
  · rename_i plan mutations haction
    simp only [bind_eq_ok] at heffect
    obtain ⟨expiry, hexpiry, _, hbatch, heffect⟩ := heffect
    cases heffect
    rcases write_lowerTtls hbatch m.engine.rows key with ⟨hnone, hrows⟩
      | ⟨userKey, value, hlast, hvalue, hrecord⟩ | ⟨userKey, -, -, hrecord⟩
    · apply hsame _ hrows
      rintro ⟨_, _, _, ⟨⟩, -, hwrite, mutation, hmem, hmkey⟩
      cases haction.symm.trans hwrite
      exact hnone mutation hmem hmkey
    · rw [hrecord, Option.map_eq_some_iff] at hbytes
      obtain ⟨record, rfl, rfl⟩ := hbytes
      refine ⟨record, value, rfl, hvalue, trace, _, [], rfl, ?_, ?_, by simp⟩
      · exact (ExpiryPlan.position_of_atWrite hexpiry).symm
      · exact ⟨command, plan, mutations, userKey, rfl, rfl, haction, hlast⟩
    · rw [hrecord] at hbytes
      cases hbytes
  · rename_i candidates haction
    simp only [bind_eq_ok] at heffect
    obtain ⟨_, hbatch, heffect⟩ := heffect
    cases heffect
    rcases write_cleanupAll hbatch m.engine.rows key with hrows | ⟨-, hrecord⟩
    · apply hsame _ hrows
      rintro ⟨_, _, _, ⟨⟩, -, hwrite, -⟩
      rw [haction] at hwrite
      cases hwrite
    · rw [hrecord] at hbytes
      cases hbytes

/-- The batches of range commands, compaction floors and manifests, and the empty batch. -/
theorem reserved_of_effect (h : Effect x m pos cmd batch outcome)
    (hlegacy : ∀ ops, legacyOps cmd = some ops → outcome ≠ .plain)
    (httl : ∀ command, cmd = .rawTtl command → outcome ≠ .plain) :
  ∀ mutation ∈ batch, isRawKey mutation.key = false ∧ mutation.key ≠ clockKey
  := by
  cases h with
  | idle => nofun
  | lowered hops => exact absurd rfl (hlegacy _ hops)
  | range =>
    intro mutation hmutation
    rw [mem_singleton.mp hmutation]
    use isRawKey_rangeKey, rangeKey_ne_clockKey
  | floor =>
    intro mutation hmutation
    rw [mem_singleton.mp hmutation]
    use isRawKey_compactionConfirmedKey, clockKey_ne_compactionConfirmedKey.symm
  | manifest =>
    intro mutation hmutation
    rcases mem_cons.mp hmutation with rfl | hmutation
    · use isRawKey_manifestPairKey _, (cons_ne_manifestPairKey (by decide) _ _).symm
    · rw [mem_singleton.mp hmutation]
      use isRawKey_manifestGenKey _ _, (cons_ne_manifestGenKey (by decide) _ _ _).symm
  | ttl => exact absurd rfl (httl _ rfl)

/-- The range after an entry that is neither a plain write nor a command on expiring values:
the one before, or one that is not sealed while expiry is enabled. -/
theorem unsealed_of_effect (h : Effect x m pos cmd batch outcome)
    (hlegacy : ∀ ops, legacyOps cmd = some ops → outcome ≠ .plain)
    (httl : ∀ command, cmd = .rawTtl command → outcome ≠ .plain) (henabled : m.ttlEnabled = true)
    {r : DataRange} (hr : rangeOf m.engine = .ok (some r)) (hsealed : r.isSealed = false) :
  ∃ r, rangeOf (m.after batch pos).engine = .ok (some r) ∧ r.isSealed = false
  := by
  have hsame : (∀ mutation ∈ batch, mutation.key ≠ rangeKey) →
      ∃ r, rangeOf (m.after batch pos).engine = .ok (some r) ∧ r.isSealed = false := by
    intro hbatch
    refine ⟨r, ?_, hsealed⟩
    rw [rangeOf, get_after, write_of_forall_ne]
    · exact hr
    · rintro mutation hmutation ⟨-, hkey⟩
      exact hbatch mutation hmutation hkey.symm
  cases h with
  | idle => exact hsame (by simp)
  | lowered hops => exact absurd rfl (hlegacy _ hops)
  | @range expected next current hvalid hidentity hcurrent hnotboth haccepts hne =>
    refine ⟨next, ?_, ?_⟩
    · rw [rangeOf, get_after, write_cons, write_nil, mutate_put,
        if_pos ⟨rfl, rfl⟩, readRow, DataRange.decode_encode hvalid]
      rfl
    · rw [← Bool.not_eq_true]
      exact fun hnext => hnotboth ⟨henabled, hnext⟩
  | floor =>
    apply hsame
    intro mutation hmutation
    rw [mem_singleton.mp hmutation]
    exact rangeKey_ne_compactionConfirmedKey.symm
  | manifest =>
    apply hsame
    intro mutation hmutation
    rcases mem_cons.mp hmutation with rfl | hmutation
    · exact (cons_ne_manifestPairKey (by decide) _ _).symm
    · rw [mem_singleton.mp hmutation]
      exact (cons_ne_manifestGenKey (by decide) _ _ _).symm
  | ttl => exact absurd rfl (httl _ rfl)

/-- An entry that is neither an accepted plain write nor an accepted command on expiring
values keeps the machine consistent. -/
theorem Consistent.applied_reserved (h : Consistent trace m)
    (happlied : Applied x m pos cmd m' outcome batch)
    (hlegacy : ∀ ops, legacyOps cmd = some ops → outcome ≠ .plain)
    (httl : ∀ command, cmd = .rawTtl command → outcome ≠ .plain) :
  Consistent (trace ++ [⟨pos, cmd, outcome⟩]) m'
  := by
  have hreserved := reserved_of_effect happlied.effect hlegacy httl
  have henables : enablesTtl cmd outcome = false := by
    cases cmd with
    | rawTtl command =>
      have := httl command rfl
      cases outcome with
      | plain => exact absurd rfl this
      | _ => rfl
    | _ => rfl
  have henabled : m'.ttlEnabled = m.ttlEnabled := by
    rw [happlied.after_eq, henables]
    exact Bool.or_false _
  have hengine : m'.engine = (m.after batch pos).engine := by
    rw [happlied.after_eq]
  constructor
  · intro hon
    obtain ⟨clock, hclock⟩ := h.clock (henabled ▸ hon)
    use clock
    rw [hengine, watermark, get_after, write_of_forall_ne]
    · exact hclock
    · rintro mutation hmutation ⟨-, hkey⟩
      exact (hreserved mutation hmutation).2 hkey.symm
  · apply h.records_of_same _ henabled
    · intro cf key hkey
      rw [hengine]
      apply write_of_reserved (fun mutation hmutation => (hreserved mutation hmutation).1) cf hkey
    · rintro key ⟨command, _, _, hcmd, hplain, -⟩
      exact httl command hcmd hplain
  · intro hactivated
    rw [activated_append, henables] at hactivated
    obtain ⟨hon, r, hr, hsealed⟩ := h.unsealed (hactivated.resolve_right Bool.false_ne_true)
    use henabled.trans hon
    rw [hengine]
    exact unsealed_of_effect happlied.effect hlegacy httl hon hr hsealed

/-- Every applied entry keeps the machine consistent. -/
theorem Consistent.applied (h : Consistent trace m)
    (happlied : Applied x m pos cmd m' outcome batch) :
  Consistent (trace ++ [⟨pos, cmd, outcome⟩]) m'
  := by
  cases happlied.effect with
  | idle hlegacy httl => exact h.applied_reserved happlied hlegacy httl
  | @lowered _ ops hops hdisabled hreserved hfence =>
    have hcmd : ∀ command, cmd ≠ .rawTtl command := by
      rintro command rfl
      cases hops
    have henables : enablesTtl cmd .plain = false := by
      cases cmd with
      | rawTtl command => exact absurd rfl (hcmd command)
      | _ => rfl
    have henabled : m'.ttlEnabled = false := by
      rw [happlied.after_eq, henables]
      exact (Bool.or_false _).trans hdisabled
    have hengine : m'.engine = (m.after (lowerOps ops) pos).engine := by
      rw [happlied.after_eq]
    constructor
    · intro hon
      rw [henabled] at hon
      cases hon
    · intro key bytes hkey hbytes
      rw [hengine, get_after, write_lowerOps_write hreserved hkey] at hbytes
      have hon := (h.records key bytes hkey hbytes).1
      rw [hdisabled] at hon
      cases hon
    · intro hactivated
      rw [activated_append, henables] at hactivated
      have hon := (h.unsealed (hactivated.resolve_right Bool.false_ne_true)).1
      rw [hdisabled] at hon
      cases hon
  | manifest hcmd =>
    apply h.applied_reserved happlied
    · exact fun _ _ => by simp
    · exact fun _ _ => by simp
  | @ttl command r prior clock batch hidentity hrange hregion hkeyspace hfresh hprior henabled
      henable heffect =>
      have hon : m'.ttlEnabled = true := by
        rw [happlied.after_eq]
        exact Bool.or_true _
      have hengine : m'.engine = (m.after (withClock prior clock batch) pos).engine := by
        rw [happlied.after_eq]
        rfl
      constructor
      · intro _
        refine ⟨clock, ?_⟩
        rw [hengine]
        exact watermark_after_ttl hprior heffect
      · intro key bytes hkey hbytes
        rw [hengine] at hbytes
        rw [hengine]
        exact ⟨hon, h.records_of_ttl heffect key bytes hkey hbytes⟩
      · intro _
        refine ⟨hon, r, ?_, ?_⟩
        · rw [hengine, rangeOf, get_after,
            write_ttl_of_not_raw heffect _ _ isRawKey_rangeKey rangeKey_ne_clockKey]
          exact hrange
        · rw [ttlFresh] at hfresh
          simp only [Bool.and_eq_true, Bool.not_eq_true'] at hfresh
          exact hfresh.1.1.1
  | _ => exact h.applied_reserved happlied (by rintro _ ⟨⟩) (by rintro _ ⟨⟩)

theorem Consistent.reopen (h : Consistent trace m) (hreopen : m.reopen = .ok m') :
  Consistent trace m'
  := by
  obtain ⟨clock, hclock, rfl⟩ := reopen_eq_ok hreopen
  have henabled : m.ttlEnabled = true → clock.isSome = true := by
    intro hon
    obtain ⟨clock', hclock'⟩ := h.clock hon
    cases (hclock.symm.trans hclock' : (.ok clock : Except Error _) = .ok (some clock'))
    rfl
  constructor
  · intro hon
    obtain ⟨clock', rfl⟩ := Option.isSome_iff_exists.mp hon
    exact ⟨clock', hclock⟩
  · intro key bytes hkey hbytes
    obtain ⟨hon, hrest⟩ := h.records key bytes hkey hbytes
    exact ⟨henabled hon, hrest⟩
  · intro hactivated
    obtain ⟨hon, hrest⟩ := h.unsealed hactivated
    exact ⟨henabled hon, hrest⟩

/-! ## Every run -/

variable {identity : Identity}

theorem consistent_of_opening (h : opening identity = .ok start) :
  Consistent [] start
  := by
  rw [opening_eq_ok h]
  constructor
  · nofun
  · nofun
  · rintro ⟨e, he, -⟩
    nomatch he

theorem Run.consistent (hopen : opening identity = .ok start) (h : Run x start trace m) :
  Consistent trace m
  := by
  apply (Run.induction (settled_of_opening hopen) (consistent_of_opening hopen) _ _ h).2
  · exact fun _ hc _ happlied => hc.applied happlied
  · exact fun hc hreopen => hc.reopen hreopen

/-- While expiry is enabled, no entry lowers the watermark. -/
theorem Applied.watermark_le (happlied : Applied x m pos cmd m' outcome batch)
    (henabled : m.ttlEnabled = true) (hclock : watermark m.engine = .ok (some clock)) :
  m'.ttlEnabled = true
    ∧ ∃ clock', watermark m'.engine = .ok (some clock') ∧ clock.unixMs ≤ clock'.unixMs
  := by
  have hon : m'.ttlEnabled = true := by
    rw [happlied.after_eq]
    rw [henabled, Bool.true_or]
  have hengine : m'.engine = (m.after batch pos).engine := by
    rw [happlied.after_eq]
  have hsame : (∀ mutation ∈ batch, mutation.key ≠ clockKey) →
      watermark m'.engine = .ok (some clock) := by
    intro hbatch
    rw [hengine, watermark, get_after, write_of_forall_ne]
    · exact hclock
    · rintro mutation hmutation ⟨-, hkey⟩
      exact hbatch mutation hmutation hkey.symm
  use hon
  have hreserved := reserved_of_effect happlied.effect
  cases happlied.effect with
  | idle => exact ⟨clock, hsame nofun, le_rfl⟩
  | lowered _ hdisabled =>
    rw [henabled] at hdisabled
    nomatch hdisabled
  | manifest =>
    exact ⟨clock, hsame fun mu hmu => (hreserved (fun _ _ => nofun) (fun _ _ => nofun) mu hmu).2,
      le_rfl⟩
  | @ttl command r prior clock' batch _ _ _ _ _ hprior _ _ heffect =>
    cases (hclock.symm.trans hprior : (.ok (some clock) : Except Error _) = .ok prior)
    refine ⟨clock', ?_, le_of_ttlEffect heffect⟩
    rw [hengine]
    exact watermark_after_ttl hprior heffect
  | _ => exact ⟨clock, hsame fun mu hmu => (hreserved nofun nofun mu hmu).2, le_rfl⟩

/-- While expiry is enabled, no run lowers the watermark. -/
theorem Run.watermark_le (h : Run x m trace m') (hsettled : m.Settled)
    (henabled : m.ttlEnabled = true) (hclock : watermark m.engine = .ok (some clock)) :
  m'.ttlEnabled = true
    ∧ ∃ clock', watermark m'.engine = .ok (some clock') ∧ clock.unixMs ≤ clock'.unixMs
  := by
  have hstart : m.ttlEnabled = true
      ∧ ∃ clock', watermark m.engine = .ok (some clock') ∧ clock.unixMs ≤ clock'.unixMs :=
    ⟨henabled, clock, hclock, le_rfl⟩
  apply (Run.induction (P := fun _ m' => m'.ttlEnabled = true
    ∧ ∃ clock', watermark m'.engine = .ok (some clock') ∧ clock.unixMs ≤ clock'.unixMs)
    hsettled hstart _ _ h).2
  · rintro _ _ _ _ _ _ _ - ⟨hon, clock', hclock', hle⟩ - happlied
    obtain ⟨hon', clock'', hclock'', hle'⟩ := happlied.watermark_le hon hclock'
    use hon', clock'', hclock'', hle.trans hle'
  · rintro _ m₁ m₂ ⟨hon, clock', hclock', hle⟩ hreopen
    obtain ⟨read, hread, rfl⟩ := reopen_eq_ok hreopen
    cases (hread.symm.trans hclock' : (.ok read : Except Error _) = .ok (some clock'))
    use rfl, clock', hclock', hle

/-- A cleanup leaves a key alone whose latest put none of its candidates was decided on. -/
theorem cleanup_spares (h : Consistent trace m) {candidates : List (Bytes × ExpiryRecord)}
    (haction : command.action = .cleanup candidates)
    (happly : m.applyAt x pos (.rawTtl command) = .ok (m', result)) {p : AppliedPosition}
    (hlatest : LatestPut trace key p value)
    (hcandidates : ∀ c ∈ candidates, encodeKey .raw command.keyspace c.1 = .ok key →
      c.2.position ≠ p) (cf : ColumnFamily) :
  m'.engine.get cf key = m.engine.get cf key
  := by
  by_cases hindex : pos.index ≤ m.applied
  · rw [applyAt_of_le hindex] at happly
    cases happly
    rfl
  · obtain ⟨batch, happlied⟩ := applied_of_applyAt happly (not_le.mp hindex)
    rw [happlied.after_eq]
    have heffect := happlied.effect
    generalize result.outcome = outcome at heffect
    cases heffect with
    | idle => rfl
    | lowered hops => cases hops
    | manifest hcmd => simp at hcmd
    | @ttl _ r prior clock batch _ _ _ _ _ _ _ _ heffect =>
      have hclock := ne_clockKey_of_isRawKey hlatest.isRawKey
      refine (write_withClock m.engine.rows prior clock batch cf hclock).trans ?_
      simp only [ttlEffect, haction, bind_eq_ok] at heffect
      obtain ⟨_, hbatch, heffect⟩ := heffect
      cases heffect
      apply write_of_forall_ne
      rintro mutation hmutation ⟨-, rfl⟩
      obtain ⟨-, c, hc, hkey, hcurrent⟩ := mem_cleanupAll hbatch hmutation
      cases hbytes : m.engine.get .write mutation.key with
      | none =>
        rw [hbytes] at hcurrent
        cases hcurrent
      | some bytes =>
        obtain ⟨-, record, _, rfl, -, hrecord⟩ :=
          h.records _ bytes hlatest.isRawKey hbytes
        rw [hbytes, readRow, ExpiryRecord.decode_encode] at hcurrent
        cases hcurrent
        exact hcandidates c hc hkey (hrecord.position_eq hlatest)

/-- While expiry is enabled, only commands on expiring values change clients' rows, and no
plain or fenced write is accepted. -/
theorem legacy_refused (henabled : m.ttlEnabled = true) (hcmd : ∀ command, cmd ≠ .rawTtl command) (happly : m.applyAt x pos cmd = .ok (m', result))
    (hindex : m.applied < pos.index) :
  (∀ ops, legacyOps cmd = some ops → result.outcome ≠ .plain)
    ∧ ∀ cf key, isRawKey key = true → m'.engine.get cf key = m.engine.get cf key
  := by
  obtain ⟨batch, happlied⟩ := applied_of_applyAt happly hindex
  have hlegacy : ∀ ops, legacyOps cmd = some ops → result.outcome ≠ .plain := by
    intro ops hops
    have heffect := happlied.effect
    generalize result.outcome = outcome at heffect ⊢
    cases heffect with
    | idle hlegacy => exact hlegacy ops hops
    | lowered _ hdisabled =>
      rw [henabled] at hdisabled
      nomatch hdisabled
    | range => nomatch hops
    | floor => nomatch hops
    | manifest => exact nofun
    | ttl => exact absurd rfl (hcmd _)
  use hlegacy
  intro cf key hkey
  rw [happlied.after_eq]
  apply write_of_reserved _ cf hkey
  intro mutation hmutation
  apply (reserved_of_effect happlied.effect hlegacy _ mutation hmutation).1
  exact fun command h => absurd h (hcmd command)

/-- Expiring values stay consistent over every run after they were enabled: the watermark
does not decrease, a record stands beside the value of the latest put and names its position,
a cleanup decided on another write spares the value, the range is not sealed, and nothing else
writes clients' rows. -/
theorem ttl_stays_consistent {identity : Identity} {trace' : List Event}
    (hopen : opening identity = .ok start) (hrun : Run x start trace m)
    (henabled : ∃ e ∈ trace, ∃ command observed, e.cmd = .rawTtl command
      ∧ command.action = .enable observed ∧ e.outcome = .plain)
    (hlater : Run x m trace' m') :
  (∃ clock clock', watermark m.engine = .ok (some clock) ∧ watermark m'.engine = .ok (some clock')
      ∧ clock.unixMs ≤ clock'.unixMs)
  ∧ (∀ key bytes, isRawKey key = true → m'.engine.get .write key = some bytes →
      ∃ record value, bytes = ExpiryRecord.encode record
        ∧ m'.engine.get .default key = some value
        ∧ LatestPut (trace ++ trace') key record.position value)
  ∧ (∀ pos command candidates m'' result key p value, command.action = .cleanup candidates →
      m'.applyAt x pos (.rawTtl command) = .ok (m'', result) →
      LatestPut (trace ++ trace') key p value →
      (∀ c ∈ candidates, encodeKey .raw command.keyspace c.1 = .ok key → c.2.position ≠ p) →
      ∀ cf, m''.engine.get cf key = m'.engine.get cf key)
  ∧ (∃ r, rangeOf m'.engine = .ok (some r) ∧ r.isSealed = false)
  ∧ (∀ pos cmd m'' result, (∀ command, cmd ≠ .rawTtl command) → m'.applied < pos.index →
      m'.applyAt x pos cmd = .ok (m'', result) →
      (∀ ops, legacyOps cmd = some ops → result.outcome ≠ .plain)
        ∧ ∀ cf key, isRawKey key = true → m''.engine.get cf key = m'.engine.get cf key)
  := by
  obtain ⟨e, he, command, observed, hcmd, -, houtcome⟩ := henabled
  have hactivated : Activated trace := by
    use e, he
    rw [hcmd, houtcome]
    rfl
  have hactivated' : Activated (trace ++ trace') := by
    obtain ⟨e, he, henables⟩ := hactivated
    use e, mem_append_left _ he, henables
  have hc := hrun.consistent hopen
  have hc' := (hrun.trans hlater).consistent hopen
  have hsettled := hrun.settled (settled_of_opening hopen)
  obtain ⟨hon, -⟩ := hc.unsealed hactivated
  obtain ⟨hon', hunsealed⟩ := hc'.unsealed hactivated'
  obtain ⟨clock, hclock⟩ := hc.clock hon
  obtain ⟨-, clock', hclock', hle⟩ := hlater.watermark_le hsettled hon hclock
  refine ⟨⟨clock, clock', hclock, hclock', hle⟩, ?_, ?_, hunsealed, ?_⟩
  · intro key bytes hkey hbytes
    exact (hc'.records key bytes hkey hbytes).2
  · intro pos command candidates m'' result key p value haction happly hlatest hcandidates
    exact cleanup_spares hc' haction happly hlatest hcandidates
  · intro pos cmd m'' result hother hindex happly
    exact legacy_refused hon' hother happly hindex

/-! ### A run -/

/-- A digest of one byte. -/
def sampleDigest (b : UInt8) : RootDigest := ⟨List.replicate 32 b, List.length_replicate⟩

/-- A range of all keys of a keyspace. -/
def sampleRange : DataRange where
  root := sampleDigest 1
  creation := sampleDigest 2
  region := 100
  keyspace := 7
  tenant := 1
  confVer := 1
  version := 1
  start := []
  stop := []
  isSealed := false

/-- The command that enables expiry on the range. -/
def sampleEnable : RawTtlCommand where
  root := sampleDigest 1
  creation := sampleDigest 2
  fence := ⟨100, 1, 1⟩
  keyspace := 7
  action := .enable ⟨5⟩

/-- A machine that has applied nothing. -/
def sampleMachine : Machine := ⟨some (.ofRange sampleRange), Store.empty, 0, false⟩

/-- The machine after the range is installed. -/
def sampleInstalled : Machine :=
  sampleMachine.after [.put .default rangeKey sampleRange.encode] ⟨1, 1⟩

theorem sampleInstalled_eq (x : Externals) :
  sampleMachine.applyAt x ⟨1, 1⟩ (.dataRange none sampleRange)
    = .ok (sampleInstalled, ⟨1, .plain⟩)
  := rfl

theorem rangeOf_sampleInstalled :
  rangeOf sampleInstalled.engine = .ok (some sampleRange)
  := by
  have hvalid : sampleRange.validate = .ok () := rfl
  rw [rangeOf, sampleInstalled, get_after, write_cons, write_nil, mutate_put,
    if_pos ⟨rfl, rfl⟩, readRow, DataRange.decode_encode hvalid]
  rfl

theorem sampleEnable_accepted (x : Externals) :
  ∃ m, sampleInstalled.applyAt x ⟨1, 2⟩ (.rawTtl sampleEnable) = .ok (m, ⟨2, .plain⟩)
  := by
  have hclock : sampleInstalled.engine.get .default clockKey = none := by
    rw [sampleInstalled, get_after, write_cons, write_nil, mutate_put, if_neg]
    · rfl
    · exact fun h => rangeKey_ne_clockKey h.2.symm
  have hidentity : sampleInstalled.dataIdentity = some (.ofRange sampleRange) := rfl
  have hforeign : ¬ ∃ r ∈ some sampleRange, Identity.ofRange r ≠ Identity.ofRange sampleRange := by
    rintro ⟨r, ⟨⟩, hne⟩
    exact hne rfl
  rw [applyAt.eq_def]
  simp only [applyRawTtl, hidentity, rangeOf_sampleInstalled, hclock, ok_bind, failIf_neg hforeign]
  exact ⟨_, rfl⟩

/-- Expiry is enabled on a new range. -/
theorem ttl_stays_consistent_enable :
  ∃ (x : Externals) (trace : List Event) (m : Machine), Run x sampleMachine trace m
    ∧ m.applied = 2 ∧ ∃ r, rangeOf m.engine = .ok (some r) ∧ r.isSealed = false
  := by
  obtain ⟨x⟩ := nonempty_externals
  obtain ⟨m, henable⟩ := sampleEnable_accepted x
  have hinstalled : Run x sampleMachine [⟨⟨1, 1⟩, .dataRange none sampleRange, .plain⟩]
      sampleInstalled :=
    Run.start.apply (sampleInstalled_eq x)
  have hrun : Run x sampleMachine ([⟨⟨1, 1⟩, .dataRange none sampleRange, .plain⟩]
      ++ [⟨⟨1, 2⟩, .rawTtl sampleEnable, .plain⟩]) m :=
    hinstalled.apply henable
  have hopen : opening (.ofRange sampleRange) = .ok sampleMachine := rfl
  have hconsistent := ttl_stays_consistent hopen hrun
    ⟨_, mem_append_right _ (mem_singleton_self _), sampleEnable, ⟨5⟩, rfl, rfl, rfl⟩
    .start
  obtain ⟨batch, happlied⟩ := applied_of_applyAt henable (by decide)
  exact ⟨x, _, m, hrun, happlied.applied_eq, hconsistent.2.2.2.1⟩

end Machine

end Kv9.Raft
