import Kv9.Raft.StateMachine.Expiry

/-!
# The guard of the watermark and the records

Commands that do not know expiry must leave the watermark and the records of expiry alone.  A
guard refuses those that name such a row, by the code of the column family that the operation
carries.  The codes that are not assigned are lowered to the default column family, where the
watermark is, and the guard does not know that: an operation on the watermark key with such a
code passes the guard and changes the watermark.  No other operation does.
-/

namespace Kv9.Raft

open Codec Engine Except RawTtl

/-- The command passes the guard of a machine without expiry, and one of its operations is
lowered to the row of the watermark. -/
def Command.ReachesClock (cmd : Command) : Prop :=
  ∃ ops, Machine.legacyOps cmd = some ops ∧ ops.any Machine.reservedOp = false
    ∧ ∃ op ∈ ops, cfFromCode op.cf = .default ∧ op.key = clockKey

namespace Machine

variable {x : Externals} {judge : Option Judge} {m m' : Machine} {pos : AppliedPosition}
  {cmd : Command} {batch : WriteBatch} {result : ApplyResult}

/-- Two machines have the same watermark and the same records of expiry, and expiry is enabled in
both or in neither. -/
structure SameExpiry (m m' : Machine) : Prop where
  clock : m'.engine.get .default clockKey = m.engine.get .default clockKey
  records : ∀ key, isRawKey key = true → m'.engine.get .write key = m.engine.get .write key
  enabled : m'.ttlEnabled = m.ttlEnabled

theorem SameExpiry.refl (m : Machine) :
  SameExpiry m m
  := ⟨rfl, fun _ _ => rfl, rfl⟩

/-- A batch that names neither the watermark nor a record. -/
def SparesExpiry (batch : WriteBatch) : Prop :=
  ∀ mutation ∈ batch, ¬ (mutation.cf = .default ∧ mutation.key = clockKey)
    ∧ ¬ (mutation.cf = .write ∧ isRawKey mutation.key = true)

theorem SparesExpiry.sameExpiry (h : SparesExpiry batch) (m : Machine) (pos : AppliedPosition) :
  SameExpiry m (m.after batch pos)
  := by
  constructor
  · rw [get_after]
    apply Rows.write_of_forall_ne
    rintro mutation hmutation ⟨hcf, hkey⟩
    exact (h mutation hmutation).1 ⟨hcf.symm, hkey.symm⟩
  · intro key hraw
    apply Rows.write_of_forall_ne
    rintro mutation hmutation ⟨hcf, rfl⟩
    exact (h mutation hmutation).2 ⟨hcf.symm, hraw⟩
  · rfl

/-- Operations that pass the guard spare the rows of expiry, unless one is lowered to the
watermark. -/
theorem sparesExpiry_lowerOps {ops : List KvOp} (hops : legacyOps cmd = some ops)
    (hreserved : ops.any reservedOp = false) (hcmd : ¬ cmd.ReachesClock) :
  SparesExpiry (lowerOps ops)
  := by
  intro mutation hmutation
  obtain ⟨op, hop, rfl⟩ := mem_lowerOps.mp hmutation
  rw [KvOp.cf_lower, KvOp.key_lower]
  constructor
  · rintro ⟨hcf, hkey⟩
    exact hcmd ⟨ops, hops, hreserved, op, hop, hcf, hkey⟩
  · rintro ⟨hcf, hraw⟩
    have hop := List.any_eq_false.mp hreserved op hop
    rw [reservedOp, cfFromCode_eq_write.mp hcf, hraw] at hop
    simp at hop

/-- What a client may write in a group spares the rows of expiry. -/
theorem sparesExpiry_of_clientBatch (h : ClientBatch batch) :
  SparesExpiry batch
  := by
  intro mutation hmutation
  obtain ⟨hcf, hraw⟩ := h mutation hmutation
  constructor
  · rintro ⟨-, hkey⟩
    have := (isRawKey_of_rawKey hraw).2
    rw [hkey] at this
    nomatch this
  · rintro ⟨hwrite, -⟩
    rw [hcf] at hwrite
    nomatch hwrite

/-- Of the commands that do not know expiry, those that do not reach the watermark spare its
rows. -/
theorem sameExpiry_of_applyAtBy (hcmd : ∀ command, cmd ≠ .rawTtl command)
    (hclock : ¬ cmd.ReachesClock) (h : m.applyAtBy x judge pos cmd = .ok (m', result)) :
  SameExpiry m m'
  := by
  obtain ⟨index, outcome⟩ := result
  by_cases hindex : m.applied < pos.index
  · obtain ⟨batch, happlied⟩ | ⟨fence, inner, rfl, -, -, hreserved, -, rfl⟩ :=
      applied_of_applyAtBy h hindex
    · have hspares : SparesExpiry batch := by
        cases hlegacy : legacyOps cmd with
        | none =>
          intro mutation hmutation
          obtain ⟨hraw, hkey⟩ := reserved_of_effect happlied.effect
            (by rw [hlegacy]; nofun) (fun c hc => absurd hc (hcmd c)) mutation hmutation
          exact ⟨fun h => hkey h.2, fun h => by rw [hraw] at h; nomatch h.2⟩
        | some ops =>
          cases happlied.effect with
          | idle => nofun
          | lowered hops _ hreserved => apply sparesExpiry_lowerOps hops hreserved hclock
          | manifest hmanifest =>
            obtain rfl | rfl := hmanifest
            · nomatch hlegacy
            · nomatch hlegacy
          | _ => nomatch hlegacy
      have henables : enablesTtl cmd outcome = false := by
        cases cmd with
        | rawTtl command => exact absurd rfl (hcmd command)
        | _ => rfl
      rw [happlied.after_eq, henables, Bool.or_false]
      apply hspares.sameExpiry
    · apply (sparesExpiry_lowerOps rfl hreserved hclock).sameExpiry
  · rw [applyAtBy_of_le (not_lt.mp hindex)] at h
    cases h
    apply SameExpiry.refl

/-! ## In place -/

/-- Apply a command in place.  `disk` is what the durable write of the engine answers; a position
that is skipped is not written. -/
def applyInPlace (x : Externals) (judge : Option Judge) (disk : Except Error Unit)
    (pos : AppliedPosition) (cmd : Command) : Stateful Error Machine ApplyResult := do
  let m ← get
  let (m', result) ← ofExcept (m.applyAtBy x judge pos cmd)
  ofExcept (if m.applied < pos.index then disk else .ok ())
  set m'
  return result

/-- A command applied in place ends as the command does if the disk allows it, and otherwise
changes nothing. -/
theorem wp_applyInPlace (x : Externals) (judge : Option Judge) (disk : Except Error Unit)
    (m : Machine) (pos : AppliedPosition) (cmd : Command) :
  Stateful.wp (applyInPlace x judge disk pos cmd) (Stateful.ends
    (fun result m' => m.applyAtBy x judge pos cmd = .ok (m', result))
    (fun m' => m' = m ∧ (disk = .ok () → ∀ answer, m.applyAtBy x judge pos cmd ≠ .ok answer))) m
  := by
  rw [applyInPlace, Stateful.wp_get_bind]
  cases m.applyAtBy x judge pos cmd with
  | error e => exact ⟨rfl, fun _ _ => nofun⟩
  | ok answer =>
    cases disk with
    | error e =>
      split_ifs
      · use rfl, nofun
      · rfl
    | ok =>
      simp only [ite_self]
      rfl

theorem sameExpiry_applyInPlace (hcmd : ∀ command, cmd ≠ .rawTtl command)
    (hclock : ¬ cmd.ReachesClock) (disk : Except Error Unit) :
  SameExpiry m ((applyInPlace x judge disk pos cmd).run m).2
  := by
  have hwp := wp_applyInPlace x judge disk m pos cmd
  rw [Stateful.wp] at hwp
  cases hanswer : ((applyInPlace x judge disk pos cmd).run m).1 with
  | error e =>
    rw [hanswer] at hwp
    rw [hwp.1]
    apply SameExpiry.refl
  | ok result =>
    rw [hanswer] at hwp
    apply sameExpiry_of_applyAtBy hcmd hclock hwp

/-- A group leaves the rows of expiry alone, whatever it holds. -/
theorem sameExpiry_applyGroupInPlace (judge : Option Judge) (disk : Except Error Unit)
    (m : Machine) (commands : List (AppliedPosition × Command)) :
  SameExpiry m ((applyGroupInPlace judge disk commands).run m).2
  := by
  have hwp := wp_applyGroupInPlace judge m disk commands
  rw [Stateful.wp] at hwp
  cases hanswer : ((applyGroupInPlace judge disk commands).run m).1 with
  | error e =>
    rw [hanswer] at hwp
    rw [hwp.1]
    apply SameExpiry.refl
  | ok results =>
    rw [hanswer] at hwp
    obtain ⟨batch, last, hloop, -, hafter⟩ := after_of_applyRawGroupBy hwp
    rw [hafter]
    apply (sparesExpiry_of_clientBatch (clientBatch_of_groupLoopBy hloop).1).sameExpiry

/-! ## What reaches the watermark -/

/-- A judge that lets every write through. -/
def lenientJudge : Judge where
  isFresh _ _ := .ok true
  isFreshWrite _ _ _ := .ok true
  independentOfRawWrites := true
  isFreshWrite_congr _ _ _ _ := rfl

theorem applyAtBy_lenientJudge {ops : List KvOp} (hops : legacyOps cmd = some ops)
    (hdisabled : m.ttlEnabled = false) (hreserved : ops.any reservedOp = false)
    (hindex : m.applied < pos.index) (hadvances : m.Advances pos) :
  m.applyAtBy x (some lenientJudge) pos cmd
    = .ok (m.after (lowerOps ops) pos, ⟨pos.index, .plain⟩)
  := by
  have hbatch : m.adjudicateBy (some lenientJudge) missingAdjudicator cmd
      = .ok (lowerOps ops, .plain) := by
    cases cmd with
    | put | write | catalogTxn | fenced =>
      cases hops
      rfl
    | _ => nomatch hops
  rw [applyAtBy_of_legacyOps hops hdisabled hreserved hindex, hbatch]
  exact finish_eq_ok.mpr ⟨hadvances, rfl, rfl⟩

/-- A row of the watermark that a batch which names it changes. -/
theorem exists_write_clock_ne (h : ∃ mutation ∈ batch, .default = mutation.cf
    ∧ clockKey = mutation.key) :
  ∃ rows : Rows, rows.write batch .default clockKey ≠ rows .default clockKey
  := by
  let none' : Rows := fun _ _ => none
  let some' : Rows := fun _ _ => some []
  by_cases hnone : none'.write batch .default clockKey = none
  · use some'
    rw [Rows.write_congr (.inr h : _ ∨ _), hnone]
    nofun
  · use none'

/-- A command that reaches the watermark changes it on some machine without expiry. -/
theorem exists_not_sameExpiry (x : Externals) (hcmd : cmd.ReachesClock) :
  ∃ m : Machine, ¬ SameExpiry m ((applyInPlace x (some lenientJudge) (.ok ()) ⟨1, 1⟩ cmd).run m).2
  := by
  obtain ⟨ops, hops, hreserved, op, hop, hcf, hkey⟩ := hcmd
  have hnamed : ∃ mutation ∈ lowerOps ops, .default = mutation.cf ∧ clockKey = mutation.key := by
    refine ⟨op.lower, mem_lowerOps.mpr ⟨op, hop, rfl⟩, ?_, ?_⟩
    · rw [KvOp.cf_lower, hcf]
    · rw [KvOp.key_lower, hkey]
  obtain ⟨rows, hrows⟩ := exists_write_clock_ne hnamed
  let m : Machine := ⟨none, ⟨rows, none⟩, 0, false⟩
  have hindex : m.applied < 1 := by
    change (0 : UInt64) < 1
    decide
  have happly : m.applyAtBy x (some lenientJudge) ⟨1, 1⟩ cmd = .ok (m.after (lowerOps ops) ⟨1, 1⟩, _) :=
    applyAtBy_lenientJudge hops rfl hreserved hindex nofun
  have hwp := wp_applyInPlace x (some lenientJudge) (.ok ()) m ⟨1, 1⟩ cmd
  rw [Stateful.wp, happly] at hwp
  use m
  intro hsame
  cases hanswer : ((applyInPlace x (some lenientJudge) (.ok ()) ⟨1, 1⟩ cmd).run m).1 with
  | error e =>
    rw [hanswer] at hwp
    exact hwp.2 rfl _ rfl
  | ok result =>
    rw [hanswer] at hwp
    have hafter := (Prod.mk.inj (Except.ok.inj hwp)).1
    rw [← hafter] at hsame
    apply hrows hsame.clock

/-- A command that does not know expiry leaves the watermark and the records of expiry alone on
every machine, whether it is applied or fails, exactly if none of its operations passes the guard
and is lowered to the watermark; and so does every group. -/
theorem legacy_spares_expiry_iff (hcmd : ∀ command, cmd ≠ .rawTtl command) :
  ((∀ x judge disk m pos, SameExpiry m ((applyInPlace x judge disk pos cmd).run m).2)
      ↔ ¬ cmd.ReachesClock)
    ∧ ∀ judge disk m commands, SameExpiry m ((applyGroupInPlace judge disk commands).run m).2
  := by
  constructor
  · constructor
    · intro hsame hclock
      obtain ⟨x⟩ := nonempty_externals
      obtain ⟨m, hm⟩ := exists_not_sameExpiry x hclock
      apply hm
      apply hsame
    · intro hclock x judge disk m pos
      apply sameExpiry_applyInPlace hcmd hclock
  · apply sameExpiry_applyGroupInPlace

/-- A put of the watermark under a code that is not assigned. -/
def forgedClock : Command := .put 3 clockKey (ClockWatermark.encode ⟨5⟩)

/-- The bytes of the put. -/
def forgedClockBytes : Bytes :=
  [1, 1, 3] ++ (be 4 clockKey.length ++ (clockKey
    ++ (be 4 (ClockWatermark.encode ⟨5⟩).length ++ ClockWatermark.encode ⟨5⟩)))

/-- On a machine without expiry the put is applied and writes the watermark, and the machine has
expiry when it is opened again. -/
theorem forgedClock_writes_watermark :
  Command.decode forgedClockBytes = .ok forgedClock
    ∧ ∃ (x : Externals) (m' : Machine), withEngine Store.empty = .ok ⟨none, Store.empty, 0, false⟩
      ∧ (applyInPlace x none (.ok ()) ⟨1, 1⟩ forgedClock).run ⟨none, Store.empty, 0, false⟩
        = (.ok ⟨1, .plain⟩, m')
      ∧ Store.empty.get .default clockKey = none
      ∧ m'.engine.get .default clockKey = some (ClockWatermark.encode ⟨5⟩)
      ∧ withEngine m'.engine = .ok { m' with ttlEnabled := true }
  := by
  constructor
  · decide +kernel
  obtain ⟨x⟩ := nonempty_externals
  let m' := (⟨none, Store.empty, 0, false⟩ : Machine).after (lowerOps [.put 3 clockKey
    (ClockWatermark.encode ⟨5⟩)]) ⟨1, 1⟩
  have hclock : m'.engine.get .default clockKey = some (ClockWatermark.encode ⟨5⟩) := by
    exact if_pos ⟨rfl, rfl⟩
  use x, m', rfl, rfl, rfl, hclock
  rw [withEngine, hclock, readRow, ClockWatermark.decode_encode]
  rfl

/-- A put of a client's value on a machine that has applied nothing. -/
theorem legacy_spares_expiry_put :
  ∃ x : Externals, SameExpiry ⟨none, Store.empty, 0, false⟩
    ((applyInPlace x none (.ok ()) ⟨1, 1⟩ (.put 0 [0x72, 0, 0, 7, 1] [9])).run
      ⟨none, Store.empty, 0, false⟩).2
  := by
  obtain ⟨x⟩ := nonempty_externals
  have hclock : ¬ (Command.put 0 [0x72, 0, 0, 7, 1] [9]).ReachesClock := by
    rintro ⟨ops, hops, -, op, hop, -, hkey⟩
    cases hops
    rw [List.mem_singleton.mp hop] at hkey
    exact absurd hkey (by decide)
  have hcmd : ∀ command, Command.put 0 [0x72, 0, 0, 7, 1] [9] ≠ .rawTtl command := fun _ => nofun
  use x
  apply (legacy_spares_expiry_iff hcmd).1.mpr hclock

end Machine

end Kv9.Raft
