import Kv9.Common.Keys
import Kv9.Engine.Basic

/-!
# Time and records of expiring values

A proposer resolves time once, into a plan; ordered apply only merges the numbers of the
plan.  The watermark of a group is the largest time its log has observed.  A record of
expiry names the position of the write it belongs to, so that a cleanup decided on one write
cannot remove another.
-/

namespace Kv9

open Codec Except List

namespace RawTtl

/-- The key of the watermark of a group: `s\0\0\0kv9.raw-ttl-clock.v1`. -/
def clockKey : Bytes := [0x73, 0, 0, 0] ++ "kv9.raw-ttl-clock.v1".toUTF8.toList

/-- Why a command on expiring values is refused. -/
inductive TtlRejection where
  | notEnabled
  | legacyCommand
  | invalidScope
deriving DecidableEq, Repr

/-! ## Clocks -/

/-- The time a group has agreed on, in milliseconds. -/
structure ClockWatermark where
  unixMs : UInt64
deriving DecidableEq, Repr

namespace ClockWatermark

/-- No time has been observed. -/
def initial : ClockWatermark := ⟨0⟩

/-- The later of two watermarks. -/
def merge (committed proposed : ClockWatermark) : ClockWatermark :=
  ⟨max committed.unixMs proposed.unixMs⟩

/-- `KV9CLK01`. -/
def magic : Bytes := "KV9CLK01".toUTF8.toList

/-- Write a watermark. -/
def encode (clock : ClockWatermark) : Bytes := magic ++ be64 clock.unixMs

/-- Read a watermark. -/
def decode (bytes : Bytes) : Except Error ClockWatermark := do
  failIf (bytes.length ≠ 16 ∨ bytes.take 8 ≠ magic) (.engine "invalid Raw TTL clock record")
  return ⟨fromBe64 (bytes.drop 8)⟩

theorem length_magic :
  magic.length = 8
  := by
  decide +kernel

@[simp]
theorem decode_encode (clock : ClockWatermark) :
  decode clock.encode = .ok clock
  := by
  have htake : clock.encode.take 8 = magic := take_left' length_magic
  have hdrop : clock.encode.drop 8 = be64 clock.unixMs := drop_left' length_magic
  have hlength : clock.encode.length = 16 := by
    rw [encode, length_append, length_magic, length_be64]
  rw [decode, htake, hdrop, hlength, failIf_neg (by simp), fromBe64_be64]
  rfl

theorem le_merge (committed proposed : ClockWatermark) :
  committed.unixMs ≤ (committed.merge proposed).unixMs
  := le_max_left ..

end ClockWatermark

/-- An interval of a clock that contains the current time, in milliseconds. -/
structure ClockSample where
  earliestMs : UInt64
  latestMs : UInt64
  earliest_le : earliestMs ≤ latestMs

/-- The watermark a sample proposes.  A clock that is behind what the group has agreed on is
refused. -/
def ClockSample.advance (sample : ClockSample) (committed : ClockWatermark) :
    Except Error ClockWatermark := do
  failIf (sample.latestMs < committed.unixMs)
    (.config "TTL clock is behind the committed watermark outside its uncertainty")
  return committed.merge ⟨sample.earliestMs⟩

/-! ## Plans -/

/-- The time of one proposed write. -/
structure ExpiryPlan where
  observed : ClockWatermark
  expiresAtMs : Option UInt64
deriving DecidableEq, Repr

/-- Resolve the time of a write: no expiry, expiry at apply, or a number of seconds after the
latest time the clock may show. -/
def ExpiryPlan.resolve (ttlSecs : Option UInt64) (sample : ClockSample)
    (committed : ClockWatermark) : Except Error ExpiryPlan := do
  let observed ← sample.advance committed
  match ttlSecs with
  | none => return ⟨observed, none⟩
  | some seconds =>
    if seconds = 0 then
      return ⟨observed, some observed.unixMs⟩
    else
      match (checkedMul64 seconds 1000).bind (checkedAdd64 sample.latestMs) with
      | none => throw (.config "Raw TTL deadline overflows")
      | some deadline => return ⟨observed, some deadline⟩

variable {plan : ExpiryPlan} {creation : RootDigest} {position : AppliedPosition}
  {record : ExpiryRecord}

/-- A resolved plan observes no time before the watermark and no time after its deadline.  Only
a write for no time has its deadline when it is observed. -/
theorem ExpiryPlan.resolve_eq_ok {ttlSecs : Option UInt64} {sample : ClockSample}
    {committed : ClockWatermark} (h : ExpiryPlan.resolve ttlSecs sample committed = .ok plan) :
  committed.unixMs ≤ plan.observed.unixMs
    ∧ ∀ deadline ∈ plan.expiresAtMs, plan.observed.unixMs ≤ deadline
      ∧ (deadline = plan.observed.unixMs → ttlSecs = some 0)
  := by
  simp only [resolve, ClockSample.advance, bind_eq_ok, failIf_eq_ok, not_lt] at h
  obtain ⟨observed, ⟨-, hlatest, hobserved⟩, h⟩ := h
  cases hobserved
  have hle : (committed.merge ⟨sample.earliestMs⟩).unixMs ≤ sample.latestMs :=
    max_le hlatest sample.earliest_le
  cases ttlSecs with
  | none =>
    cases h
    use ClockWatermark.le_merge .., (by simp)
  | some seconds =>
    dsimp only at h
    split_ifs at h with hzero
    · cases h
      use ClockWatermark.le_merge ..
      rintro deadline ⟨⟩
      rw [hzero]
      exact ⟨le_rfl, fun _ => rfl⟩
    · cases hdeadline : (checkedMul64 seconds 1000).bind (checkedAdd64 sample.latestMs) with
      | none =>
        rw [hdeadline] at h
        cases h
      | some deadline =>
        rw [hdeadline] at h
        cases h
        use ClockWatermark.le_merge ..
        rintro _ ⟨⟩
        obtain ⟨millis, hmul, hadd⟩ := Option.bind_eq_some_iff.mp hdeadline
        rw [checkedMul64] at hmul
        rw [checkedAdd64] at hadd
        split_ifs at hmul hadd with hfits hlt
        cases hmul
        cases hadd
        have hseconds : seconds.toNat ≠ 0 := fun h => hzero (UInt64.toNat_inj.mp h)
        have hafter : sample.latestMs < sample.latestMs + seconds * 1000 := by
          rw [UInt64.lt_iff_toNat_lt, UInt64.toNat_add, Nat.mod_eq_of_lt hlt, UInt64.toNat_mul,
            Nat.mod_eq_of_lt hfits]
          change _ < _ + _ * 1000
          omega
        have hlt := lt_of_le_of_lt hle hafter
        exact ⟨hlt.le, fun h => absurd h hlt.ne'⟩

/-! ## Records -/

/-- The expiry of one value: the group that wrote it, the position of the write, and the
deadline. -/
structure ExpiryRecord where
  creation : RootDigest
  position : AppliedPosition
  expiresAtMs : UInt64
  identified : ¬ (creation = .zero ∨ position.term = 0 ∨ position.index = 0)
deriving DecidableEq

namespace ExpiryRecord

/-- A record for a write, unless the write has no identity. -/
def new (creation : RootDigest) (position : AppliedPosition) (expiresAtMs : UInt64) :
    Except Error ExpiryRecord :=
  if h : creation = .zero ∨ position.term = 0 ∨ position.index = 0 then
    .error (.engine "invalid Raw TTL write identity")
  else
    .ok ⟨creation, position, expiresAtMs, h⟩

/-- Whether the deadline has passed. -/
def expiredAt (record : ExpiryRecord) (watermark : ClockWatermark) : Bool :=
  record.expiresAtMs ≤ watermark.unixMs

/-- Whether a cleanup decided on `record` may remove the current version. -/
def permitsCleanup (record : ExpiryRecord) (current : Option ExpiryRecord)
    (watermark : ClockWatermark) : Bool :=
  current == some record && record.expiredAt watermark

/-- `KV9TTL01`. -/
def magic : Bytes := "KV9TTL01".toUTF8.toList

/-- Write a record. -/
def encode (record : ExpiryRecord) : Bytes :=
  magic ++ (record.creation.bytes ++ (be64 record.position.term
    ++ (be64 record.position.index ++ be64 record.expiresAtMs)))

/-- Read a record. -/
def decode (bytes : Bytes) : Except Error ExpiryRecord :=
  if h : bytes.length = 64 ∧ bytes.take 8 = magic then
    new ⟨(bytes.drop 8).take 32, by simp; omega⟩
      ⟨fromBe64 ((bytes.drop 40).take 8), fromBe64 ((bytes.drop 48).take 8)⟩
      (fromBe64 (bytes.drop 56))
  else
    .error (.engine "invalid Raw TTL expiry record")

theorem length_magic :
  magic.length = 8
  := by
  decide +kernel

theorem new_eq_ok {expiresAtMs : UInt64} (h : new creation position expiresAtMs = .ok record) :
  record.creation = creation ∧ record.position = position ∧ record.expiresAtMs = expiresAtMs
  := by
  rw [new] at h
  split_ifs at h
  cases h
  exact ⟨rfl, rfl, rfl⟩

theorem new_self (record : ExpiryRecord) :
  new record.creation record.position record.expiresAtMs = .ok record
  := by
  rw [new, dif_neg]

@[simp]
theorem decode_encode (record : ExpiryRecord) :
  decode record.encode = .ok record
  := by
  have hmagic := length_magic
  have hcreation := record.creation.length_bytes
  have hlength : record.encode.length = 64 := by
    simp only [encode, length_append, length_be64]
    omega
  have htake : record.encode.take 8 = magic := take_left' hmagic
  have h8 : record.encode.drop 8 = record.creation.bytes ++ (be64 record.position.term
      ++ (be64 record.position.index ++ be64 record.expiresAtMs)) :=
    drop_left' hmagic
  have h40 : record.encode.drop 40
      = be64 record.position.term ++ (be64 record.position.index ++ be64 record.expiresAtMs) := by
    rw [show 40 = 8 + 32 from rfl, ← drop_drop, h8, drop_left' hcreation]
  have h48 : record.encode.drop 48 = be64 record.position.index ++ be64 record.expiresAtMs := by
    rw [show 48 = 40 + 8 from rfl, ← drop_drop, h40, drop_left' (length_be64 _)]
  have h56 : record.encode.drop 56 = be64 record.expiresAtMs := by
    rw [show 56 = 48 + 8 from rfl, ← drop_drop, h48, drop_left' (length_be64 _)]
  rw [decode, dif_pos ⟨hlength, htake⟩]
  simp only [h8, h40, h48, h56, take_left' hcreation, take_left' (length_be64 _), fromBe64_be64]
  apply new_self

end ExpiryRecord

/-- The record of a write at a position, if the plan has a deadline. -/
def ExpiryPlan.atWrite (plan : ExpiryPlan) (creation : RootDigest) (position : AppliedPosition) :
    Except Error (Option ExpiryRecord) :=
  match plan.expiresAtMs with
  | none => .ok none
  | some expiresAtMs => do
    let record ← ExpiryRecord.new creation position expiresAtMs
    return some record

/-- The record of a write names the position of the write. -/
theorem ExpiryPlan.position_of_atWrite (h : plan.atWrite creation position = .ok (some record)) :
  record.position = position
  := by
  rw [atWrite] at h
  cases hdeadline : plan.expiresAtMs with
  | none =>
    rw [hdeadline] at h
    nomatch h
  | some expiresAtMs =>
    rw [hdeadline] at h
    simp only [bind_eq_ok] at h
    obtain ⟨r, hr, h⟩ := h
    cases h
    apply (ExpiryRecord.new_eq_ok hr).2.1

end RawTtl

end Kv9
