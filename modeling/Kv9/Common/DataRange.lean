import Kv9.Common.Keys
import Kv9.Engine.Basic

/-!
# Data ranges

The range a group owns: the keys of one keyspace between two bounds, at an epoch.  A range
may only be followed by itself, sealed.
-/

namespace Kv9

open Codec Except

/-- The key of the range of a group: `s\0\0\0kv9.data-range.v1`. -/
def rangeKey : Bytes := [0x73, 0, 0, 0] ++ "kv9.data-range.v1".toUTF8.toList

/-- The largest bound of a range. -/
def maxBound : ℕ := 65536

/-- The largest encoding of a range. -/
def maxEncodedBytes : ℕ := 117 + 2 * maxBound

/-- What a data group owns. -/
structure DataRange where
  root : RootDigest
  creation : RootDigest
  region : RegionId
  keyspace : KeyspaceId
  tenant : TenantId
  confVer : UInt64
  version : UInt64
  start : Bytes
  stop : Bytes
  isSealed : Bool
deriving DecidableEq

namespace DataRange

/-- Check the identity and the bounds of a range. -/
def validate (r : DataRange) : Except Error Unit :=
  failIf (r.root = .zero ∨ r.creation = .zero ∨ r.region < 100 ∨ r.keyspace = 0
    ∨ maxKeyspace < r.keyspace ∨ r.confVer = 0 ∨ r.version = 0 ∨ maxBound < r.start.length
    ∨ maxBound < r.stop.length ∨ (r.stop ≠ [] ∧ r.stop ≤ r.start))
    (.config "invalid data range identity or bounds")

/-- `KV9RNG01`. -/
def magic : Bytes := "KV9RNG01".toUTF8.toList

/-- Write a bound with its length. -/
def encodeBound (bound : Bytes) : Bytes := be 4 bound.length ++ bound

/-- Write a range. -/
def encode (r : DataRange) : Bytes :=
  magic ++ (r.root.bytes ++ (r.creation.bytes ++ (be64 r.region ++ (be32 r.keyspace
    ++ (be64 r.tenant ++ (be64 r.confVer ++ (be64 r.version
    ++ ([if r.isSealed then 1 else 0] ++ (encodeBound r.start ++ encodeBound r.stop)))))))))

/-- The refusal of bytes that are no range. -/
def bad : Error := .config "invalid data range encoding"

/-- Read a digest. -/
def readDigest : Parser Error RootDigest := do
  let bytes ← take bad 32
  if h : bytes.length = 32 then return ⟨bytes, h⟩ else throw bad

/-- Read a bound. -/
def readBound : Parser Error Bytes := do
  let n ← takeBe32 bad
  guardOr (n.toNat ≤ maxBound) bad
  take bad n.toNat

/-- Read the fields of a range. -/
def read : Parser Error DataRange := do
  let m ← take bad 8
  guardOr (m = magic) bad
  let root ← readDigest
  let creation ← readDigest
  let region ← takeBe64 bad
  let keyspace ← takeBe32 bad
  let tenant ← takeBe64 bad
  let confVer ← takeBe64 bad
  let version ← takeBe64 bad
  let isSealed ← takeByte bad
  guardOr (isSealed ≤ 1) bad
  let start ← readBound
  let stop ← readBound
  return ⟨root, creation, region, keyspace, tenant, confVer, version, start, stop, isSealed == 1⟩

/-- Read a range from a whole record. -/
def decode (bytes : Bytes) : Except Error DataRange := do
  failIf (bytes.length < 117 ∨ maxEncodedBytes < bytes.length) bad
  let (range, rest) ← read bytes
  failIf (rest ≠ []) bad
  range.validate
  return range

/-- The digest of a range. -/
def digest (sha256 : Bytes → RootDigest) (r : DataRange) : RootDigest := sha256 r.encode

/-- Whether the range owns a key. -/
def contains (r : DataRange) (key : Bytes) : Bool :=
  r.start ≤ key && (r.stop.isEmpty || key < r.stop)

/-- Whether `next` may replace `current`: the same range at the next version, sealed. -/
def mayFollow (next current : DataRange) : Bool :=
  match checkedAdd64 current.version 1 with
  | none => false
  | some version =>
    !current.isSealed && next == { current with version := version, isSealed := true }

/-! ## Reading back -/

theorem length_magic :
  magic.length = 8
  := by
  decide +kernel

theorem reads_readDigest (d : RootDigest) :
  Reads readDigest d.bytes d
  := by
  rw [← List.append_nil d.bytes]
  apply (reads_take bad d.length_bytes).bind
  rw [dif_pos d.length_bytes]
  apply reads_pure

theorem reads_readBound {bound : Bytes} (h : bound.length ≤ maxBound) :
  Reads readBound (encodeBound bound) bound
  := by
  have hlt : bound.length < 2 ^ 32 := Nat.lt_of_le_of_lt h (by decide)
  have hnat : (UInt32.ofNat bound.length).toNat = bound.length := UInt32.toNat_ofNat_of_lt hlt
  have hbe : be 4 bound.length = be32 (UInt32.ofNat bound.length) := by rw [be32, hnat]
  rw [encodeBound, hbe]
  apply (reads_takeBe32 bad _).bind
  rw [hnat]
  apply (reads_guardOr bad h).bind
  apply reads_take bad rfl

theorem length_encode (r : DataRange) :
  r.encode.length = 117 + (r.start.length + r.stop.length)
  := by
  have := r.root.length_bytes
  have := r.creation.length_bytes
  have := length_magic
  simp only [encode, encodeBound, List.length_append, length_be64, length_be32, length_be,
    List.length_singleton]
  omega

theorem length_bounds_of_validate {r : DataRange} (h : r.validate = .ok ()) :
  r.start.length ≤ maxBound ∧ r.stop.length ≤ maxBound
  := by
  rw [validate, failIf_eq_ok] at h
  push Not at h
  use h.2.2.2.2.2.2.2.1, h.2.2.2.2.2.2.2.2.1

theorem decode_encode {r : DataRange} (h : r.validate = .ok ()) :
  decode r.encode = .ok r
  := by
  obtain ⟨hstart, hstop⟩ := length_bounds_of_validate h
  have hbit : (if r.isSealed then (1 : UInt8) else 0) ≤ 1 := by
    cases r.isSealed
    · decide
    · decide
  have hsealed : ((if r.isSealed then (1 : UInt8) else 0) == 1) = r.isSealed := by
    cases r.isSealed
    · rfl
    · rfl
  have hread : Reads read r.encode r := by
    apply (reads_take bad length_magic).bind
    apply (reads_guardOr bad rfl).bind
    apply (reads_readDigest r.root).bind
    apply (reads_readDigest r.creation).bind
    apply (reads_takeBe64 bad r.region).bind
    apply (reads_takeBe32 bad r.keyspace).bind
    apply (reads_takeBe64 bad r.tenant).bind
    apply (reads_takeBe64 bad r.confVer).bind
    apply (reads_takeBe64 bad r.version).bind
    apply (reads_takeByte bad _).bind
    apply (reads_guardOr bad hbit).bind
    apply (reads_readBound hstart).bind
    rw [← List.append_nil (encodeBound r.stop)]
    apply (reads_readBound hstop).bind
    rw [hsealed]
    apply reads_pure
  have hbounds : ¬ (r.encode.length < 117 ∨ maxEncodedBytes < r.encode.length) := by
    rw [length_encode, maxEncodedBytes]
    omega
  rw [decode, failIf_neg hbounds, hread.run]
  simp [h]

end DataRange

end Kv9
