import Kv9.Lib.Codec
import Kv9.Lib.Fallible
import Kv9.Engine.Basic

/-!
# The batch payload of a log record

A batch is written as the number of its mutations followed by the mutations, each a tag, a
column family and its byte strings with their lengths.  `encodedSize` accepts the batches
whose payload stays within the record limit; for these, decoding inverts encoding.  The
checksum is the table-driven CRC-32 of the log.
-/

namespace Kv9.Engine.Wal

open Codec List

/-- Why a log cannot be read or extended. -/
inductive WalError where
  | truncated
  | unknownColumnFamily (code : UInt8)
  | unknownMutationTag (tag : UInt8)
  | trailingBytes (count : ℕ)
  | recordTooLarge
  | zeroIdentity
  | headerMismatch
  | invalidHeader
  | invalidFrameHeader
  | frameTooLarge
  | invalidPositionKind
  | frameChecksum
  | positionMustAdvance
  | countOverflow
  | incompleteClosed
  | closedLength
  | closedContents
  | closedSummary
  | topologyFormat
  | topologyChecksum
  | topologyTruncated
  | topologyPosition
  | topologyFlag
  | topologyTrailing
  | topologyTooLarge
  | topologyGeneration
  | firstHasPredecessor
  | missingSegments
  | chainDiscontinuous
  | unpositionedHistory
  | notExtending
  | capacityReached
  | poisoned
  | manifest
  | unpositionedRecord
  | coveredDisagrees
  | termRegresses
  | checkpointAhead
  | checkpointScope
  | checkpointConflict
  | checkpointTerm
  | checkpointEpoch
  | checkpointContradicts
  | invalidTarget
  | missingFile
deriving DecidableEq, Repr

/-! ## Checksums -/

/-- One step of the reflected polynomial. -/
def crcBit (crc : UInt32) : UInt32 :=
  (crc >>> 1) ^^^ (0xEDB88320 &&& (0 - (crc &&& 1)))

/-- The transition of one byte: eight steps of the polynomial. -/
def crcTable (byte : UInt8) : UInt32 :=
  Nat.iterate crcBit 8 byte.toUInt32

/-- The transition of a byte followed by `n` zero bytes. -/
def crcSlicing : ℕ → UInt8 → UInt32
  | 0, byte => crcTable byte
  | n + 1, byte =>
    let prior := crcSlicing n byte
    (prior >>> 8) ^^^ crcTable prior.toUInt8

/-- The checksum state after a byte string, eight bytes at a time. -/
def crcUpdate (crc : UInt32) : Bytes → UInt32
  | b0 :: b1 :: b2 :: b3 :: b4 :: b5 :: b6 :: b7 :: rest =>
    let low := crc ^^^ UInt32.ofNat (fromLe [b0, b1, b2, b3])
    let next := crcSlicing 7 low.toUInt8 ^^^ crcSlicing 6 (low >>> 8).toUInt8
      ^^^ crcSlicing 5 (low >>> 16).toUInt8 ^^^ crcSlicing 4 (low >>> 24).toUInt8
      ^^^ crcSlicing 3 b4 ^^^ crcSlicing 2 b5 ^^^ crcSlicing 1 b6 ^^^ crcSlicing 0 b7
    crcUpdate next rest
  | rest => rest.foldl (fun crc b => (crc >>> 8) ^^^ crcTable (crc.toUInt8 ^^^ b)) crc

/-- The checksum of several byte strings taken together. -/
def crc32Parts (parts : List Bytes) : UInt32 :=
  ~~~ parts.foldl crcUpdate 0xFFFFFFFF

/-- The checksum of a byte string. -/
def crc32 (bytes : Bytes) : UInt32 := crc32Parts [bytes]

/-! ## Batches -/

/-- The code of a column family. -/
def cfCode : ColumnFamily → UInt8
  | .default => 0
  | .lock => 1
  | .write => 2

/-- The column family of a code. -/
def cfFromCode : UInt8 → Except WalError ColumnFamily
  | 0 => .ok .default
  | 1 => .ok .lock
  | 2 => .ok .write
  | other => .error (.unknownColumnFamily other)

/-- A byte string with its length. -/
def encodeBytes (bytes : Bytes) : Bytes := le 4 bytes.length ++ bytes

/-- Serialize a mutation. -/
def encodeMutation : Mutation → Bytes
  | .put cf key value => [0] ++ ([cfCode cf] ++ (encodeBytes key ++ encodeBytes value))
  | .delete cf key => [1] ++ ([cfCode cf] ++ encodeBytes key)

/-- Serialize the mutations of a batch. -/
def encodeBatch (batch : WriteBatch) : Bytes :=
  le 4 batch.length ++ batch.flatMap encodeMutation

/-- Read a byte string with its length. -/
def readBytes : Parser WalError Bytes := do
  let n ← take32 .truncated
  take .truncated n.toNat

/-- Read a mutation. -/
def readMutation : Parser WalError Mutation := do
  let tag ← takeByte .truncated
  let code ← takeByte .truncated
  let cf ← cfFromCode code
  if tag = 0 then do
    let key ← readBytes
    let value ← readBytes
    return .put cf key value
  else if tag = 1 then do
    let key ← readBytes
    return .delete cf key
  else
    throw (.unknownMutationTag tag)

/-- Read the mutations of a batch. -/
def readBatch : Parser WalError WriteBatch := do
  let count ← take32 .truncated
  times readMutation count.toNat

/-- Read a batch from a whole payload. -/
def decodeBatch (payload : Bytes) : Except WalError WriteBatch := do
  let (batch, rest) ← readBatch payload
  if rest.isEmpty then .ok batch else .error (.trailingBytes rest.length)

/-- The largest payload of one record. -/
def maxRecordLen : ℕ := 64 * 1024 * 1024

/-- The bytes of a mutation in a payload. -/
def mutationSize : Mutation → ℕ
  | .put _ key value => 10 + key.length + value.length
  | .delete _ key => 6 + key.length

/-- The payload size of a batch, as long as it stays within the limit. -/
def payloadSize : WriteBatch → ℕ → Except WalError ℕ
  | [], payload => .ok payload
  | m :: batch, payload =>
    if maxRecordLen < payload + mutationSize m then .error .recordTooLarge
    else payloadSize batch (payload + mutationSize m)

/-- Magic, payload length, position kind, reserved bytes, term, index and checksum. -/
def frameHeaderBytes : ℕ := 32

/-- The bytes of the frame of a batch, if the batch stays within the limit. -/
def encodedSize (batch : WriteBatch) : Except WalError ℕ := do
  let payload ← payloadSize batch 4
  return payload + frameHeaderBytes + 4

/-! ## Decoding inverts encoding -/

theorem length_encodeMutation (m : Mutation) :
  (encodeMutation m).length = mutationSize m
  := by
  cases m
  all_goals
    simp only [encodeMutation, encodeBytes, mutationSize, length_append, length_le,
      length_singleton]
    omega

/-- What `payloadSize` accepts adds up to the mutations, each of them within the limit. -/
theorem payloadSize_eq_ok {batch : WriteBatch} {payload n : ℕ}
    (h : payloadSize batch payload = .ok n) :
  n = payload + (batch.flatMap encodeMutation).length
    ∧ (payload ≤ maxRecordLen → n ≤ maxRecordLen)
    ∧ ∀ m ∈ batch, payload + mutationSize m ≤ maxRecordLen
  := by
  induction batch generalizing payload with
  | nil =>
    rw [payloadSize, Except.ok.injEq] at h
    use h.symm, fun hle => h ▸ hle
    nofun
  | cons m batch ih =>
    rw [payloadSize] at h
    split_ifs at h with hsize
    obtain ⟨hn, hle, hall⟩ := ih h
    rw [flatMap_cons, length_append, length_encodeMutation]
    refine ⟨by omega, fun _ => hle (not_lt.mp hsize), ?_⟩
    intro m' hm'
    rcases mem_cons.mp hm' with rfl | hm'
    · omega
    · have := hall m' hm'
      omega

/-- A batch whose payload stays within the record limit. -/
structure Fits (batch : WriteBatch) : Prop where
  length : (encodeBatch batch).length ≤ maxRecordLen
  mutations : ∀ m ∈ batch, mutationSize m ≤ maxRecordLen

theorem fits_of_encodedSize {batch : WriteBatch} {n : ℕ} (h : encodedSize batch = .ok n) :
  Fits batch ∧ n = (encodeBatch batch).length + frameHeaderBytes + 4
  := by
  cases hp : payloadSize batch 4 with
  | error e =>
    rw [encodedSize, hp] at h
    cases h
  | ok payload =>
    rw [encodedSize, hp] at h
    cases h
    obtain ⟨rfl, hle, hall⟩ := payloadSize_eq_ok hp
    have hlen : (encodeBatch batch).length = 4 + (batch.flatMap encodeMutation).length := by
      rw [encodeBatch, length_append, length_le]
    refine ⟨⟨?_, ?_⟩, ?_⟩
    · rw [hlen]
      apply hle (by decide)
    · intro m hm
      have := hall m hm
      omega
    · rw [hlen]

theorem payloadSize_of_le {batch : WriteBatch} {payload : ℕ}
    (h : payload + (batch.flatMap encodeMutation).length ≤ maxRecordLen) :
  payloadSize batch payload = .ok (payload + (batch.flatMap encodeMutation).length)
  := by
  induction batch generalizing payload with
  | nil => rfl
  | cons m batch ih =>
    rw [flatMap_cons, length_append, length_encodeMutation, ← Nat.add_assoc] at h ⊢
    rw [payloadSize, if_neg (by omega), ih h]

/-- The size of a record is predicted exactly for the batches within the limit. -/
theorem encodedSize_eq_ok {batch : WriteBatch} {n : ℕ} :
  encodedSize batch = .ok n
    ↔ (encodeBatch batch).length ≤ maxRecordLen
      ∧ n = (encodeBatch batch).length + frameHeaderBytes + 4
  := by
  constructor
  · intro h
    obtain ⟨hfits, hn⟩ := fits_of_encodedSize h
    use hfits.length, hn
  · rintro ⟨hle, rfl⟩
    have hlen : (encodeBatch batch).length = 4 + (batch.flatMap encodeMutation).length := by
      rw [encodeBatch, length_append, length_le]
    rw [hlen] at hle ⊢
    rw [encodedSize, payloadSize_of_le hle]
    rfl

theorem reads_readBytes {bytes : Bytes} (h : bytes.length < 256 ^ 4) :
  Reads readBytes (encodeBytes bytes) bytes
  := by
  have hlen : (UInt32.ofNat bytes.length).toNat = bytes.length := UInt32.toNat_ofNat_of_lt h
  have hle : le 4 bytes.length = le32 (UInt32.ofNat bytes.length) := by
    rw [le32, hlen]
  rw [encodeBytes, hle]
  apply (reads_take32 _ _).bind
  apply reads_take
  rw [hlen]

theorem cfFromCode_cfCode (cf : ColumnFamily) :
  cfFromCode (cfCode cf) = .ok cf
  := by
  cases cf <;> rfl

/-- A batch whose lengths can be written in four bytes. -/
structure LengthsFit (batch : WriteBatch) : Prop where
  count : batch.length < 256 ^ 4
  keys : ∀ m ∈ batch, m.key.length < 256 ^ 4
  values : ∀ m ∈ batch, ∀ value ∈ m.slot, value.length < 256 ^ 4

theorem Fits.lengthsFit {batch : WriteBatch} (h : Fits batch) :
  LengthsFit batch
  := by
  have hmax : maxRecordLen < 256 ^ 4 := by decide
  have hcount : batch.length ≤ (batch.flatMap encodeMutation).length := by
    rw [length_flatMap]
    conv_lhs => rw [← length_map fun m => (encodeMutation m).length]
    apply length_le_sum_of_one_le
    intro n hn
    obtain ⟨m, -, rfl⟩ := mem_map.mp hn
    rw [length_encodeMutation]
    cases m <;> (rw [mutationSize]; omega)
  have hlen := h.length
  rw [encodeBatch, length_append] at hlen
  constructor
  · omega
  · intro m hm
    have hsize := h.mutations m hm
    cases m <;> (rw [mutationSize] at hsize; rw [Mutation.key]; omega)
  · intro m hm value hvalue
    have hsize := h.mutations m hm
    cases m <;> cases hvalue
    rw [mutationSize] at hsize
    omega

theorem reads_readMutation {m : Mutation} (hkey : m.key.length < 256 ^ 4)
    (hvalue : ∀ value ∈ m.slot, value.length < 256 ^ 4) :
  Reads readMutation (encodeMutation m) m
  := by
  cases m with
  | put cf key value =>
    apply (reads_takeByte _ _).bind
    apply (reads_takeByte _ _).bind
    apply (reads_lift (cfFromCode_cfCode cf)).bind
    apply (reads_readBytes hkey).bind
    apply (reads_readBytes (hvalue value rfl)).map
  | delete cf key =>
    apply (reads_takeByte _ _).bind
    apply (reads_takeByte _ _).bind
    apply (reads_lift (cfFromCode_cfCode cf)).bind
    apply (reads_readBytes hkey).map

theorem reads_readBatch {batch : WriteBatch} (h : LengthsFit batch) :
  Reads readBatch (encodeBatch batch) batch
  := by
  have hnat : (UInt32.ofNat batch.length).toNat = batch.length := UInt32.toNat_ofNat_of_lt h.count
  have hle : le 4 batch.length = le32 (UInt32.ofNat batch.length) := by
    rw [le32, hnat]
  rw [encodeBatch, hle]
  apply (reads_take32 _ _).bind
  rw [hnat]
  apply reads_times
  intro m hm
  apply reads_readMutation (h.keys m hm) (h.values m hm)

theorem decodeBatch_encodeBatch {batch : WriteBatch} (h : LengthsFit batch) :
  decodeBatch (encodeBatch batch) = .ok batch
  := by
  rw [decodeBatch, (reads_readBatch h).run]
  rfl

/-! ## What is decoded -/

theorem eq_of_readBytes {bs bytes rest : Bytes} (h : readBytes bs = .ok (bytes, rest)) :
  bs = encodeBytes bytes ++ rest
  := by
  obtain ⟨n, more, hn, hmore⟩ := bind_apply_eq_ok.mp h
  obtain ⟨hlength, rfl⟩ := take_eq_ok.mp hmore
  rw [take32_eq_ok.mp hn, encodeBytes, hlength, append_assoc]
  rfl

theorem cfCode_of_cfFromCode {code : UInt8} {cf : ColumnFamily} (h : cfFromCode code = .ok cf) :
  cfCode cf = code
  := by
  unfold cfFromCode at h
  split at h <;> cases h <;> rfl

theorem eq_of_readMutation {bs rest : Bytes} {m : Mutation} (h : readMutation bs = .ok (m, rest)) :
  bs = encodeMutation m ++ rest
  := by
  obtain ⟨tag, _, htag, h⟩ := bind_apply_eq_ok.mp h
  obtain ⟨code, _, hcode, h⟩ := bind_apply_eq_ok.mp h
  obtain ⟨cf, hcf, h⟩ := lift_bind_eq_ok.mp h
  rw [takeByte_eq_ok.mp htag, takeByte_eq_ok.mp hcode, ← cfCode_of_cfFromCode hcf]
  split_ifs at h with hput hdelete
  · obtain ⟨key, _, hkey, h⟩ := bind_apply_eq_ok.mp h
    obtain ⟨value, _, hvalue, h⟩ := bind_apply_eq_ok.mp h
    cases h
    rw [hput, eq_of_readBytes hkey, eq_of_readBytes hvalue, encodeMutation]
    simp
  · obtain ⟨key, _, hkey, h⟩ := bind_apply_eq_ok.mp h
    cases h
    rw [hdelete, eq_of_readBytes hkey, encodeMutation]
    simp
  · nomatch h

theorem encodeBatch_of_decodeBatch {payload : Bytes} {batch : WriteBatch}
    (h : decodeBatch payload = .ok batch) :
  encodeBatch batch = payload
  := by
  obtain ⟨⟨batch', rest⟩, hread, h⟩ := Except.bind_eq_ok.mp h
  dsimp only at h
  split_ifs at h with hrest
  cases h
  obtain ⟨count, more, hcount, hmore⟩ := bind_apply_eq_ok.mp hread
  obtain ⟨hlength, hbatch⟩ := eq_of_times eq_of_readMutation hmore
  rw [take32_eq_ok.mp hcount, hbatch, isEmpty_iff.mp hrest, append_nil, encodeBatch, hlength]
  rfl

end Kv9.Engine.Wal
