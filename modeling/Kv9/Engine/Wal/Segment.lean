import Kv9.Engine.Wal.Batch

/-!
# Log segments

A segment is a file with a header that names its stream, its sequence number and the
position before it, followed by frames.  A frame holds one record: a header with its own
checksum, the payload of the batch, and a checksum that binds the segment header, the frame
header and the payload.

Recovery scans the frames.  A complete frame that is malformed refuses the whole segment;
an incomplete frame at the end ends the scan, and is discarded when the segment is the
active one.
-/

namespace Kv9.Engine.Wal

open Codec Except List

/-- One record: a batch and the position at which it applied, if it has one. -/
structure Record where
  batch : WriteBatch
  position : Option AppliedPosition
deriving DecidableEq

/-- Identity and predecessor selected by the topology of the stream. -/
structure SegmentHeader where
  streamId : Fin 16 → UInt8
  sequence : UInt64
  previous : Option AppliedPosition
deriving DecidableEq

/-- `KV9SEG01`. -/
def segmentMagic : Bytes := [0x4B, 0x56, 0x39, 0x53, 0x45, 0x47, 0x30, 0x31]

/-- `KV9R`. -/
def frameMagic : Bytes := [0x4B, 0x56, 0x39, 0x52]

/-- The size of a segment header. -/
def headerBytes : ℕ := 60

/-- `n` zero bytes. -/
def zeros (n : ℕ) : Bytes := List.replicate n 0

/-- A position field: its kind, reserved bytes, term and index. -/
def positionField (reserved : ℕ) (position : Option AppliedPosition) : Bytes :=
  let pos := position.getD ⟨0, 0⟩
  [if position.isSome then 1 else 0] ++ (zeros reserved ++ (le64 pos.term ++ le64 pos.index))

namespace SegmentHeader

/-- The header bytes before the checksum. -/
def body (h : SegmentHeader) : Bytes :=
  segmentMagic ++ (List.ofFn h.streamId ++ (le64 h.sequence ++ positionField 7 h.previous))

/-- The header bytes. -/
def bytes (h : SegmentHeader) : Bytes := h.body ++ le32 (crc32 h.body)

/-- The header bytes, unless the identity or the sequence number is zero. -/
def encode (h : SegmentHeader) : Except WalError Bytes :=
  if h.streamId = (fun _ => 0) ∨ h.sequence = 0 then .error .zeroIdentity else .ok h.bytes

/-- Read the position at the end of a header. -/
def readPrevious : Parser WalError (Option AppliedPosition) := do
  let kind ← takeByte .truncated
  let _ ← take .truncated 7
  let term ← take64 .truncated
  let index ← take64 .truncated
  if kind = 0 then return none
  else if kind = 1 then return some ⟨term, index⟩
  else throw .invalidHeader

/-- Read the fields of a header. -/
def read : Parser WalError SegmentHeader := do
  let _ ← take .truncated 8
  let id ← take .truncated 16
  let sequence ← take64 .truncated
  let previous ← readPrevious
  return ⟨fun i => id.getD i 0, sequence, previous⟩

/-- Read a published header: its bytes must be the encoding of what they say. -/
def decode (bytes : Bytes) : Except WalError SegmentHeader := do
  failIf (bytes.length ≠ headerBytes) .invalidHeader
  let (h, _) ← read bytes
  let expected ← h.encode
  failIf (bytes ≠ expected) .invalidHeader
  return h

end SegmentHeader

/-! ## Frames -/

/-- The frame header before the checksum. -/
def frameHeaderBody (length : UInt32) (position : Option AppliedPosition) : Bytes :=
  frameMagic ++ (le32 length ++ positionField 3 position)

/-- The frame header. -/
def frameHeader (length : UInt32) (position : Option AppliedPosition) : Bytes :=
  frameHeaderBody length position ++ le32 (crc32 (frameHeaderBody length position))

/-- The checksum of a frame.  The checksums inside the two headers are left out. -/
def frameCrc (segment header payload : Bytes) : UInt32 :=
  crc32Parts [segment.take (headerBytes - 4), header.take (frameHeaderBytes - 4), payload]

/-- The bytes of the frame of a record. -/
def frame (h : SegmentHeader) (r : Record) : Bytes :=
  let payload := encodeBatch r.batch
  let header := frameHeader (UInt32.ofNat payload.length) r.position
  header ++ (payload ++ le32 (frameCrc h.bytes header payload))

/-- The fields of a frame header. -/
structure FrameFields where
  magic : Bytes
  size : UInt32
  kind : UInt8
  reserved : Bytes
  term : UInt64
  index : UInt64
  crc : UInt32

/-- Read the fields of a frame header. -/
def readFrameFields : Parser WalError FrameFields := do
  let magic ← take .truncated 4
  let size ← take32 .truncated
  let kind ← takeByte .truncated
  let reserved ← take .truncated 3
  let term ← take64 .truncated
  let index ← take64 .truncated
  let crc ← take32 .truncated
  return ⟨magic, size, kind, reserved, term, index, crc⟩

/-- The payload size and the position in a complete frame header. -/
def parseFrameHeader (header : Bytes) : Except WalError (ℕ × Option AppliedPosition) := do
  let (f, _) ← readFrameFields header
  failIf (f.magic ≠ frameMagic ∨ f.reserved ≠ zeros 3
    ∨ crc32 (header.take (frameHeaderBytes - 4)) ≠ f.crc) .invalidFrameHeader
  failIf (maxRecordLen < f.size.toNat) .frameTooLarge
  if f.kind = 0 ∧ f.term = 0 ∧ f.index = 0 then
    return (f.size.toNat, none)
  else if f.kind = 1 then
    return (f.size.toNat, some ⟨f.term, f.index⟩)
  else
    throw .invalidPositionKind

/-! ## Summaries -/

/-- Checked addition on 64-bit counters. -/
def checkedAdd (x : UInt64) (n : ℕ) : Except WalError UInt64 :=
  if x.toNat + n < 2 ^ 64 then .ok (UInt64.ofNat (x.toNat + n)) else .error .countOverflow

/-- Summary of complete records. -/
structure SegmentSummary where
  bytes : UInt64
  records : UInt64
  first : Option AppliedPosition
  last : Option AppliedPosition
  hasUnpositioned : Bool
deriving DecidableEq

namespace SegmentSummary

/-- The summary of a segment without records. -/
def empty : SegmentSummary := ⟨UInt64.ofNat headerBytes, 0, none, none, false⟩

/-- Count one more record of `bytes` bytes. -/
def add (s : SegmentSummary) (bytes : ℕ) (position : Option AppliedPosition) :
    Except WalError SegmentSummary := do
  let total ← checkedAdd s.bytes bytes
  let records ← checkedAdd s.records 1
  match position with
  | some pos =>
    return { s with
      bytes := total, records := records, first := some (s.first.getD pos), last := some pos }
  | none => return { s with bytes := total, records := records, hasUnpositioned := true }

end SegmentSummary

/-- A position must advance its index without regressing its term. -/
def checkPosition (previous current : Option AppliedPosition) : Except WalError Unit :=
  match previous, current with
  | some before, some after =>
    if after.index ≤ before.index ∨ after.term < before.term then .error .positionMustAdvance
    else .ok ()
  | _, _ => .ok ()

/-- The summary after one more record, if the segment accepts it. -/
def extend (h : SegmentHeader) (summary : SegmentSummary) (r : Record) :
    Except WalError SegmentSummary := do
  checkPosition (summary.last.or h.previous) r.position
  let _ ← encodedSize r.batch
  summary.add (frameHeaderBytes + (encodeBatch r.batch).length + 4) r.position

/-! ## Scanning -/

section Scan

variable {σ : Type} (visit : σ → Record → Except WalError σ)

/-- The frames of `rest`.  A frame is not empty, so that one step per byte is enough. -/
def scanLoop (h : SegmentHeader) :
    ℕ → Bytes → SegmentSummary → σ → Except WalError (σ × SegmentSummary × Bytes)
  | 0, rest, summary, s => .ok (s, summary, rest)
  | fuel + 1, rest, summary, s =>
    if rest.length < frameHeaderBytes then
      .ok (s, summary, rest)
    else do
      let header := rest.take frameHeaderBytes
      let (size, position) ← parseFrameHeader header
      if rest.length < frameHeaderBytes + size + 4 then
        .ok (s, summary, rest)
      else do
        let payload := (rest.drop frameHeaderBytes).take size
        let crc := ((rest.drop frameHeaderBytes).drop size).take 4
        failIf (frameCrc h.bytes header payload ≠ UInt32.ofNat (fromLe crc)) .frameChecksum
        checkPosition (summary.last.or h.previous) position
        let batch ← decodeBatch payload
        let s ← visit s ⟨batch, position⟩
        let summary ← summary.add (frameHeaderBytes + size + 4) position
        scanLoop h fuel (rest.drop (frameHeaderBytes + size + 4)) summary s

/-- Scan a segment file.  Answers the summary of its complete frames and how many bytes are
left over. -/
def scan (file : Bytes) (expected : SegmentHeader) (active : Bool) (s : σ) :
    Except WalError (σ × SegmentSummary × ℕ) := do
  failIf (file.length < headerBytes) .truncated
  let header ← expected.encode
  failIf (file.take headerBytes ≠ header) .headerMismatch
  let rest := file.drop headerBytes
  let (s, summary, rest) ← scanLoop visit expected rest.length rest .empty s
  failIf (active = false ∧ rest ≠ []) .incompleteClosed
  return (s, summary, rest.length)

end Scan

/-! ## Headers -/

namespace SegmentHeader

variable {h : SegmentHeader}

@[simp]
theorem length_bytes (h : SegmentHeader) :
  h.bytes.length = headerBytes
  := by
  rfl

theorem encode_eq_ok {bs : Bytes} (he : h.encode = .ok bs) :
  bs = h.bytes
  := by
  rw [encode] at he
  split_ifs at he
  cases he
  rfl

theorem reads_readPrevious (position : Option AppliedPosition) :
  Reads readPrevious (positionField 7 position) position
  := by
  apply (reads_takeByte _ _).bind
  apply (reads_take _ (length_replicate ..)).bind
  apply (reads_take64 _ _).bind
  apply (reads_take64 _ _).bind
  cases position <;> apply reads_pure

theorem reads_read (h : SegmentHeader) :
  Reads read h.body h
  := by
  apply (reads_take _ (rfl : segmentMagic.length = 8)).bind
  apply (reads_take _ (length_ofFn ..)).bind
  apply (reads_take64 _ _).bind
  have hid : (fun i : Fin 16 => (List.ofFn h.streamId).getD i 0) = h.streamId := by
    funext i
    rw [List.getD_eq_getElem _ _ (by rw [List.length_ofFn]; apply i.isLt), List.getElem_ofFn]
  rw [hid]
  apply (reads_readPrevious h.previous).map

/-- A header that can be published is decoded from its bytes. -/
theorem decode_bytes (he : h.encode = .ok h.bytes) :
  decode h.bytes = .ok h
  := by
  have hread : read h.bytes = .ok (h, le32 (crc32 h.body)) := reads_read h _
  simp [decode, hread, he]

end SegmentHeader

/-! ## Frame headers -/

@[simp]
theorem length_frameHeaderBody (length : UInt32) (position : Option AppliedPosition) :
  (frameHeaderBody length position).length = 28
  := by
  rfl

@[simp]
theorem length_frameHeader (length : UInt32) (position : Option AppliedPosition) :
  (frameHeader length position).length = frameHeaderBytes
  := by
  rfl

theorem reads_readFrameFields (length : UInt32) (position : Option AppliedPosition) :
  Reads readFrameFields (frameHeader length position)
    ⟨frameMagic, length, if position.isSome then 1 else 0, zeros 3, (position.getD ⟨0, 0⟩).term,
      (position.getD ⟨0, 0⟩).index, crc32 (frameHeaderBody length position)⟩
  := by
  apply (reads_take _ (rfl : frameMagic.length = 4)).bind
  apply (reads_take32 _ _).bind
  apply (reads_takeByte _ _).bind
  apply (reads_take _ (length_replicate ..)).bind
  apply (reads_take64 _ _).bind
  apply (reads_take64 _ _).bind
  apply (reads_take32 _ _).map

theorem parseFrameHeader_frameHeader {length : UInt32} (hle : length.toNat ≤ maxRecordLen)
    (position : Option AppliedPosition) :
  parseFrameHeader (frameHeader length position) = .ok (length.toNat, position)
  := by
  have htake : (frameHeader length position).take (frameHeaderBytes - 4)
      = frameHeaderBody length position :=
    take_left' (length_frameHeaderBody ..)
  have hread := (reads_readFrameFields length position).run
  cases position <;> simp [parseFrameHeader, hread, htake, not_lt.mpr hle]

/-! ## Frames are scanned back -/

/-- The frames of a list of records. -/
def frames (h : SegmentHeader) (rs : List Record) : Bytes := rs.flatMap (frame h)

/-- The part of a frame that a crash may leave. -/
def Torn (h : SegmentHeader) (tail : Bytes) : Prop :=
  ∃ r : Record, Fits r.batch ∧ tail <+: frame h r ∧ tail ≠ frame h r

section

variable {h : SegmentHeader} {r : Record} {summary summary' : SegmentSummary}

theorem length_frame (h : SegmentHeader) (r : Record) :
  (frame h r).length = frameHeaderBytes + (encodeBatch r.batch).length + 4
  := by
  simp only [frame, length_append, length_frameHeader, length_le32]
  omega

theorem extend_eq_ok :
  extend h summary r = .ok summary' ↔
    checkPosition (summary.last.or h.previous) r.position = .ok ()
      ∧ (∃ n, encodedSize r.batch = .ok n)
      ∧ summary.add (frame h r).length r.position = .ok summary'
  := by
  simp only [extend, bind_eq_ok, length_frame]
  constructor
  · rintro ⟨⟨⟩, hpos, n, hsize, hadd⟩
    use hpos, ⟨n, hsize⟩, hadd
  · rintro ⟨hpos, ⟨n, hsize⟩, hadd⟩
    use (), hpos, n, hsize, hadd

theorem fits_of_extend (hext : extend h summary r = .ok summary') :
  Fits r.batch
  := by
  obtain ⟨-, ⟨n, hsize⟩, -⟩ := extend_eq_ok.mp hext
  apply (fits_of_encodedSize hsize).1

theorem torn_nil (h : SegmentHeader) :
  Torn h []
  := by
  refine ⟨⟨[], none⟩, (fits_of_encodedSize (rfl : encodedSize [] = .ok 40)).1, ?_, ?_⟩
  · apply nil_prefix
  · intro hnil
    have := length_frame h ⟨[], none⟩
    rw [← hnil, length_nil] at this
    omega

/-- The length field of the frame of a record that fits. -/
theorem toNat_length (hfits : Fits r.batch) :
  (UInt32.ofNat (encodeBatch r.batch).length).toNat = (encodeBatch r.batch).length
  := by
  have hmax : maxRecordLen < 2 ^ 32 := by decide
  apply UInt32.toNat_ofNat_of_lt
  apply lt_of_le_of_lt hfits.length hmax

/-- The frame header is found at the start of a frame, even of one that was cut behind its
header. -/
theorem parseFrameHeader_take (hfits : Fits r.batch) {bs : Bytes}
    (hbs : frameHeader (UInt32.ofNat (encodeBatch r.batch).length) r.position <+: bs) :
  parseFrameHeader (bs.take frameHeaderBytes)
    = .ok ((encodeBatch r.batch).length, r.position)
  := by
  obtain ⟨rest, rfl⟩ := hbs
  rw [take_left' (length_frameHeader ..), parseFrameHeader_frameHeader, toNat_length hfits]
  rw [toNat_length hfits]
  apply hfits.length

variable {σ : Type} (visit : σ → Record → Except WalError σ)

theorem scanLoop_frame (hext : extend h summary r = .ok summary') (fuel : ℕ) (rest : Bytes)
    (s : σ) :
  scanLoop visit h (fuel + 1) (frame h r ++ rest) summary s
    = visit s r >>= fun s' => scanLoop visit h fuel rest summary' s'
  := by
  have hfits := fits_of_extend hext
  obtain ⟨hpos, -, hadd⟩ := extend_eq_ok.mp hext
  have hlen := length_frame h r
  have hparse := @parseFrameHeader_take r hfits (frame h r ++ rest)
    (((prefix_append _ _).trans (prefix_append _ _)))
  generalize hpayload : encodeBatch r.batch = payload at *
  generalize hheader : frameHeader (UInt32.ofNat payload.length) r.position = header at *
  have hframe : frame h r = header ++ (payload ++ le32 (frameCrc h.bytes header payload)) := by
    rw [frame, hpayload, hheader]
  have hheaderLen : header.length = frameHeaderBytes := by
    rw [← hheader, length_frameHeader]
  have htake : (frame h r ++ rest).take frameHeaderBytes = header := by
    rw [hframe, append_assoc, take_left' hheaderLen]
  have hdrop : (frame h r ++ rest).drop frameHeaderBytes
      = payload ++ (le32 (frameCrc h.bytes header payload) ++ rest) := by
    rw [hframe, append_assoc, drop_left' hheaderLen, append_assoc]
  have hrest : (frame h r ++ rest).drop (frameHeaderBytes + payload.length + 4) = rest := by
    apply drop_left' hlen
  have hlong : ¬ (frame h r ++ rest).length < frameHeaderBytes + payload.length + 4 := by
    rw [length_append]
    omega
  have hshort : ¬ (frame h r ++ rest).length < frameHeaderBytes := by omega
  have hcrc : (le32 (frameCrc h.bytes header payload) ++ rest).take 4
      = le32 (frameCrc h.bytes header payload) := take_left' (length_le32 _)
  have hdecode : decodeBatch payload = .ok r.batch := by
    rw [← hpayload, decodeBatch_encodeBatch hfits.lengthsFit]
  rw [hlen] at hadd
  rw [htake] at hparse
  rw [scanLoop, if_neg hshort]
  simp only [htake, hparse, ok_bind, if_neg hlong, hdrop, take_left, drop_left, hcrc,
    fromLe_le32, ne_eq, not_true_eq_false, not_false_eq_true, failIf_neg, hpos, hdecode, hadd,
    hrest]

variable {tail : Bytes} {rs : List Record}

theorem scanLoop_torn (htorn : Torn h tail) (fuel : ℕ) (s : σ) :
  scanLoop visit h fuel tail summary s = .ok (s, summary, tail)
  := by
  obtain ⟨r, hfits, hfront, hne⟩ := htorn
  have hlt : tail.length < (frame h r).length := by
    apply lt_of_le_of_ne hfront.length_le
    intro heq
    apply hne (hfront.eq_of_length heq)
  cases fuel with
  | zero => rfl
  | succ fuel =>
    rw [scanLoop]
    split_ifs with hshort
    · rfl
    · have hheader : frameHeader (UInt32.ofNat (encodeBatch r.batch).length) r.position <+: tail := by
        apply prefix_of_prefix_length_le (prefix_append _ _) hfront
        rw [length_frameHeader]
        omega
      rw [length_frame] at hlt
      simp [parseFrameHeader_take hfits hheader, if_pos hlt]

/-- Scanning complete frames visits their records in order. -/
theorem scanLoop_frames (hsum : rs.foldlM (extend h) summary = .ok summary')
    {fuel : ℕ} (hfuel : rs.length ≤ fuel) (tail : Bytes) (s : σ) :
  scanLoop visit h fuel (frames h rs ++ tail) summary s
    = rs.foldlM visit s >>= fun s' => scanLoop visit h (fuel - rs.length) tail summary' s'
  := by
  induction rs generalizing summary fuel s with
  | nil =>
    rw [foldlM_nil, pure_eq_ok, Except.ok.injEq] at hsum
    subst hsum
    rfl
  | cons r rs ih =>
    rw [foldlM_cons, bind_eq_ok] at hsum
    obtain ⟨next, hext, hsum⟩ := hsum
    rw [length_cons] at hfuel
    obtain ⟨fuel, rfl⟩ : ∃ n, fuel = n + 1 := ⟨fuel - 1, by omega⟩
    rw [frames, flatMap_cons, append_assoc, scanLoop_frame visit hext,
      foldlM_cons, length_cons, Nat.add_sub_add_right, bind_assoc]
    congr
    funext s'
    apply ih hsum (by omega)

theorem length_le_frames (h : SegmentHeader) (rs : List Record) :
  rs.length ≤ (frames h rs).length
  := by
  induction rs with
  | nil => apply Nat.zero_le
  | cons r rs ih =>
    have := length_frame h r
    rw [frames, flatMap_cons, length_append, length_cons]
    rw [frames] at ih
    omega

/-- The bytes of a segment with the given records. -/
def segmentImage (h : SegmentHeader) (rs : List Record) : Bytes := h.bytes ++ frames h rs

/-- `summary` sums up a segment with the given records. -/
def Summarizes (h : SegmentHeader) (rs : List Record) (summary : SegmentSummary) : Prop :=
  rs.foldlM (extend h) .empty = .ok summary

/-- Scanning a segment visits its records in order and stops at a torn frame. -/
theorem scan_segmentImage (henc : h.encode = .ok h.bytes) (hsum : Summarizes h rs summary)
    (htorn : Torn h tail) {active : Bool} (hactive : active = false → tail = []) (s : σ) :
  scan visit (segmentImage h rs ++ tail) h active s
    = rs.foldlM visit s >>= fun s' => .ok (s', summary, tail.length)
  := by
  have hlen : ¬ (segmentImage h rs ++ tail).length < headerBytes := by
    rw [segmentImage, length_append, length_append, h.length_bytes]
    omega
  have htake : (segmentImage h rs ++ tail).take headerBytes = h.bytes := by
    rw [segmentImage, append_assoc, take_left' h.length_bytes]
  have hdrop : (segmentImage h rs ++ tail).drop headerBytes = frames h rs ++ tail := by
    rw [segmentImage, append_assoc, drop_left' h.length_bytes]
  have hfuel : rs.length ≤ (frames h rs ++ tail).length := by
    have := length_le_frames h rs
    rw [length_append]
    omega
  have hclosed : ¬ (active = false ∧ tail ≠ []) := by
    rintro ⟨hfalse, hne⟩
    apply hne (hactive hfalse)
  simp only [scan, failIf_neg hlen, ok_bind, henc, htake, ne_eq, not_true_eq_false,
    not_false_eq_true, failIf_neg, hdrop, scanLoop_frames visit hsum hfuel, bind_assoc,
    scanLoop_torn visit htorn, hclosed, pure_eq_ok]

end

/-! ## Summaries of segments -/

section

variable {h : SegmentHeader} {r : Record} {rs : List Record} {summary summary' : SegmentSummary}

theorem checkPosition_eq_ok {before after : AppliedPosition} :
  checkPosition (some before) (some after) = .ok () ↔
    before.index < after.index ∧ before.term ≤ after.term
  := by
  simp only [checkPosition]
  split_ifs with hback
  · simp only [false_iff, not_and_or, UInt64.not_lt, UInt64.not_le]
    apply hback
  · rw [not_or, UInt64.not_le, UInt64.not_lt] at hback
    simp [hback]

theorem checkedAdd_eq_ok {x y : UInt64} {n : ℕ} (hadd : checkedAdd x n = .ok y) :
  y.toNat = x.toNat + n
  := by
  rw [checkedAdd] at hadd
  split_ifs at hadd with hlt
  cases hadd
  apply UInt64.toNat_ofNat_of_lt hlt

theorem SegmentSummary.add_eq_ok {n : ℕ} {position : Option AppliedPosition}
    (hadd : summary.add n position = .ok summary') :
  summary'.bytes.toNat = summary.bytes.toNat + n
    ∧ summary'.last = position.or summary.last
    ∧ summary'.hasUnpositioned = (summary.hasUnpositioned || position.isNone)
  := by
  rw [add, bind_eq_ok] at hadd
  obtain ⟨total, htotal, hadd⟩ := hadd
  rw [bind_eq_ok] at hadd
  obtain ⟨records, -, hadd⟩ := hadd
  have hbytes := checkedAdd_eq_ok htotal
  cases position
  all_goals
    cases hadd
    use hbytes, rfl, by simp

theorem summarizes_nil :
  Summarizes h [] summary ↔ summary = .empty
  := by
  rw [Summarizes, foldlM_nil, pure_eq_ok, Except.ok.injEq, eq_comm]

theorem summarizes_concat :
  Summarizes h (rs ++ [r]) summary' ↔
    ∃ summary, Summarizes h rs summary ∧ extend h summary r = .ok summary'
  := by
  rw [Summarizes, foldlM_append, bind_eq_ok]
  simp only [foldlM_cons, foldlM_nil, bind_pure]
  rfl

section

variable (hsum : Summarizes h rs summary)
include hsum

theorem Summarizes.unique (hsum' : Summarizes h rs summary') :
  summary = summary'
  := by
  rw [Summarizes, hsum, Except.ok.injEq] at hsum'
  apply hsum'

/-- A summary counts the bytes of its segment. -/
theorem Summarizes.length :
  (segmentImage h rs).length = summary.bytes.toNat
  := by
  induction rs using List.reverseRecOn generalizing summary with
  | nil =>
    rw [summarizes_nil] at hsum
    subst hsum
    rfl
  | append_singleton rs r ih =>
    obtain ⟨prior, hprior, hext⟩ := summarizes_concat.mp hsum
    obtain ⟨-, -, hadd⟩ := extend_eq_ok.mp hext
    have hbytes := (SegmentSummary.add_eq_ok hadd).1
    have hlen := ih hprior
    rw [segmentImage, frames, length_append] at hlen
    rw [segmentImage, frames, flatMap_append, flatMap_singleton, length_append, length_append]
    omega

/-- A summary without unpositioned records is of positioned ones. -/
theorem Summarizes.positioned (hall : summary.hasUnpositioned = false) :
  ∀ r ∈ rs, r.position.isSome
  := by
  induction rs using List.reverseRecOn generalizing summary with
  | nil => nofun
  | append_singleton rs r ih =>
    obtain ⟨prior, hprior, hext⟩ := summarizes_concat.mp hsum
    obtain ⟨-, -, hadd⟩ := extend_eq_ok.mp hext
    rw [(SegmentSummary.add_eq_ok hadd).2.2, Bool.or_eq_false_iff] at hall
    intro r' hr'
    rcases mem_append.mp hr' with hr' | hr'
    · apply ih hprior hall.1 r' hr'
    · rw [mem_singleton.mp hr']
      apply Option.isNone_eq_false_iff.mp hall.2

/-- No record of a segment lies behind its last position. -/
theorem Summarizes.le_last {pos : AppliedPosition} (hr : r ∈ rs) (hpos : r.position = some pos) :
  ∃ last, summary.last = some last ∧ pos.index ≤ last.index
  := by
  induction rs using List.reverseRecOn generalizing summary with
  | nil => nomatch hr
  | append_singleton rs r' ih =>
    obtain ⟨prior, hprior, hext⟩ := summarizes_concat.mp hsum
    obtain ⟨hcheck, -, hadd⟩ := extend_eq_ok.mp hext
    have hlast := (SegmentSummary.add_eq_ok hadd).2.1
    rcases mem_append.mp hr with hr | hr
    · obtain ⟨last, hprior, hle⟩ := ih hprior hr
      cases hpos' : r'.position with
      | none =>
        rw [hpos'] at hlast
        use last, hlast.trans hprior, hle
      | some pos' =>
        rw [hpos'] at hlast
        use pos', hlast
        rw [hprior, hpos', Option.some_or, checkPosition_eq_ok] at hcheck
        apply UInt64.le_trans hle (UInt64.le_of_lt hcheck.1)
    · rw [mem_singleton.mp hr] at hpos
      rw [hpos] at hlast
      use pos, hlast, UInt64.le_refl _

end

end

end Kv9.Engine.Wal
