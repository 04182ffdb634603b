import Kv9.Engine.Checkpoint

/-!
# The topology of a segmented log

The topology file selects the segments of a log: the closed ones with their summaries, the
active one, and the checkpoint that covers everything before them.  It is written as a
whole with a digest at its end.  Only a topology that passes `validate` can be written or
read, and a written topology is read back.
-/

namespace Kv9.Engine.Wal

open Codec Except List

/-- A sealed segment: its header and the summary of its records. -/
structure ClosedSegment where
  header : SegmentHeader
  summary : SegmentSummary
deriving DecidableEq

namespace ClosedSegment

/-- The last position of a summary does not lie before its first one. -/
def checkRange (summary : SegmentSummary) : Except WalError Unit :=
  match summary.first, summary.last with
  | some first, some last =>
    failIf (last.index < first.index ∨ last.term < first.term) .closedSummary
  | _, _ => .ok ()

/-- A closed segment as the topology describes it. -/
def fromPublished (header : SegmentHeader) (summary : SegmentSummary) :
    Except WalError ClosedSegment := do
  let _ ← header.encode
  let minimum := summary.records.toNat * (frameHeaderBytes + 8) + headerBytes
  failIf (2 ^ 64 ≤ minimum) .closedSummary
  failIf (summary.bytes.toNat < minimum
    ∨ summary.first.isSome ≠ summary.last.isSome
    ∨ (summary.records = 0 ∧ summary ≠ .empty)
    ∨ (0 < summary.records ∧ summary.first = none ∧ summary.hasUnpositioned = false))
    .closedSummary
  checkPosition header.previous summary.first
  checkRange summary
  return ⟨header, summary⟩

/-- Visit the records of a closed segment. -/
def replay {σ : Type} (visit : σ → Record → Except WalError σ) (c : ClosedSegment)
    (file : Option Bytes) (s : σ) : Except WalError σ :=
  match file with
  | none => .error .missingFile
  | some file => do
    failIf (file.length ≠ c.summary.bytes.toNat) .closedLength
    let (s, summary, _) ← scan visit file c.header false s
    failIf (summary ≠ c.summary) .closedContents
    return s

end ClosedSegment

/-- The position `pos` lies within the state of a checkpoint at `cut`. -/
def covers (cut : AppliedPosition) : Option AppliedPosition → Bool
  | none => true
  | some pos => (pos.index < cut.index && pos.term ≤ cut.term) || pos == cut

/-- A checkpoint must not contradict a known position. -/
def checkCut (cut : AppliedPosition) : Option AppliedPosition → Except WalError Unit
  | none => .ok ()
  | some pos =>
    failIf ((pos.index ≤ cut.index ∧ covers cut (some pos) = false)
      ∨ (cut.index < pos.index ∧ pos.term < cut.term)) .checkpointContradicts

/-- The durable selection of the segments of a log. -/
structure Topology where
  generation : UInt64
  active : SegmentHeader
  closed : List ClosedSegment
  checkpoint : Option CheckpointManifest
deriving DecidableEq

/-- `KV9W`, version 3 and `SEG1`. -/
def topologyMagic : Bytes := [0x4B, 0x56, 0x39, 0x57, 0x03, 0x53, 0x45, 0x47, 0x31]

/-- The largest topology. -/
def maxTopologyBytes : ℕ := 4 * 1024 * 1024

/-- The most closed segments. -/
def maxClosedSegments : ℕ := 4096

namespace Topology

variable (x : Externals)

/-- The first segment that is kept. -/
def first (t : Topology) : SegmentHeader := (t.closed.head?.map ClosedSegment.header).getD t.active

/-- The selected checkpoint covers a position. -/
def coversPosition (t : Topology) (position : Option AppliedPosition) : Bool :=
  t.checkpoint.any fun m => covers m.position position

/-- Follow the closed segments from the header expected next; answers the header that has to
follow them. -/
def checkChain (checkpointed : Bool) :
    SegmentHeader → List ClosedSegment → Except WalError SegmentHeader
  | expected, [] => .ok expected
  | expected, c :: closed => do
    failIf (c.header ≠ expected) .chainDiscontinuous
    let _ ← ClosedSegment.fromPublished c.header c.summary
    failIf (checkpointed = true ∧ c.summary.hasUnpositioned = true) .unpositionedHistory
    let sequence ← checkedAdd expected.sequence 1
    checkChain checkpointed
      { expected with sequence := sequence, previous := c.summary.last.or c.header.previous }
      closed

/-- The selected checkpoint can be written and read. -/
def checkManifest : Option CheckpointManifest → Except WalError Unit
  | none => .ok ()
  | some m => do
    let bytes ← m.encode x
    let _ ← CheckpointManifest.decode x bytes
    return ()

/-- The checks of every topology that is written or read. -/
def validate (t : Topology) : Except WalError Unit := do
  let _ ← t.active.encode
  failIf (t.generation = 0 ∨ maxClosedSegments < t.closed.length) .topologyGeneration
  checkManifest x t.checkpoint
  failIf (t.first.sequence = 1 ∧ t.first.previous.isSome = true
    ∧ t.coversPosition t.first.previous = false) .firstHasPredecessor
  failIf (t.first.sequence ≠ 1 ∧ t.coversPosition t.first.previous = false) .missingSegments
  let expected ← checkChain t.checkpoint.isSome t.first t.closed
  failIf (expected ≠ t.active) .notExtending

/-- The bytes of a closed segment; `validate` has seen that its header can be encoded. -/
def encodeClosed (c : ClosedSegment) : Bytes :=
  c.header.bytes ++ (le64 c.summary.bytes ++ (le64 c.summary.records
    ++ (positionField 0 c.summary.first ++ (positionField 0 c.summary.last
      ++ [if c.summary.hasUnpositioned then 1 else 0]))))

/-- The bytes of the selected checkpoint; none without one. -/
def encodeCheckpoint : Option CheckpointManifest → Except WalError Bytes
  | none => .ok []
  | some m => m.encode x

/-- The fields of a topology. -/
def fields (t : Topology) (checkpoint : Bytes) : Bytes :=
  le64 t.generation ++ (t.active.bytes ++ (le 4 checkpoint.length ++ (checkpoint
    ++ (le 4 t.closed.length ++ t.closed.flatMap encodeClosed))))

/-- Serialize a topology. -/
def encode (t : Topology) : Except WalError Bytes := do
  t.validate x
  let checkpoint ← encodeCheckpoint x t.checkpoint
  let body := topologyMagic ++ t.fields checkpoint
  let bytes := body ++ x.sha256 body
  failIf (maxTopologyBytes < bytes.length) .topologyTooLarge
  return bytes

/-- Read a header. -/
def readHeader : Parser WalError SegmentHeader := do
  let bytes ← take .topologyTruncated headerBytes
  SegmentHeader.decode bytes

/-- Read a position. -/
def readPosition : Parser WalError (Option AppliedPosition) := do
  let kind ← takeByte .topologyTruncated
  let term ← take64 .topologyTruncated
  let index ← take64 .topologyTruncated
  if kind = 0 ∧ term = 0 ∧ index = 0 then return none
  else if kind = 1 then return some ⟨term, index⟩
  else throw .topologyPosition

/-- The meaning of the flag byte. -/
def flagFromByte : UInt8 → Except WalError Bool
  | 0 => .ok false
  | 1 => .ok true
  | _ => .error .topologyFlag

/-- Read a closed segment. -/
def readClosed : Parser WalError ClosedSegment := do
  let header ← readHeader
  let bytes ← take64 .topologyTruncated
  let records ← take64 .topologyTruncated
  let first ← readPosition
  let last ← readPosition
  let flag ← takeByte .topologyTruncated
  let hasUnpositioned ← flagFromByte flag
  ClosedSegment.fromPublished header ⟨bytes, records, first, last, hasUnpositioned⟩

/-- Read the selected checkpoint. -/
def readCheckpoint : Parser WalError (Option CheckpointManifest) := do
  let count ← take32 .topologyTruncated
  if count = 0 then return none
  else do
    let bytes ← take .topologyTruncated count.toNat
    let m ← CheckpointManifest.decode x bytes
    return some m

/-- Read the fields of a topology. -/
def read : Parser WalError Topology := do
  let generation ← take64 .topologyTruncated
  let active ← readHeader
  let checkpoint ← readCheckpoint x
  let count ← take32 .topologyTruncated
  guardOr (count.toNat ≤ maxClosedSegments) .topologyGeneration
  let closed ← times readClosed count.toNat
  return ⟨generation, active, closed, checkpoint⟩

/-- Read a topology. -/
def decode (bytes : Bytes) : Except WalError Topology := do
  failIf (bytes.length < topologyMagic.length + 8 + headerBytes + 4 + 4 + 32
    ∨ maxTopologyBytes < bytes.length ∨ topologyMagic.isPrefixOf bytes = false) .topologyFormat
  let body := bytes.take (bytes.length - 32)
  failIf (x.sha256 body ≠ bytes.drop (bytes.length - 32)) .topologyChecksum
  let (t, rest) ← read x (body.drop topologyMagic.length)
  failIf (rest ≠ []) .topologyTrailing
  t.validate x
  return t

end Topology

/-! ## Closed segments -/

variable {c : ClosedSegment}

namespace ClosedSegment

theorem fromPublished_eq_ok {header : SegmentHeader} {summary : SegmentSummary}
    (hpub : fromPublished header summary = .ok c) :
  c = ⟨header, summary⟩ ∧ header.encode = .ok header.bytes
  := by
  simp only [fromPublished, bind_eq_ok] at hpub
  obtain ⟨bytes, henc, -, -, -, -, -, -, -, -, hpub⟩ := hpub
  cases hpub
  cases SegmentHeader.encode_eq_ok henc
  use rfl, henc

/-- A closed segment whose file holds its records replays them. -/
theorem replay_segmentImage {σ : Type} (visit : σ → Record → Except WalError σ) {rs : List Record}
    (henc : c.header.encode = .ok c.header.bytes) (hsum : Summarizes c.header rs c.summary)
    (s : σ) :
  c.replay visit (some (segmentImage c.header rs)) s = rs.foldlM visit s
  := by
  have hscan := scan_segmentImage visit henc hsum (torn_nil c.header)
    (fun _ => rfl : false = false → ([] : Bytes) = []) s
  rw [append_nil] at hscan
  simp only [replay, hsum.length, ne_eq, not_true_eq_false, not_false_eq_true, failIf_neg,
    ok_bind, hscan, bind_assoc]
  apply bind_pure

end ClosedSegment

namespace Topology

variable {x : Externals} {t : Topology} {bytes : Bytes}

/-! ## Valid topologies -/

/-- What following the closed segments establishes. -/
theorem checkChain_eq_ok {checkpointed : Bool} {expected last : SegmentHeader}
    {closed : List ClosedSegment} (hchain : checkChain checkpointed expected closed = .ok last) :
  last.streamId = expected.streamId
    ∧ expected.sequence.toNat ≤ last.sequence.toNat
    ∧ ∀ c ∈ closed, ClosedSegment.fromPublished c.header c.summary = .ok c
        ∧ (checkpointed = true → c.summary.hasUnpositioned = false)
        ∧ c.header.streamId = expected.streamId
        ∧ expected.sequence.toNat ≤ c.header.sequence.toNat
        ∧ c.header.sequence.toNat < last.sequence.toNat
  := by
  induction closed generalizing expected with
  | nil =>
    cases hchain
    use rfl, le_rfl, nofun
  | cons c closed ih =>
    simp only [checkChain, bind_eq_ok, failIf_eq_ok, not_not] at hchain
    obtain ⟨-, rfl, c', hpub, -, hpositioned, sequence, hsequence, hchain⟩ := hchain
    obtain ⟨rfl, -⟩ := ClosedSegment.fromPublished_eq_ok hpub
    have hnext := checkedAdd_eq_ok hsequence
    obtain ⟨hstream, hle, hclosed⟩ := ih hchain
    change sequence.toNat ≤ last.sequence.toNat at hle
    use hstream, by omega
    intro c' hc'
    rcases mem_cons.mp hc' with rfl | hc'
    · refine ⟨hpub, ?_, rfl, le_rfl, by omega⟩
      intro hcheckpointed
      apply Bool.eq_false_of_not_eq_true
      apply not_and.mp hpositioned hcheckpointed
    · obtain ⟨hpub', hpos', hstream', hle', hlt'⟩ := hclosed c' hc'
      change sequence.toNat ≤ c'.header.sequence.toNat at hle'
      exact ⟨hpub', hpos', hstream', by omega, hlt'⟩

/-- A topology that passed the checks. -/
structure Valid (x : Externals) (t : Topology) : Prop where
  active : t.active.encode = .ok t.active.bytes
  length : t.closed.length ≤ maxClosedSegments
  manifest : checkManifest x t.checkpoint = .ok ()
  published : ∀ c ∈ t.closed, ClosedSegment.fromPublished c.header c.summary = .ok c
  positioned : t.checkpoint.isSome → ∀ c ∈ t.closed, c.summary.hasUnpositioned = false
  stream : ∀ c ∈ t.closed, c.header.streamId = t.active.streamId
  first_le : ∀ c ∈ t.closed, t.first.sequence.toNat ≤ c.header.sequence.toNat
  lt_active : ∀ c ∈ t.closed, c.header.sequence.toNat < t.active.sequence.toNat
  first_le_active : t.first.sequence.toNat ≤ t.active.sequence.toNat

theorem valid_of_validate (hvalid : t.validate x = .ok ()) :
  Valid x t
  := by
  simp only [validate, bind_eq_ok, failIf_eq_ok, not_not] at hvalid
  obtain ⟨bs, hactive, -, hsize, ⟨⟩, hmanifest, -, -, -, -, last, hchain, rfl⟩ := hvalid
  cases SegmentHeader.encode_eq_ok hactive
  obtain ⟨hstream, hle, hclosed⟩ := checkChain_eq_ok hchain
  rw [not_or, not_lt] at hsize
  exact {
    active := hactive
    length := hsize.2
    manifest := hmanifest
    published := fun c hc => (hclosed c hc).1
    positioned := fun hsome c hc => (hclosed c hc).2.1 hsome
    stream := fun c hc => (hclosed c hc).2.2.1.trans hstream.symm
    first_le := fun c hc => (hclosed c hc).2.2.2.1
    lt_active := fun c hc => (hclosed c hc).2.2.2.2
    first_le_active := hle }

theorem Valid.header_encode (hvalid : Valid x t) (hc : c ∈ t.closed) :
  c.header.encode = .ok c.header.bytes
  := (ClosedSegment.fromPublished_eq_ok (hvalid.published c hc)).2

/-! ## A written topology is read back -/

theorem reads_readHeader {h : SegmentHeader} (henc : h.encode = .ok h.bytes) :
  Reads readHeader h.bytes h
  := by
  apply (reads_take _ h.length_bytes).bind
  apply reads_lift
  apply SegmentHeader.decode_bytes henc

theorem reads_readPosition (position : Option AppliedPosition) :
  Reads readPosition (positionField 0 position) position
  := by
  apply (reads_takeByte _ _).bind
  apply (reads_take64 _ _).bind
  apply (reads_take64 _ _).bind
  cases position <;> apply reads_pure

theorem reads_readClosed (hpub : ClosedSegment.fromPublished c.header c.summary = .ok c) :
  Reads readClosed (encodeClosed c) c
  := by
  have hflag : flagFromByte (if c.summary.hasUnpositioned then 1 else 0)
      = .ok c.summary.hasUnpositioned := by
    cases c.summary.hasUnpositioned <;> rfl
  apply (reads_readHeader (ClosedSegment.fromPublished_eq_ok hpub).2).bind
  apply (reads_take64 _ _).bind
  apply (reads_take64 _ _).bind
  apply (reads_readPosition _).bind
  apply (reads_readPosition _).bind
  apply (reads_takeByte _ _).bind
  apply (reads_lift hflag).bind
  apply reads_lift hpub

theorem reads_readCheckpoint {checkpoint : Option CheckpointManifest}
    (hmanifest : checkManifest x checkpoint = .ok ())
    (henc : encodeCheckpoint x checkpoint = .ok bytes) (hlen : bytes.length < 2 ^ 32) :
  Reads (readCheckpoint x) (le 4 bytes.length ++ bytes) checkpoint
  := by
  have hcount : (UInt32.ofNat bytes.length).toNat = bytes.length := UInt32.toNat_ofNat_of_lt hlen
  have hle : le 4 bytes.length = le32 (UInt32.ofNat bytes.length) := by
    rw [le32, hcount]
  rw [hle]
  apply (reads_take32 _ _).bind
  cases checkpoint with
  | none =>
    cases henc
    apply reads_pure
  | some m =>
    change m.encode x = .ok bytes at henc
    simp only [checkManifest, henc, ok_bind, bind_eq_ok] at hmanifest
    obtain ⟨m', hdec, -⟩ := hmanifest
    cases CheckpointManifest.decode_encode henc hdec
    have hne : UInt32.ofNat bytes.length ≠ 0 := by
      intro hzero
      rw [hzero] at hcount
      apply CheckpointManifest.encode_ne_nil henc
      apply eq_nil_of_length_eq_zero hcount.symm
    rw [if_neg hne, hcount, ← append_nil bytes]
    apply (reads_take _ (by rw [append_nil])).bind
    apply (reads_lift hdec).map

theorem reads_read (hvalid : Valid x t) (henc : encodeCheckpoint x t.checkpoint = .ok bytes)
    (hlen : bytes.length < 2 ^ 32) :
  Reads (read x) (t.fields bytes) t
  := by
  have hmax : maxClosedSegments < 2 ^ 32 := by decide
  have hcount : (UInt32.ofNat t.closed.length).toNat = t.closed.length := by
    apply UInt32.toNat_ofNat_of_lt
    apply lt_of_le_of_lt hvalid.length hmax
  have hle : le 4 t.closed.length = le32 (UInt32.ofNat t.closed.length) := by
    rw [le32, hcount]
  rw [fields, hle]
  apply (reads_take64 _ _).bind
  apply (reads_readHeader hvalid.active).bind
  apply (reads_readCheckpoint hvalid.manifest henc hlen).bind
  apply (reads_take32 _ _).bind
  rw [hcount]
  apply (reads_guardOr _ hvalid.length).bind
  apply Reads.map
  apply reads_times
  intro c hc
  apply reads_readClosed (hvalid.published c hc)

/-- A topology that can be written is valid and is read back from its bytes. -/
theorem decode_encode (henc : t.encode x = .ok bytes) :
  Valid x t ∧ decode x bytes = .ok t
  := by
  simp only [encode, bind_eq_ok, failIf_eq_ok, not_lt] at henc
  obtain ⟨⟨⟩, hvalidate, checkpoint, hcheckpoint, -, hsize, henc⟩ := henc
  rw [pure_eq_ok, Except.ok.injEq] at henc
  have hvalid := valid_of_validate hvalidate
  generalize hbody : topologyMagic ++ t.fields checkpoint = body at *
  have hdigest := x.length_sha256 body
  have hlength : bytes.length - 32 = body.length := by
    rw [← henc, length_append]
    omega
  have htake : bytes.take (bytes.length - 32) = body := by
    rw [hlength, ← henc, take_left]
  have hdrop : bytes.drop (bytes.length - 32) = x.sha256 body := by
    rw [hlength, ← henc, drop_left]
  have hfields : body.drop topologyMagic.length = t.fields checkpoint := by
    rw [← hbody, drop_left]
  have hbodyLength : body.length = 9 + (8 + (60 + (4 + (checkpoint.length + (4
      + (t.closed.flatMap encodeClosed).length))))) := by
    rw [← hbody]
    simp only [fields, length_append, length_le64, SegmentHeader.length_bytes, length_le]
    rfl
  have hmax : maxTopologyBytes < 2 ^ 32 := by decide
  rw [henc] at hsize
  have hread := (reads_read hvalid hcheckpoint (by rw [← henc, length_append] at hsize; omega)).run
  have hformat : ¬ (bytes.length < topologyMagic.length + 8 + headerBytes + 4 + 4 + 32
      ∨ maxTopologyBytes < bytes.length ∨ topologyMagic.isPrefixOf bytes = false) := by
    rw [not_or, not_or]
    refine ⟨?_, not_lt.mpr hsize, ?_⟩
    · rw [← henc, length_append]
      change ¬ _ < 9 + 8 + 60 + 4 + 4 + 32
      omega
    · rw [Bool.not_eq_false, isPrefixOf_iff_prefix, ← henc, ← hbody]
      apply prefix_append
  use hvalid
  simp [decode, failIf_neg hformat, htake, hdrop, hfields, hread, hvalidate]

end Topology

end Kv9.Engine.Wal
