import Kv9.Lib.Framing
import Kv9.Engine.Wal.Segment

/-!
# The legacy log

The legacy log is one file of records one after another.  A record is a magic number, a
version, for the second version a kind with the position it may carry, the length of the
payload, the payload and a checksum of all but the magic number.  Opening reads the records
from the front; where the file ends within a record, or a record does not verify, the rest is
dropped, while positions that do not advance refuse the file.

A crash cuts the file at any length.  What is recovered then is the longest prefix of whole
records, and what is appended after it is recovered after it.
-/

namespace Kv9.Engine.LegacyWal

open Codec Framing Except Wal List

/-! ## Records -/

/-- `KV9W`. -/
def magic : Bytes := [0x4B, 0x56, 0x39, 0x57]

/-- The number of checksum bytes. -/
def crcLen : ℕ := 4

/-- The forms of a record: of the first version, or of the second without or with a position. -/
inductive Form where
  | v1
  | unpositioned
  | positioned (pos : AppliedPosition)
deriving DecidableEq

/-- The position a record carries. -/
def Form.position : Form → Option AppliedPosition
  | v1 => none
  | unpositioned => none
  | positioned pos => some pos

/-- The version byte. -/
def Form.version : Form → UInt8
  | v1 => 1
  | unpositioned => 2
  | positioned _ => 2

/-- The kind and the position. -/
def Form.kind : Form → Bytes
  | v1 => []
  | unpositioned => [0]
  | positioned pos => [1] ++ (le64 pos.term ++ le64 pos.index)

/-- What the checksum covers: the version, the kind, the length and the payload. -/
def check (form : Form) (payload : Bytes) : Bytes :=
  [form.version] ++ (form.kind ++ (le 4 payload.length ++ payload))

/-- The bytes of a record. -/
def encode (form : Form) (payload : Bytes) : Bytes :=
  magic ++ (check form payload ++ le32 (crc32 (check form payload)))

/-- A record of the log. -/
structure Entry where
  form : Form
  batch : WriteBatch

namespace Entry

/-- The bytes of a record. -/
def frame (e : Entry) : Bytes := encode e.form (encodeBatch e.batch)

/-- What is recovered of a record. -/
def record (e : Entry) : Record := ⟨e.batch, e.form.position⟩

end Entry

/-- Why a legacy log cannot be opened or appended to. -/
inductive LegacyError where
  | invalidMagic
  | unsupportedVersion (version : UInt8)
  | unknownKind (kind : UInt8)
  | recordLength
  | checksumMismatch
  | positionMustAdvance (previous refused : AppliedPosition)
  | payload (error : WalError)
  | poisoned
  | batchLength
  | batchLimit
  | io
deriving DecidableEq

/-! ## Reading -/

/-- A complete record that does not verify is refused by a strict reader, and ends the log for
any other. -/
def invalid (strict : Bool) (e : LegacyError) : Option LegacyError := if strict then some e else none

/-- Read the kind and the position of a record. -/
def readForm (version : UInt8) : Parser (Option LegacyError) Form :=
  if version = 1 then pure .v1
  else if version = 2 then do
    let tag ← take none 1
    if tag = [0] then pure .unpositioned
    else if tag = [1] then do
      let bytes ← take none 16
      pure (.positioned ⟨UInt64.ofNat (fromLe (bytes.take 8)), UInt64.ofNat (fromLe (bytes.drop 8))⟩)
    else throw (some (.unknownKind (tag.headD 0)))
  else throw (some (.unsupportedVersion version))

/-- Read a record: its form and its payload. -/
def readRecord (strict : Bool) : Parser (Option LegacyError) (Form × Bytes) := do
  let preamble ← take none 5
  if preamble.take 4 ≠ magic then throw (invalid strict .invalidMagic)
  else do
    let form ← readForm (preamble.getD 4 0)
    let len ← take none 4
    if maxRecordLen < fromLe len then throw (invalid strict .recordLength)
    else do
      let body ← take none (fromLe len + crcLen)
      if crc32 ([form.version] ++ (form.kind ++ (len ++ body.take (fromLe len))))
          ≠ UInt32.ofNat (fromLe (body.drop (fromLe len))) then
        throw (invalid strict .checksumMismatch)
      else pure (form, body.take (fromLe len))

/-- `check_position`: positions advance. -/
def checkPosition (previous : Option AppliedPosition) (pos : AppliedPosition) :
    Except LegacyError Unit :=
  match previous with
  | some p => failIf (pos.index ≤ p.index) (.positionMustAdvance p pos)
  | none => .ok ()

/-- What a visit of the records has come to. -/
structure Visited where
  previous : Option AppliedPosition
  records : List Record
  goodEnd : ℕ

/-- Check the position of a record, if it has one. -/
def checkForm (previous : Option AppliedPosition) (form : Form) : Except LegacyError Unit :=
  match form.position with
  | some pos => checkPosition previous pos
  | none => .ok ()

/-- Visit a record that is complete and verified. -/
def visit (v : Visited) (r : Form × Bytes) : Except LegacyError Visited := do
  checkForm v.previous r.1
  let batch ← (decodeBatch r.2).mapError .payload
  return ⟨r.1.position.or v.previous, v.records ++ [⟨batch, r.1.position⟩],
    v.goodEnd + (4 + (check r.1 r.2).length + crcLen)⟩

/-- `visit_file`. -/
def visitFile (strict : Bool) (file : Bytes) : Except LegacyError Visited :=
  readAll (readRecord strict) visit file.length ⟨none, [], 0⟩ file

/-- The last position of the records. -/
def lastPosition (records : List Record) : Option AppliedPosition :=
  (records.filterMap Record.position).getLast?

/-! ## The log -/

/-- An open log. -/
structure Wal where
  file : Bytes
  applied : Option AppliedPosition
  poisoned : Bool

/-- What opening recovers. -/
structure Replay where
  records : List Record
  discardedTailBytes : ℕ

/-- Open a log: answers the file it leaves, and the log unless it is refused. -/
def openMode (strict : Bool) (file : Bytes) : Bytes × Except LegacyError (Wal × Replay) :=
  match visitFile strict file with
  | .error e => (file, .error e)
  | .ok v =>
    let discarded := file.length - v.goodEnd
    let kept := if 0 < discarded then file.take v.goodEnd else file
    (kept, .ok (⟨kept, lastPosition v.records, false⟩, ⟨v.records, discarded⟩))

namespace Wal

/-- The form of an appended record. -/
def formOf : Option AppliedPosition → Form
  | none => .unpositioned
  | some pos => .positioned pos

/-- Append a record.  `disk` says after how many bytes the write or the sync fails, if it does. -/
def appendRecord (w : Wal) (batch : WriteBatch) (pos : Option AppliedPosition)
    (disk : Option ℕ) : Wal × Except LegacyError Unit :=
  if w.poisoned then (w, .error .poisoned)
  else if 2 ^ 32 ≤ (encodeBatch batch).length then (w, .error .batchLength)
  else if maxRecordLen < (encodeBatch batch).length then (w, .error .batchLimit)
  else
    let record := encode (formOf pos) (encodeBatch batch)
    match disk with
    | some n => ({ w with file := w.file ++ record.take n, poisoned := true }, .error .io)
    | none => ({ w with file := w.file ++ record, applied := pos.or w.applied }, .ok ())

/-- Append a batch, with the position at which it applies if it has one. -/
def append (w : Wal) (batch : WriteBatch) (pos : Option AppliedPosition) (disk : Option ℕ) :
    Wal × Except LegacyError Unit :=
  match pos with
  | none => w.appendRecord batch none disk
  | some pos =>
    match checkPosition w.applied pos with
    | .error e => (w, .error e)
    | .ok () => w.appendRecord batch (some pos) disk

end Wal

/-! ## Records are read back -/

theorem decided_readForm (version : UInt8) :
  Decided (readForm version)
  := by
  apply decided_ite (decided_pure _)
  apply decided_ite _ (decided_throw _)
  apply (decided_take 1).bind
  intro tag
  apply decided_ite (decided_pure _)
  apply decided_ite _ (decided_throw _)
  apply (decided_take 16).bind
  intro bytes
  apply decided_pure

/-- More input changes nothing once a record is complete or refused. -/
theorem decided_readRecord (strict : Bool) :
  Decided (readRecord strict)
  := by
  apply (decided_take 5).bind
  intro preamble
  apply decided_ite (decided_throw _)
  apply (decided_readForm _).bind
  intro form
  apply (decided_take 4).bind
  intro len
  apply decided_ite (decided_throw _)
  apply (decided_take _).bind
  intro body
  apply decided_ite (decided_throw _) (decided_pure _)

theorem reads_readForm (form : Form) :
  Reads (readForm form.version) form.kind form
  := by
  cases form with
  | v1 => apply reads_pure
  | unpositioned =>
    apply reads_pure
  | positioned pos =>
    have hlen : (le64 pos.term ++ le64 pos.index).length = 16 := by simp
    apply (reads_take none (n := 1) rfl).bind
    apply (reads_take none hlen).bind
    have hpos : (⟨UInt64.ofNat (fromLe ((le64 pos.term ++ le64 pos.index).take 8)),
        UInt64.ofNat (fromLe ((le64 pos.term ++ le64 pos.index).drop 8))⟩ : AppliedPosition)
        = pos := by
      rw [take_left' (length_le64 _), drop_left' (length_le64 _), fromLe_le64, fromLe_le64]
    rw [hpos]
    apply reads_pure

theorem reads_readRecord (strict : Bool) (form : Form) {payload : Bytes}
    (h : payload.length ≤ maxRecordLen) :
  Reads (readRecord strict) (encode form payload) (form, payload)
  := by
  have hmax : maxRecordLen < 256 ^ 4 := by decide
  have hlen : fromLe (le 4 payload.length) = payload.length := fromLe_le (by omega)
  have hsplit : encode form payload = (magic ++ [form.version]) ++ (form.kind ++ (le 4 payload.length
      ++ (payload ++ le32 (crc32 (check form payload))))) := by
    simp [encode, check]
  rw [hsplit]
  apply (reads_take none (n := 5) rfl).bind
  apply (reads_readForm form).bind
  apply (reads_take none (length_le ..)).bind
  rw [hlen, if_neg (by omega), ← append_nil (payload ++ _)]
  have hbody : (payload ++ le32 (crc32 (check form payload))).length = payload.length + crcLen := by
    simp [crcLen]
  apply (reads_take none hbody).bind
  rw [take_left' rfl, drop_left' rfl, fromLe_le32, ← check, if_neg (not_not.mpr rfl)]
  apply reads_pure

/-- A batch whose payload is within the limit fits a record. -/
theorem fits_of_length {batch : WriteBatch} (h : (encodeBatch batch).length ≤ maxRecordLen) :
  Fits batch
  where
  length := h
  mutations m hm := by
    obtain ⟨before, after, rfl⟩ := append_of_mem hm
    simp only [encodeBatch, length_append, flatMap_append, flatMap_cons, length_encodeMutation] at h
    omega

/-! ## Sizes -/

/-- The bytes of a record of the second version, by its kind and the length of its payload. -/
def recordLen (kind : UInt8) (payload : ℕ) : Option ℕ :=
  if kind = 0 then some (4 + 1 + 1 + 4 + payload + crcLen)
  else if kind = 1 then some (4 + 1 + 1 + (8 + 8) + 4 + payload + crcLen)
  else none

/-- The form an append gives to a record. -/
def Form.ofPosition : Option AppliedPosition → Form
  | none => .unpositioned
  | some pos => .positioned pos

/-- Batches are decoded from their encodings, if their lengths can be written, and every payload
that is decoded is the encoding of its batch.  The size of a record of a segment is predicted for
the batches within the limit, and the size of a record of the legacy log for all; both are the
sizes of the records. -/
theorem batch_encoding_is_exact :
  (∀ batch, LengthsFit batch → decodeBatch (encodeBatch batch) = .ok batch)
    ∧ (∀ payload batch, decodeBatch payload = .ok batch → encodeBatch batch = payload)
    ∧ (∀ batch, (encodeBatch batch).length ≤ maxRecordLen → ∃ n, encodedSize batch = .ok n)
    ∧ (∀ batch n, encodedSize batch = .ok n → ∀ h pos, (frame h ⟨batch, pos⟩).length = n)
    ∧ ∀ batch pos, recordLen (if pos.isSome then 1 else 0) (encodeBatch batch).length
      = some (encode (.ofPosition pos) (encodeBatch batch)).length
  := by
  and_intros
  · intro batch
    apply decodeBatch_encodeBatch
  · intro payload batch
    apply encodeBatch_of_decodeBatch
  · intro batch hle
    exact ⟨_, encodedSize_eq_ok.mpr ⟨hle, rfl⟩⟩
  · intro batch n hn h pos
    rw [length_frame, (encodedSize_eq_ok.mp hn).2]
    dsimp only
    omega
  · intro batch pos
    cases pos
    all_goals
      simp [recordLen, Form.ofPosition, encode, check, Form.kind, magic, crcLen]
      omega

/-- A batch of two operations, with and without a position. -/
theorem batch_encoding_is_exact_pair :
  let batch : WriteBatch := [.put .default [1] [2], .delete .write [3]]
  decodeBatch (encodeBatch batch) = .ok batch ∧ encodedSize batch = .ok 59
    ∧ (encode .unpositioned (encodeBatch batch)).length = 37
  := by
  intro batch
  obtain ⟨hdecode, -, -, -, hlegacy⟩ := batch_encoding_is_exact
  refine ⟨hdecode batch ⟨by decide, by decide, by decide⟩, rfl, ?_⟩
  have hlen := hlegacy batch none
  exact (Option.some.inj hlen).symm

/-- A key whose length does not fit four bytes is not read back. -/
theorem long_key_is_not_read_back :
  decodeBatch (encodeBatch [.delete .default (replicate (256 ^ 4) 0)])
    ≠ .ok [.delete .default (replicate (256 ^ 4) 0)]
  := by
  have hkey : (replicate (256 ^ 4) (0 : UInt8)).length = 256 ^ 4 := length_replicate
  generalize replicate (256 ^ 4) (0 : UInt8) = key at hkey ⊢
  have hencode : encodeBatch [.delete .default key] = encodeBatch [.delete .default []] ++ key := by
    simp [encodeBatch, encodeMutation, encodeBytes, hkey]
    rfl
  have hread : readBatch (encodeBatch [.delete .default []] ++ key)
      = .ok ([.delete .default []], key) :=
    reads_readBatch ⟨by decide, by decide, by decide⟩ key
  have hne : key ≠ [] := ne_nil_of_length_pos (by omega)
  rw [hencode, decodeBatch, hread]
  simp [hne]

/-! ## Visiting records in order -/

/-- The payload of an entry is within the limit. -/
def Entry.Fits (e : Entry) : Prop := (encodeBatch e.batch).length ≤ maxRecordLen

instance (e : Entry) : Decidable e.Fits := inferInstanceAs (Decidable (_ ≤ _))

/-- The positions of the records advance from `previous` on. -/
def Advances (previous : Option AppliedPosition) : List Entry → Prop
  | [] => True
  | e :: es => checkForm previous e.form = .ok () ∧ Advances (e.form.position.or previous) es

instance decidableAdvances (previous : Option AppliedPosition) :
    (es : List Entry) → Decidable (Advances previous es)
  | [] => .isTrue trivial
  | e :: es =>
    let _ := decidableAdvances (e.form.position.or previous) es
    inferInstanceAs (Decidable (_ ∧ _))

/-- The position before which the next must not be. -/
def latest (previous : Option AppliedPosition) : List Entry → Option AppliedPosition
  | [] => previous
  | e :: es => latest (e.form.position.or previous) es

/-- What a record is read as. -/
def Entry.parts (e : Entry) : Form × Bytes := (e.form, encodeBatch e.batch)

variable {e : Entry} {v : Visited} {previous : Option AppliedPosition}

theorem visit_entry (v : Visited) (he : e.Fits) :
  visit v e.parts = do
    checkForm v.previous e.form
    return ⟨e.form.position.or v.previous, v.records ++ [e.record], v.goodEnd + e.frame.length⟩
  := by
  have hlen : 4 + (check e.form (encodeBatch e.batch)).length + crcLen = e.frame.length := by
    simp only [Entry.frame, encode, length_append, length_le32, crcLen]
    rfl
  rw [Entry.parts, visit, decodeBatch_encodeBatch (fits_of_length he).lengthsFit, hlen]
  rfl

variable {es : List Entry}

theorem visit_entries (hfits : ∀ e ∈ es, e.Fits) (h : Advances v.previous es) :
  (es.map Entry.parts).foldlM visit v
    = .ok ⟨latest v.previous es, v.records ++ es.map Entry.record,
        v.goodEnd + (es.flatMap Entry.frame).length⟩
  := by
  induction es generalizing v with
  | nil =>
    simp only [map_nil, append_nil]
    rfl
  | cons e es ih =>
    rw [map_cons, foldlM_cons, visit_entry v (hfits e mem_cons_self), h.1, ok_bind, pure_eq_ok,
      ok_bind, ih (fun e he => hfits e (mem_cons_of_mem _ he)) h.2]
    simp [latest, Nat.add_assoc]

/-- Visiting records whose positions do not advance. -/
theorem visit_entries_error (hfits : ∀ e ∈ es, e.Fits) (h : ¬ Advances v.previous es) :
  ∃ previous refused, (es.map Entry.parts).foldlM visit v
    = .error (.positionMustAdvance previous refused)
  := by
  induction es generalizing v with
  | nil => exact absurd trivial h
  | cons e es ih =>
    rw [map_cons, foldlM_cons, visit_entry v (hfits e mem_cons_self)]
    cases hcheck : checkForm v.previous e.form with
    | ok u =>
      have hrest : ¬ Advances (e.form.position.or v.previous) es := fun hes => h ⟨hcheck, hes⟩
      exact ih (fun e he => hfits e (mem_cons_of_mem _ he)) hrest
    | error error =>
      obtain ⟨p, pos, rfl⟩ : ∃ p pos, error = .positionMustAdvance p pos := by
        unfold checkForm at hcheck
        split at hcheck
        · unfold checkPosition at hcheck
          split at hcheck
          · rw [failIf] at hcheck
            split_ifs at hcheck
            cases hcheck
            exact ⟨_, _, rfl⟩
          · cases hcheck
        · cases hcheck
      exact ⟨p, pos, rfl⟩

/-! ## Opening -/

theorem flatMap_parts (es : List Entry) :
  (es.map Entry.parts).flatMap (fun r => encode r.1 r.2) = es.flatMap Entry.frame
  := by
  rw [flatMap_map]
  rfl

theorem reads_parts (strict : Bool) (hfits : ∀ e ∈ es, e.Fits) :
  ∀ r ∈ es.map Entry.parts, Reads (readRecord strict) (encode r.1 r.2) r
  := by
  intro r hr
  obtain ⟨e, he, rfl⟩ := mem_map.mp hr
  apply reads_readRecord strict e.form (hfits e he)

/-- There are at least as many bytes as records. -/
theorem length_le_flatMap (es : List Entry) :
  es.length ≤ (es.flatMap Entry.frame).length
  := by
  induction es with
  | nil => rfl
  | cons e es ih =>
    have hframe : 1 ≤ e.frame.length := by
      simp only [Entry.frame, encode, magic, length_append, length_cons]
      omega
    rw [flatMap_cons, length_append, length_cons]
    omega

theorem Advances.of_prefix {es' : List Entry} (h : Advances previous es) (hes : es' <+: es) :
  Advances previous es'
  := by
  induction es' generalizing es previous with
  | nil => trivial
  | cons e es' ih =>
    obtain ⟨rest, rfl⟩ := hes
    use h.1
    apply ih h.2
    apply prefix_append

/-- Opening a log that is cut recovers the longest prefix of whole records and drops the rest. -/
theorem openMode_cut (strict : Bool) (hfits : ∀ e ∈ es, e.Fits) (hadvances : Advances none es)
    {n : ℕ} {cut : Bytes} (hcut : (es.flatMap Entry.frame).take n = cut) {whole : List Entry}
    (hwhole : wholeWithin Entry.frame n es = whole) :
  openMode strict cut
    = (whole.flatMap Entry.frame,
      .ok (⟨whole.flatMap Entry.frame, lastPosition (whole.map Entry.record), false⟩,
        ⟨whole.map Entry.record, cut.length - (whole.flatMap Entry.frame).length⟩))
  := by
  have hsub : whole <+: es := hwhole ▸ wholeWithin_prefix ..
  have hfits' : ∀ e ∈ whole, e.Fits := fun e he => hfits e (hsub.subset he)
  obtain ⟨tail, htake, htail⟩ := take_flatMap Entry.frame n es
  rw [hcut, hwhole] at htake
  have htorn : readRecord strict tail = .error none := by
    rcases htail with rfl | ⟨e, he, more, hmore, hframe⟩
    · rfl
    · apply (decided_readRecord strict).torn_of_cut _ hmore
      · apply e.parts
      · rw [← hframe]
        apply reads_readRecord strict e.form (hfits e he)
  have hfuel : (whole.map Entry.parts).length ≤ cut.length := by
    have hle := length_le_flatMap whole
    rw [length_map, htake, length_append]
    omega
  have hvisit : visitFile strict cut = .ok ⟨latest none whole, whole.map Entry.record,
      (whole.flatMap Entry.frame).length⟩ := by
    have hread : readAll (readRecord strict) visit cut.length ⟨none, [], 0⟩
        ((whole.map Entry.parts).flatMap (fun r => encode r.1 r.2) ++ tail)
        = (whole.map Entry.parts).foldlM visit ⟨none, [], 0⟩ :=
      readAll_frames (reads_parts strict hfits') htorn hfuel _
    rw [flatMap_parts, ← htake, visit_entries hfits' (hadvances.of_prefix hsub), nil_append,
      Nat.zero_add] at hread
    apply hread
  rw [openMode, hvisit]
  simp only
  have hkept : (if 0 < cut.length - (whole.flatMap Entry.frame).length
      then cut.take (whole.flatMap Entry.frame).length else cut) = whole.flatMap Entry.frame := by
    split_ifs with hdiscard
    · rw [htake, take_left' rfl]
    · rw [htake, length_append] at hdiscard
      have hnil : tail = [] := length_eq_zero_iff.mp (by omega)
      rw [htake, hnil, append_nil]
  rw [hkept]

/-- A log whose complete records do not advance in position is refused as it is. -/
theorem openMode_refuses (strict : Bool) (hfits : ∀ e ∈ es, e.Fits) (h : ¬ Advances none es)
    (rest : Bytes) :
  ∃ previous refused, openMode strict (es.flatMap Entry.frame ++ rest)
    = (es.flatMap Entry.frame ++ rest, .error (.positionMustAdvance previous refused))
  := by
  obtain ⟨previous, refused, herror⟩ := visit_entries_error hfits (v := ⟨none, [], 0⟩) h
  have hfuel : (es.map Entry.parts).length ≤ (es.flatMap Entry.frame ++ rest).length := by
    have hle := length_le_flatMap es
    rw [length_map, length_append]
    omega
  have hread := readAll_error (reads_parts strict hfits) hfuel herror rest
  rw [flatMap_parts] at hread
  use previous, refused
  rw [openMode, visitFile, hread]

/-! ## Appending, crashing and opening again -/

/-- A log in use, with the records that have been written to it, the last of them perhaps in
part. -/
structure Life where
  wal : Wal
  written : List Entry

/-- What happens to a log: an append, whose write may fail, or a crash that leaves `n` bytes of
the file, which is opened again. -/
inductive Event where
  | append (batch : WriteBatch) (pos : Option AppliedPosition) (disk : Option ℕ)
  | reopen (strict : Bool) (n : ℕ)

namespace Life

/-- A log just opened. -/
def opened (es : List Entry) : Life :=
  ⟨⟨es.flatMap Entry.frame, lastPosition (es.map Entry.record), false⟩, es⟩

/-- Append a batch. -/
def append (x : Life) (batch : WriteBatch) (pos : Option AppliedPosition) (disk : Option ℕ) :
    Life :=
  match x.wal.append batch pos disk with
  | (w, .ok ()) => ⟨w, x.written ++ [⟨Wal.formOf pos, batch⟩]⟩
  | (w, .error .io) => ⟨w, x.written ++ [⟨Wal.formOf pos, batch⟩]⟩
  | (w, .error _) => ⟨w, x.written⟩

/-- The file a crash leaves. -/
def cut (x : Life) (n : ℕ) : Bytes := x.wal.file.take n

/-- The records that are whole in the file a crash leaves. -/
def whole (x : Life) (n : ℕ) : List Entry := wholeWithin Entry.frame (x.cut n).length x.written

/-- One event.  A log that is refused stays as it is. -/
def step (x : Life) : Event → Life
  | .append batch pos disk => x.append batch pos disk
  | .reopen strict n =>
    match (openMode strict (x.cut n)).2 with
    | .ok (w, _) => ⟨w, x.whole n⟩
    | .error _ => x

end Life

/-- What a log maintains: its file is the records written, all of them unless the last write
failed. -/
structure Kept (x : Life) : Prop where
  fits : ∀ e ∈ x.written, e.Fits
  advances : Advances none x.written
  file : ∃ n, x.wal.file = (x.written.flatMap Entry.frame).take n
  healthy : x.wal.poisoned = false → x.wal.file = x.written.flatMap Entry.frame
    ∧ x.wal.applied = latest none x.written

theorem latest_append (previous : Option AppliedPosition) (es : List Entry) (e : Entry) :
  latest previous (es ++ [e]) = e.form.position.or (latest previous es)
  := by
  induction es generalizing previous with
  | nil => rfl
  | cons e' es ih => apply ih

theorem advances_append :
  Advances previous (es ++ [e])
    ↔ Advances previous es ∧ checkForm (latest previous es) e.form = .ok ()
  := by
  induction es generalizing previous with
  | nil => simp [Advances, latest]
  | cons e' es ih => rw [cons_append, Advances, Advances, ih, and_assoc, latest]

/-- The position before which the next must not be is the last one. -/
theorem latest_eq_lastPosition (es : List Entry) :
  latest none es = lastPosition (es.map Entry.record)
  := by
  induction es using List.reverseRecOn with
  | nil => rfl
  | append_singleton es e ih =>
    rw [latest_append, ih, lastPosition, lastPosition, map_append, filterMap_append,
      List.getLast?_append]
    simp only [map_cons, map_nil, filterMap_cons, filterMap_nil, Entry.record]
    cases e.form.position <;> rfl

/-- A log that opens over records that verify. -/
theorem Kept.opened (hfits : ∀ e ∈ es, e.Fits) (hadvances : Advances none es) :
  Kept (.opened es)
  where
  fits := hfits
  advances := hadvances
  file := ⟨_, take_length.symm⟩
  healthy _ := ⟨rfl, (latest_eq_lastPosition es).symm⟩

variable {x : Life}

theorem Kept.recovers (h : Kept x) (strict : Bool) (n : ℕ) :
  openMode strict (x.cut n)
    = ((x.whole n).flatMap Entry.frame, .ok ((Life.opened (x.whole n)).wal,
      ⟨(x.whole n).map Entry.record, (x.cut n).length - ((x.whole n).flatMap Entry.frame).length⟩))
  := by
  obtain ⟨m, hfile⟩ := h.file
  apply openMode_cut strict h.fits h.advances _ rfl
  rw [Life.cut, hfile, take_take]
  simp

/-- All that an append can do: refuse, fail on the disk, or add a record. -/
theorem Wal.append_cases (w : Wal) (batch : WriteBatch) (pos : Option AppliedPosition)
    (disk : Option ℕ) :
  (∃ e, e ≠ .io ∧ w.append batch pos disk = (w, .error e))
    ∨ w.poisoned = false ∧ Entry.Fits ⟨formOf pos, batch⟩
      ∧ checkForm w.applied (formOf pos) = .ok ()
      ∧ ((∃ n, disk = some n ∧ w.append batch pos disk = ({ w with
              file := w.file ++ (Entry.frame ⟨formOf pos, batch⟩).take n
              poisoned := true }, .error .io))
        ∨ disk = none ∧ w.append batch pos disk = ({ w with
              file := w.file ++ Entry.frame ⟨formOf pos, batch⟩
              applied := pos.or w.applied }, .ok ()))
  := by
  have hrecord : checkForm w.applied (formOf pos) = .ok () →
      w.append batch pos disk = w.appendRecord batch pos disk := by
    intro hcheck
    cases pos with
    | none => rfl
    | some pos =>
      have hpos : checkPosition w.applied pos = .ok () := hcheck
      rw [append, hpos]
  have hcheck : (∃ e, e ≠ .io ∧ w.append batch pos disk = (w, .error e))
      ∨ checkForm w.applied (formOf pos) = .ok () := by
    cases pos with
    | none => exact .inr rfl
    | some pos =>
      cases hpos : checkPosition w.applied pos with
      | ok u => exact .inr hpos
      | error e =>
        left
        use e
        rw [append, hpos]
        constructor
        · rintro rfl
          unfold checkPosition at hpos
          split at hpos
          · rw [failIf] at hpos
            split_ifs at hpos
            cases hpos
          · cases hpos
        · rfl
  rcases hcheck with hrefused | hcheck
  · exact .inl hrefused
  rw [hrecord hcheck, appendRecord]
  split_ifs with hpoisoned hlen hlimit
  · exact .inl ⟨.poisoned, (by simp), rfl⟩
  · exact .inl ⟨.batchLength, (by simp), rfl⟩
  · exact .inl ⟨.batchLimit, (by simp), rfl⟩
  · right
    use Bool.eq_false_iff.mpr hpoisoned, not_lt.mp hlimit, hcheck
    cases disk with
    | some n =>
      left
      use n, rfl
      rfl
    | none =>
      right
      use rfl
      rfl

/-- An append keeps what is there, and is added to it unless it is refused. -/
theorem Kept.append (h : Kept x) (batch : WriteBatch) (pos : Option AppliedPosition)
    (disk : Option ℕ) :
  Kept (x.append batch pos disk)
  := by
  rcases x.wal.append_cases batch pos disk with
    ⟨e, hio, happend⟩ | ⟨hpoisoned, hfits, hcheck, hcase⟩
  · have hsame : x.append batch pos disk = x := by
      rw [Life.append, happend]
      cases e <;> first | rfl | exact absurd rfl hio
    rw [hsame]
    apply h
  · obtain ⟨hfile, happlied⟩ := h.healthy hpoisoned
    have hall : ∀ e ∈ x.written ++ [⟨Wal.formOf pos, batch⟩], e.Fits := by
      intro e he
      rcases mem_append.mp he with he | he
      · apply h.fits e he
      · rw [mem_singleton.mp he]
        apply hfits
    have hadvances : Advances none (x.written ++ [⟨Wal.formOf pos, batch⟩]) := by
      rw [advances_append, ← happlied]
      use h.advances
    have hframes : (x.written ++ [Entry.mk (Wal.formOf pos) batch]).flatMap Entry.frame
        = x.written.flatMap Entry.frame ++ Entry.frame ⟨Wal.formOf pos, batch⟩ := by
      simp
    rcases hcase with ⟨n, -, happend⟩ | ⟨-, happend⟩
    · -- a failed write leaves a front part of the record
      rw [Life.append, happend]
      use hall, hadvances
      · use (x.written.flatMap Entry.frame).length + n
        rw [hframes, take_length_add_append, hfile]
      · nofun
    · rw [Life.append, happend]
      use hall, hadvances
      · use (x.written.flatMap Entry.frame ++ Entry.frame ⟨Wal.formOf pos, batch⟩).length
        rw [hframes, take_length, hfile]
      · intro _
        rw [hframes, hfile, latest_append, happlied]
        use rfl
        cases pos <;> rfl

theorem Kept.step (h : Kept x) (event : Event) :
  Kept (x.step event)
  := by
  cases event with
  | append batch pos disk => apply h.append
  | reopen strict n =>
    have hsub : x.whole n <+: x.written := wholeWithin_prefix ..
    rw [Life.step, h.recovers]
    apply Kept.opened
    · intro e he
      apply h.fits e (hsub.subset he)
    · apply h.advances.of_prefix hsub

/-- A log that was opened over records that verify, after any events. -/
def Reachable (x : Life) : Prop :=
  ∃ (es : List Entry) (events : List Event), (∀ e ∈ es, e.Fits) ∧ Advances none es
    ∧ x = events.foldl Life.step (.opened es)

theorem Reachable.kept (h : Reachable x) :
  Kept x
  := by
  obtain ⟨es, events, hfits, hadvances, rfl⟩ := h
  have hrun : ∀ y, Kept y → Kept (events.foldl Life.step y) := by
    induction events with
    | nil => exact fun _ hy => hy
    | cons event events ih => exact fun y hy => ih _ (hy.step event)
  apply hrun _ (Kept.opened hfits hadvances)

/-- Append batches whose writes succeed. -/
def Life.appendAll (x : Life) (batches : List (WriteBatch × Option AppliedPosition)) : Life :=
  batches.foldl (fun x b => x.append b.1 b.2 none) x

/-- A log that no write fails on stays healthy, and what is appended comes last. -/
theorem Kept.appendAll (h : Kept x) (hhealthy : x.wal.poisoned = false)
    (batches : List (WriteBatch × Option AppliedPosition)) :
  Kept (x.appendAll batches) ∧ (x.appendAll batches).wal.poisoned = false
    ∧ x.written <+: (x.appendAll batches).written
  := by
  induction batches generalizing x with
  | nil => exact ⟨h, hhealthy, prefix_rfl⟩
  | cons b batches ih =>
    have hone : (x.append b.1 b.2 none).wal.poisoned = false
        ∧ x.written <+: (x.append b.1 b.2 none).written := by
      rcases x.wal.append_cases b.1 b.2 none with
        ⟨e, hio, happend⟩ | ⟨-, -, -, ⟨n, hn, -⟩ | ⟨-, happend⟩⟩
      · rw [Life.append, happend]
        cases e <;> first | exact ⟨hhealthy, prefix_rfl⟩ | exact absurd rfl hio
      · nomatch hn
      · rw [Life.append, happend]
        exact ⟨hhealthy, prefix_append ..⟩
    obtain ⟨hkept, hhealthy', hprefix⟩ := ih (h.append b.1 b.2 none) hone.1
    exact ⟨hkept, hhealthy', hone.2.trans hprefix⟩

/-- A healthy log is opened as it is. -/
theorem Kept.reopens (h : Kept x) (hhealthy : x.wal.poisoned = false) (strict : Bool) :
  openMode strict x.wal.file = (x.wal.file, .ok (x.wal, ⟨x.written.map Entry.record, 0⟩))
  := by
  obtain ⟨hfile, happlied⟩ := h.healthy hhealthy
  have hwhole : wholeWithin Entry.frame x.wal.file.length x.written = x.written :=
    wholeWithin_of_le (by rw [hfile])
  have hwal : (⟨x.written.flatMap Entry.frame, lastPosition (x.written.map Entry.record), false⟩ : Wal)
      = x.wal := by
    rw [← hfile, ← latest_eq_lastPosition, ← happlied, ← hhealthy]
  rw [openMode_cut strict h.fits h.advances (n := x.wal.file.length) _ hwhole, hwal, ← hfile,
    Nat.sub_self]
  rw [hfile, take_length]

/-- Whatever has been appended and however the file is cut, opening recovers the longest prefix
of whole records, with their positions, and leaves the file at its end; what is appended then
is recovered after it.  A file whose complete records do not advance in position is refused
and left as it is. -/
theorem legacy_recovery :
  (∀ x, Reachable x → ∀ strict n,
    openMode strict (x.cut n)
        = ((x.whole n).flatMap Entry.frame, .ok ((Life.opened (x.whole n)).wal,
          ⟨(x.whole n).map Entry.record,
            (x.cut n).length - ((x.whole n).flatMap Entry.frame).length⟩))
      ∧ ∀ batches,
        let y := (Life.opened (x.whole n)).appendAll batches
        x.whole n <+: y.written ∧ openMode strict y.wal.file
          = (y.wal.file, .ok (y.wal, ⟨y.written.map Entry.record, 0⟩)))
    ∧ ∀ es : List Entry, (∀ e ∈ es, e.Fits) → ¬ Advances none es → ∀ strict rest,
      ∃ previous refused, openMode strict (es.flatMap Entry.frame ++ rest)
        = (es.flatMap Entry.frame ++ rest, .error (.positionMustAdvance previous refused))
  := by
  constructor
  · intro x hx strict n
    use hx.kept.recovers strict n
    intro batches
    have hopened : Kept (.opened (x.whole n)) := by
      have hstep := hx.kept.step (.reopen strict n)
      rwa [Life.step, hx.kept.recovers] at hstep
    obtain ⟨hkept, hhealthy, hprefix⟩ := hopened.appendAll rfl batches
    use hprefix
    apply hkept.reopens hhealthy
  · intro es hfits h strict rest
    apply openMode_refuses strict hfits h

/-- A log of two records that is cut within the second. -/
def tornLog : Life :=
  [Event.append [.put .default [1] [2]] none none,
    .append [.delete .default [1]] (some ⟨1, 1⟩) none].foldl Life.step (.opened [])

/-- The first record of the torn log is recovered, and a log with positions out of order is
refused. -/
theorem legacy_recovery_tornLog :
  openMode false (tornLog.cut 40)
      = ((tornLog.whole 40).flatMap Entry.frame, .ok ((Life.opened (tornLog.whole 40)).wal,
        ⟨(tornLog.whole 40).map Entry.record,
          (tornLog.cut 40).length - ((tornLog.whole 40).flatMap Entry.frame).length⟩))
    ∧ (tornLog.whole 40).map Entry.record = [⟨[.put .default [1] [2]], none⟩]
    ∧ ∃ previous refused, (openMode false
        ([Entry.mk (.positioned ⟨1, 2⟩) [], ⟨.positioned ⟨1, 1⟩, []⟩].flatMap Entry.frame ++ [])).2
      = .error (.positionMustAdvance previous refused)
  := by
  have hreachable : Reachable tornLog := ⟨[], _, forall_mem_nil _, trivial, rfl⟩
  use (legacy_recovery.1 tornLog hreachable false 40).1
  constructor
  · decide
  · obtain ⟨previous, refused, hopen⟩ := legacy_recovery.2
      [Entry.mk (.positioned ⟨1, 2⟩) [], ⟨.positioned ⟨1, 1⟩, []⟩] (by decide) (by decide) false []
    use previous, refused
    rw [hopen]

end Kv9.Engine.LegacyWal
