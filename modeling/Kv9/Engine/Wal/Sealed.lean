import Kv9.Engine.Wal.Crc
import Kv9.Engine.Wal.Stream

/-!
# Segments that were cut or changed

A segment is filled by appending records to it.  Recovering it from any cut behind its header
answers the records whose frames are whole and their summary, and cuts the file to them.  Once
it is sealed, replaying it answers its records, and neither a cut of its file nor one with a
changed byte is replayed: every byte is in the segment header, which is compared, or in a frame
header or a frame with a checksum.
-/

namespace Kv9.Engine.Wal

open Codec Except Framing List

namespace WalSegment

/-- What the effects of an append write. -/
def written : DiskOp → Bytes
  | .write _ bytes => bytes
  | _ => []

/-- Append a record to a segment and to its file. -/
def appendFile (a : WalSegment × Bytes) (r : Record) : Except WalError (WalSegment × Bytes) := do
  let (effects, active) ← a.1.append r
  return (active, a.2 ++ effects.flatMap written)

/-- Create a segment and append records to it; answers also its file. -/
def fill (h : SegmentHeader) (rs : List Record) : Except WalError (WalSegment × Bytes) := do
  let header ← h.encode
  rs.foldlM appendFile (⟨h, .empty⟩, header)

/-- Recover the file of an active segment.  Answers what the visitor made, the segment, how many
bytes were discarded and the file afterwards. -/
def recoverActive {σ : Type} (visit : σ → Record → Except WalError σ) (file : Bytes)
    (h : SegmentHeader) (s : σ) : Except WalError (σ × WalSegment × ℕ × Bytes) := do
  let (s, summary, discarded) ← scan visit file h true s
  let file := if discarded = 0 then file else file.take summary.bytes.toNat
  return (s, ⟨h, summary⟩, discarded, file)

/-- Close a segment. -/
def sealed (active : WalSegment) : ClosedSegment := ⟨active.header, active.summary⟩

end WalSegment

variable {active : WalSegment} {file : Bytes}

section

variable {h : SegmentHeader} {r : Record} {rs : List Record} {summary summary' : SegmentSummary}

theorem encode_of_fill (hfill : WalSegment.fill h rs = .ok (active, file)) :
  h.encode = .ok h.bytes
  := by
  rw [WalSegment.fill, bind_eq_ok] at hfill
  obtain ⟨bytes, henc, -⟩ := hfill
  rw [henc, SegmentHeader.encode_eq_ok henc]

theorem appendFile_eq_ok (henc : h.encode = .ok h.bytes) {a : WalSegment × Bytes} :
  WalSegment.appendFile (⟨h, summary⟩, file) r = .ok a
    ↔ ∃ summary', extend h summary r = .ok summary' ∧ (⟨h, summary'⟩, file ++ frame h r) = a
  := by
  simp only [WalSegment.appendFile, WalSegment.append, bind_assoc, bind_eq_ok, henc, ok_bind,
    pure_eq_ok, Except.ok.injEq]
  rfl

/-- A segment that was filled is the image of its records. -/
theorem fill_eq_ok (hfill : WalSegment.fill h rs = .ok (active, file)) :
  active.header = h ∧ Summarizes h rs active.summary ∧ file = segmentImage h rs
  := by
  have henc := encode_of_fill hfill
  rw [WalSegment.fill, henc, ok_bind] at hfill
  induction rs using List.reverseRecOn generalizing active file with
  | nil =>
    cases hfill
    exact ⟨rfl, rfl, (append_nil _).symm⟩
  | append_singleton rs r ih =>
    rw [foldlM_append, bind_eq_ok] at hfill
    obtain ⟨⟨⟨_, summary⟩, file⟩, hfill, happend⟩ := hfill
    obtain ⟨rfl, hsum, rfl⟩ := ih hfill
    simp only [foldlM_cons, foldlM_nil, bind_pure, appendFile_eq_ok henc] at happend
    obtain ⟨summary', hext, ⟨⟩⟩ := happend
    use rfl, summarizes_concat.mpr ⟨summary, hsum, hext⟩
    rw [segmentImage, segmentImage, frames, frames, flatMap_append, flatMap_singleton, append_assoc]

/-! ## Changed frames -/

variable {body crc rest header bs : Bytes} {fuel : ℕ}

theorem crc_of_readFrameFields (hbody : body.length = 28) (hcrc : crc.length = 4) {f : FrameFields}
    (hread : readFrameFields (body ++ crc) = .ok (f, rest)) :
  f.crc = UInt32.ofNat (fromLe crc)
  := by
  simp only [readFrameFields, take32, take64, bind_assoc, pure_bind, bind_apply_eq_ok,
    take_eq_ok] at hread
  obtain ⟨magic, _, ⟨hmagic, hbs⟩, size, _, ⟨hsize, rfl⟩, kind, bs, hkind, reserved, _,
    ⟨hreserved, rfl⟩, term, _, ⟨hterm, rfl⟩, index, _, ⟨hindex, rfl⟩, crc', _, ⟨hcrc', rfl⟩,
    hread⟩ := hread
  rw [takeByte_eq_ok] at hkind
  subst hkind
  cases hread
  have hfront : body ++ crc
      = (magic ++ (size ++ (kind :: (reserved ++ (term ++ index))))) ++ (crc' ++ rest) := by
    rw [hbs]
    simp
  have hlength : body.length
      = (magic ++ (size ++ (kind :: (reserved ++ (term ++ index))))).length := by
    simp [hbody, hmagic, hsize, hreserved, hterm, hindex]
  obtain ⟨-, hend⟩ := append_inj hfront hlength
  have hnil : crc.length = (crc' ++ rest).length := by rw [hend]
  rw [length_append] at hnil
  have hrest : rest = [] := eq_nil_of_length_eq_zero (by omega)
  rw [hend, hrest, append_nil]

/-- A frame header that is accepted carries its checksum. -/
theorem crc_of_parseFrameHeader (hbody : body.length = 28) (hcrc : crc.length = 4)
    {answer : ℕ × Option AppliedPosition} (hparse : parseFrameHeader (body ++ crc) = .ok answer) :
  crc = le32 (crc32 body)
  := by
  simp only [parseFrameHeader, bind_eq_ok, failIf_eq_ok, not_or, not_not] at hparse
  obtain ⟨⟨f, rest⟩, hread, -, ⟨-, -, hsum⟩, -⟩ := hparse
  have htake : (body ++ crc).take (frameHeaderBytes - 4) = body := take_left' hbody
  rw [crc_of_readFrameFields hbody hcrc hread, htake] at hsum
  rw [hsum, le32_fromLe hcrc]

theorem parseFrameHeader_changed {length : UInt32} {position : Option AppliedPosition} (hchanged : Changed (frameHeader length position) header)
    (answer : ℕ × Option AppliedPosition) :
  parseFrameHeader header ≠ .ok answer
  := by
  intro hparse
  rcases hchanged.of_append with ⟨body, hbody, rfl⟩ | ⟨crc, hcrc, rfl⟩
  · have hsum := crc_of_parseFrameHeader (hbody.length_eq.trans (length_frameHeaderBody ..))
      (length_le32 _) hparse
    apply crc32Parts_ne _ (le32_injective hsum)
    simpa using hbody
  · have hsum := crc_of_parseFrameHeader (length_frameHeaderBody ..)
      (hcrc.length_eq.trans (length_le32 _)) hparse
    apply hcrc.ne hsum.symm

variable {σ : Type} {visit : σ → Record → Except WalError σ}

/-- What a scan checks in the first frame. -/
theorem of_scanLoop {payload : Bytes} {s : σ}
    {answer : σ × SegmentSummary × Bytes} (hheader : header.length = frameHeaderBytes)
    (hcrc : crc.length = 4)
    (hscan : scanLoop visit h (fuel + 1) (header ++ (payload ++ (crc ++ rest))) summary s
      = .ok answer) :
  ∃ size position, parseFrameHeader header = .ok (size, position)
    ∧ (size = payload.length → crc = le32 (frameCrc h.bytes header payload))
  := by
  rw [scanLoop, if_neg (by simp [hheader])] at hscan
  simp only [take_left' hheader, bind_eq_ok] at hscan
  obtain ⟨⟨size, position⟩, hparse, hscan⟩ := hscan
  use size, position, hparse
  rintro rfl
  rw [if_neg (by simp [hheader, hcrc]; omega), bind_eq_ok] at hscan
  obtain ⟨⟨⟩, hsum, -⟩ := hscan
  rw [drop_left' hheader, take_left, drop_left, take_left' hcrc, failIf_eq_ok, not_not] at hsum
  rw [hsum, le32_fromLe hcrc]

theorem scanLoop_changed_frame (hfits : Fits r.batch) (hchanged : Changed (frame h r) bs) (fuel : ℕ)
    (rest : Bytes) (s : σ) (answer : σ × SegmentSummary × Bytes) :
  scanLoop visit h (fuel + 1) (bs ++ rest) summary s ≠ .ok answer
  := by
  intro hscan
  rcases hchanged.of_append with ⟨header, hheader, rfl⟩ | ⟨bs, hbs, rfl⟩
  · rw [append_assoc, append_assoc] at hscan
    obtain ⟨size, position, hparse, -⟩ := of_scanLoop
      (hheader.length_eq.trans (length_frameHeader ..)) (length_le32 _) hscan
    apply parseFrameHeader_changed hheader _ hparse
  · have hparse := @parseFrameHeader_take r hfits _ (prefix_rfl)
    rw [take_of_length_le (length_frameHeader ..).le] at hparse
    rcases hbs.of_append with ⟨payload, hpayload, rfl⟩ | ⟨crc, hcrc, rfl⟩
    · rw [append_assoc, append_assoc] at hscan
      obtain ⟨size, position, hparse', hsum⟩ := of_scanLoop (length_frameHeader ..)
        (length_le32 _) hscan
      rw [hparse, Except.ok.injEq, Prod.mk.injEq] at hparse'
      have heq := hsum (hparse'.1.symm.trans hpayload.length_eq.symm)
      apply crc32Parts_ne _ (le32_injective heq)
      simp only [flatten_cons, flatten_nil, append_nil]
      apply (hpayload.append_left _).append_left
    · rw [append_assoc, append_assoc] at hscan
      obtain ⟨size, position, hparse', hsum⟩ := of_scanLoop (length_frameHeader ..)
        (hcrc.length_eq.trans (length_le32 _)) hscan
      rw [hparse, Except.ok.injEq, Prod.mk.injEq] at hparse'
      apply hcrc.ne (hsum hparse'.1.symm).symm

theorem scanLoop_changed (hsum : rs.foldlM (extend h) summary = .ok summary')
    (hchanged : Changed (frames h rs) bs) (hfuel : rs.length ≤ fuel) (s : σ)
    (answer : σ × SegmentSummary × Bytes) :
  scanLoop visit h fuel bs summary s ≠ .ok answer
  := by
  induction rs generalizing summary bs fuel s with
  | nil => nomatch hchanged
  | cons r rs ih =>
    rw [foldlM_cons, bind_eq_ok] at hsum
    obtain ⟨next, hext, hsum⟩ := hsum
    obtain ⟨fuel, rfl⟩ : ∃ n, fuel = n + 1 := ⟨fuel - 1, by simp at hfuel; omega⟩
    rcases hchanged.of_append with ⟨bs, hbs, rfl⟩ | ⟨bs, hbs, rfl⟩
    · apply scanLoop_changed_frame (fits_of_extend hext) hbs
    · rw [scanLoop_frame visit hext, Ne, bind_eq_ok]
      rintro ⟨s', -, hscan⟩
      apply ih hsum hbs _ s' hscan
      simpa using hfuel

/-- A sealed segment with a changed byte is refused. -/
theorem replay_changed (hsum : Summarizes h rs summary)
    (hchanged : Changed (segmentImage h rs) file) (s s' : σ) :
  ClosedSegment.replay visit ⟨h, summary⟩ (some file) s ≠ .ok s'
  := by
  simp only [ClosedSegment.replay, scan, bind_eq_ok, failIf_eq_ok, ne_eq, not_not]
  rintro ⟨-, -, ⟨s, summary', n⟩, ⟨-, -, header, henc, -, htake, ⟨s, summary', rest⟩, hscan, -⟩, -⟩
  rcases hchanged.of_append with ⟨bytes, hbytes, rfl⟩ | ⟨bs, hbs, rfl⟩
  · rw [take_left' (hbytes.length_eq.trans h.length_bytes)] at htake
    apply hbytes.ne
    rw [htake, SegmentHeader.encode_eq_ok henc]
  · rw [drop_left' h.length_bytes] at hscan
    apply scanLoop_changed hsum hbs _ _ _ hscan
    rw [hbs.length_eq]
    apply length_le_frames

/-- Every record of a segment fits a frame. -/
theorem Summarizes.fits (hsum : Summarizes h rs summary) (hr : r ∈ rs) :
  Fits r.batch
  := by
  induction rs using List.reverseRecOn generalizing summary with
  | nil => nomatch hr
  | append_singleton rs r' ih =>
    obtain ⟨prior, hprior, hext⟩ := summarizes_concat.mp hsum
    rcases mem_append.mp hr with hr | hr
    · apply ih hprior hr
    · rw [mem_singleton.mp hr]
      apply fits_of_extend hext

variable (visit) in
/-- A segment recovers the whole frames of any cut behind its header. -/
theorem recoverActive_take (henc : h.encode = .ok h.bytes) (hsum : Summarizes h rs summary)
    {n : ℕ} (hn : headerBytes ≤ n) (s : σ) :
  ∃ summary' discarded,
    Summarizes h (wholeWithin (frame h) (n - headerBytes) rs) summary'
      ∧ WalSegment.recoverActive visit ((segmentImage h rs).take n) h s
        = (wholeWithin (frame h) (n - headerBytes) rs).foldlM visit s >>= fun s' =>
          .ok (s', ⟨h, summary'⟩, discarded,
            segmentImage h (wholeWithin (frame h) (n - headerBytes) rs))
  := by
  obtain ⟨tail, htake, htail⟩ := take_flatMap (frame h) (n - headerBytes) rs
  have hwhole := wholeWithin_prefix (frame h) (n - headerBytes) rs
  generalize wholeWithin (frame h) (n - headerBytes) rs = whole at *
  obtain ⟨rest, rfl⟩ := hwhole
  have hsum' := hsum
  rw [Summarizes, foldlM_append, bind_eq_ok] at hsum'
  obtain ⟨summary', hsum', -⟩ := hsum'
  have htorn : Torn h tail := by
    rcases htail with rfl | ⟨r, hr, more, hmore, hframe⟩
    · apply torn_nil
    · use r, hsum.fits hr, ⟨more, hframe.symm⟩
      rw [hframe]
      simp [hmore]
  have hfile : (segmentImage h (whole ++ rest)).take n = segmentImage h whole ++ tail := by
    rw [segmentImage, take_append, h.length_bytes, frames, htake,
      take_of_length_le (h.length_bytes.trans_le hn), segmentImage, append_assoc]
    rfl
  have hscan := scan_segmentImage visit henc hsum' htorn (by simp : true = false → tail = []) s
  use summary', tail.length, hsum'
  rw [WalSegment.recoverActive, hfile, hscan, bind_assoc]
  congr
  funext s'
  have hkept : (if tail.length = 0 then segmentImage h whole ++ tail
      else (segmentImage h whole ++ tail).take summary'.bytes.toNat) = segmentImage h whole := by
    split_ifs with hnil
    · rw [eq_nil_of_length_eq_zero hnil, append_nil]
    · apply take_left' (Summarizes.length hsum')
  simp only [ok_bind, hkept, pure_eq_ok]

end

/-- Cuts behind the header of a segment recover its whole frames; once it is sealed, its records
are replayed, and a cut or a change of any byte is refused. -/
theorem segment_recovery {h : SegmentHeader} {rs : List Record} {active : WalSegment}
    {file : Bytes} (hfill : WalSegment.fill h rs = .ok (active, file)) {σ : Type}
    (visit : σ → Record → Except WalError σ) (s : σ) :
  (∀ n, headerBytes ≤ n →
    let whole := wholeWithin (frame h) (n - headerBytes) rs
    ∃ (recovered : WalSegment) (discarded : ℕ), Summarizes h whole recovered.summary
      ∧ WalSegment.recoverActive visit (file.take n) h s
        = (whole.foldlM visit s >>= fun s' =>
          .ok (s', recovered, discarded, segmentImage h whole))
      ∧ recovered.sealed.replay visit (some (segmentImage h whole)) s = whole.foldlM visit s)
    ∧ active.sealed.replay visit (some file) s = rs.foldlM visit s
    ∧ (∀ n < file.length, ∀ s', active.sealed.replay visit (some (file.take n)) s ≠ .ok s')
    ∧ ∀ i b, file.set i b ≠ file →
      ∀ s', active.sealed.replay visit (some (file.set i b)) s ≠ .ok s'
  := by
  have henc := encode_of_fill hfill
  obtain ⟨rfl, hsum, rfl⟩ := fill_eq_ok hfill
  refine ⟨?_, ClosedSegment.replay_segmentImage visit henc hsum s, ?_, ?_⟩
  · intro n hn
    obtain ⟨summary', discarded, hsum', hrecover⟩ := recoverActive_take visit henc hsum hn s
    use ⟨active.header, summary'⟩, discarded, hsum', hrecover
    apply ClosedSegment.replay_segmentImage visit henc hsum'
  · intro n hn s' hreplay
    simp only [ClosedSegment.replay, bind_eq_ok, failIf_eq_ok, ne_eq, not_not] at hreplay
    obtain ⟨-, hlength, -⟩ := hreplay
    rw [length_take_of_le hn.le] at hlength
    apply hn.ne (hlength.trans hsum.length.symm)
  · intro i b hne
    apply replay_changed hsum (changed_set hne)

/-- A segment with one record. -/
theorem segment_recovery_put :
  ∃ active file,
    WalSegment.fill ⟨fun _ => 1, 1, none⟩ [⟨[.put .default [1] [2]], some ⟨1, 1⟩⟩]
        = .ok (active, file)
      ∧ active.sealed.replay (fun n _ => .ok (n + 1)) (some file) 0 = .ok 1
      ∧ ∀ i b, file.set i b ≠ file →
        ∀ n, active.sealed.replay (fun n _ => .ok (n + 1)) (some (file.set i b)) 0 ≠ .ok n
  := by
  obtain ⟨⟨active, file⟩, hfill⟩ : ∃ a,
      WalSegment.fill ⟨fun _ => 1, 1, none⟩ [⟨[.put .default [1] [2]], some ⟨1, 1⟩⟩] = .ok a := by
    apply Exists.intro
    rfl
  obtain ⟨-, hreplay, -, hchanged⟩ := segment_recovery hfill (fun n _ => .ok (n + 1)) 0
  use active, file, hfill, hreplay, hchanged

end Kv9.Engine.Wal
