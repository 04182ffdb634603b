import Kv9.Engine.Wal.Backing

/-!
# The calls of the log

A log that is open agrees with the disk and with the journal.  Every call can be cut off at
any of its effects: the disk is then backed by segments of the journal before or after the
call.  A call that is done takes the journal to the one after the call; a call that is
refused leaves it as it is.
-/

namespace Kv9.Engine.Wal

open Codec Except Crash List Journal

/-! ## Logs that are open -/

/-- The log in memory agrees with the disk and with the journal. -/
structure Live (x : Externals) (d : Disk) (w : SegmentedWal) (j : Journal)
    (pieces : List (ClosedSegment × List Record)) (tail : List Record)
    (summary : SegmentSummary) : Prop where
  published : ∃ bytes, w.topology.encode x = .ok bytes ∧ d.topology = some (.settled bytes)
  renamed : d.renamed = none
  doubt : j.doubt = none
  checkpoint : w.topology.checkpoint = j.checkpoint
  healthy : w.poisoned = false
  active : w.active = some ⟨w.topology.active, summary⟩
  layout : Layout d w.topology pieces tail summary none j.records
  settled : d.segments w.topology.active.path
    = some ⟨.settled (segmentImage w.topology.active tail), true⟩

section

variable {x : Externals} {d d' : Disk} {w : SegmentedWal} {j : Journal}
  {pieces : List (ClosedSegment × List Record)} {tail : List Record}
  {summary : SegmentSummary}

section

variable (h : Live x d w j pieces tail summary)
include h

theorem Live.valid :
  Topology.Valid x w.topology
  := by
  obtain ⟨bytes, henc, -⟩ := h.published
  apply (Topology.decode_encode henc).1

theorem Live.allows :
  j.Allows j.records w.topology.checkpoint
  := .inl ⟨rfl, h.checkpoint⟩

theorem Live.backs :
  Backs d w.topology j
  := ⟨pieces, tail, summary, none, j.records, h.layout, h.allows, nofun⟩

theorem Live.recoverable :
  Recoverable x j d
  := by
  obtain ⟨bytes, henc, htopology⟩ := h.published
  apply recoverable_of_backs henc h.backs htopology h.renamed

/-- The log stays recoverable while the disk changes outside its topology. -/
theorem Live.recoverable_of_same (hsame : Same w.topology d d') :
  Recoverable x j d'
  := by
  obtain ⟨bytes, henc, htopology⟩ := h.published
  apply recoverable_of_backs henc (h.backs.congr hsame.segments)
    (hsame.topology.trans htopology) (hsame.renamed.trans h.renamed)

end

/-- The disk is recoverable, and the log agrees with it unless it is poisoned. -/
structure Tracks (x : Externals) (d : Disk) (w : SegmentedWal) (j : Journal) : Prop where
  recoverable : Recoverable x j d
  doubt : j.doubt = none
  live : ∀ active, w.ensureHealthy = .ok active →
    ∃ pieces tail summary, Live x d w j pieces tail summary

theorem Live.tracks (h : Live x d w j pieces tail summary) :
  Tracks x d w j
  := ⟨h.recoverable, h.doubt, fun _ _ => ⟨pieces, tail, summary, h⟩⟩

/-- A poisoned log is tracked as long as the disk is recoverable. -/
theorem tracks_of_poisoned (h : Recoverable x j d) (hdoubt : j.doubt = none)
    (hpoisoned : w.poisoned = true) :
  Tracks x d w j
  := by
  use h, hdoubt
  intro active hhealthy
  rw [SegmentedWal.ensureHealthy, hpoisoned] at hhealthy
  cases hactive : w.active
  all_goals
    rw [hactive] at hhealthy
    nomatch hhealthy

/-! ### Appending -/

/-- The disk while a frame is written behind a settled segment. -/
structure Writing (d : Disk) (path : SegmentPath) (base whole pre : Bytes) (d' : Disk) : Prop where
  topology : d'.topology = d.topology
  renamed : d'.renamed = d.renamed
  others : ∀ path', path' ≠ path → d'.segments path' = d.segments path'
  file : ∃ f, d'.segments path = some ⟨f, true⟩ ∧ f.Within base whole pre

variable {path : SegmentPath}

variable {base whole pre bytes : Bytes} {p : ClosedSegment × List Record}
  {summary' : SegmentSummary} {header : SegmentHeader} {next t : Topology}
  {checkpoint : Option CheckpointManifest}

theorem Writing.write (h : Writing d path base whole pre d') (hle : pre ++ bytes <+: whole) :
  Writing d path base whole (pre ++ bytes) (d'.apply (.write path bytes))
  := by
  obtain ⟨f, hf, hwithin⟩ := h.file
  refine ⟨h.topology, h.renamed, ?_, f.append bytes, ?_, hwithin.append hle⟩
  · intro path' hne
    apply (Function.update_of_ne hne _ _).trans (h.others path' hne)
  · apply (Function.update_self ..).trans
    rw [hf]
    rfl

/-- Parts of the frame may be written one after the other. -/
theorem safe_writes {chunks : List Bytes}
    (h : Writing d path base whole pre d') (hle : pre ++ chunks.flatten <+: whole) :
  Safe Disk.apply DiskOp.Part (fun d' => ∃ pre, Writing d path base whole pre d') d'
      (chunks.map (DiskOp.write path))
    ∧ Writing d path base whole (pre ++ chunks.flatten)
        ((chunks.map (DiskOp.write path)).foldl Disk.apply d')
  := by
  induction chunks generalizing pre d' with
  | nil =>
    rw [flatten_nil, append_nil]
    exact ⟨safe_nil ⟨pre, h⟩, h⟩
  | cons bytes chunks ih =>
    rw [flatten_cons, ← append_assoc] at hle
    have hbytes : pre ++ bytes <+: whole := (prefix_append _ _).trans hle
    obtain ⟨hsafe, hdone⟩ := ih (h.write hbytes) hle
    refine ⟨?_, ?_⟩
    · apply safe_cons ⟨pre, h⟩ _ hsafe
      intro e' hpart
      cases hpart with
      | @write _ bytes' _ hfront =>
        refine ⟨pre ++ bytes', h.write ?_⟩
        apply ((prefix_append_right_inj pre).mpr hfront).trans hbytes
    · rw [flatten_cons, ← append_assoc]
      apply hdone

theorem Live.path_ne (h : Live x d w j pieces tail summary) (hp : p ∈ pieces) :
  p.1.header.path ≠ w.topology.active.path
  := h.layout.path_ne h.valid hp

variable {r : Record}

/-- The segments of the log while a record is appended. -/
theorem Live.layout_writing (h : Live x d w j pieces tail summary)
    (hext : extend w.topology.active summary r = .ok summary')
    (hadm : Admissible w.topology.checkpoint r)
    (hwriting : Writing d w.topology.active.path (segmentImage w.topology.active tail)
      (frame w.topology.active r) pre d') :
  Layout d' w.topology pieces tail summary (some r) j.records
  := by
  refine { h.layout with held := ?_, active := ?_, continues := ?_, admissible := ?_ }
  · intro p hp
    rw [hwriting.others _ (h.path_ne hp), h.layout.held p hp]
  · obtain ⟨f, hf, hwithin⟩ := hwriting.file
    use f, pre, hf
    rwa [Option.toList_some, frames, flatMap_singleton]
  · rintro _ ⟨⟩
    use summary', hext
  · intro r' hr'
    rcases mem_append.mp hr' with hr' | hr'
    · apply h.layout.admissible
      rw [Option.toList_none, append_nil]
      apply hr'
    · rw [mem_singleton.mp hr']
      apply hadm

/-- An append can be cut off while its frame is written. -/
theorem Live.writing (h : Live x d w j pieces tail summary)
    (hlayout : Layout d' w.topology pieces tail summary (some r) j.records)
    (htopology : d'.topology = d.topology) (hrenamed : d'.renamed = d.renamed) :
  Recoverable x { j with doubt := some (.append r) } d'
  := by
  obtain ⟨bytes, henc, hpublished⟩ := h.published
  apply recoverable_of_backs henc _ (htopology.trans hpublished) (hrenamed.trans h.renamed)
  use pieces, tail, summary, some r, j.records, hlayout, .inl ⟨rfl, h.checkpoint⟩
  rintro _ ⟨⟩
  exact .inr ⟨_, rfl, rfl, h.checkpoint⟩

theorem Live.written (h : Live x d w j pieces tail summary)
    (hext : extend w.topology.active summary r = .ok summary')
    (hadm : Admissible w.topology.checkpoint r)
    (hwriting : Writing d w.topology.active.path (segmentImage w.topology.active tail)
      (frame w.topology.active r) (frame w.topology.active r) d') :
  Live x (d'.apply (.sync w.topology.active.path))
    { w with active := some ⟨w.topology.active, summary'⟩ } (j.after (.append r)) pieces
    (tail ++ [r]) summary'
  := by
  obtain ⟨f, hf, hwithin⟩ := hwriting.file
  have hsettled : (d'.apply (.sync w.topology.active.path)).segments w.topology.active.path
      = some ⟨.settled (segmentImage w.topology.active (tail ++ [r])), true⟩ := by
    apply (Function.update_self ..).trans
    rw [hf, segmentImage_concat, ← hwithin.sync_eq]
    rfl
  obtain ⟨bytes, henc, htopology⟩ := h.published
  exact {
    published := ⟨bytes, henc, hwriting.topology.trans htopology⟩
    renamed := hwriting.renamed.trans h.renamed
    doubt := h.doubt
    checkpoint := h.checkpoint
    healthy := h.healthy
    active := rfl
    settled := hsettled
    layout := by
      apply (h.layout_writing hext hadm hwriting).extend hext _ hsettled
      intro p hp
      apply Function.update_of_ne (h.path_ne hp) }

/-- The parts of a frame, in the order in which they are written. -/
def frameChunks (h : SegmentHeader) (r : Record) : List Bytes :=
  let payload := encodeBatch r.batch
  let header := frameHeader (UInt32.ofNat payload.length) r.position
  [header, payload, le32 (frameCrc h.bytes header payload)]

section

variable (h : Live x d w j pieces tail summary)
include h

/-- Appending to the active segment, after the effects `before`. -/
theorem Live.appendActive (hadm : Admissible w.topology.checkpoint r) (before : List DiskOp) :
  (∃ e, w.appendActive before r = ⟨before, { w with poisoned := true }, .error e⟩)
    ∨ ∃ written w', w.appendActive before r = ⟨before ++ written, w', .ok ()⟩
        ∧ Safe Disk.apply DiskOp.Part (Recoverable x { j with doubt := some (.append r) }) d written
        ∧ Tracks x (written.foldl Disk.apply d) w' (j.after (.append r))
  := by
  rw [SegmentedWal.appendActive, h.active]
  simp only
  cases happend : WalSegment.append ⟨w.topology.active, summary⟩ r with
  | error e => exact .inl ⟨e, rfl⟩
  | ok result =>
    simp only [WalSegment.append, bind_eq_ok] at happend
    obtain ⟨summary', hext, bytes, henc, happend⟩ := happend
    cases SegmentHeader.encode_eq_ok henc
    cases happend
    have hstart : Writing d w.topology.active.path (segmentImage w.topology.active tail)
        (frame w.topology.active r) [] d :=
      ⟨rfl, rfl, fun _ _ => rfl, _, h.settled, File.within_settled _ _⟩
    have hle : [] ++ (frameChunks w.topology.active r).flatten <+: frame w.topology.active r := by
      apply prefix_rfl
    obtain ⟨hsafe, hwriting⟩ := safe_writes hstart hle
    have hlive := h.written hext hadm hwriting
    refine .inr ⟨(frameChunks w.topology.active r).map (DiskOp.write w.topology.active.path)
      ++ [.sync w.topology.active.path], _, rfl, ?_, ?_⟩
    · have hrecover : ∀ d', (∃ pre, Writing d w.topology.active.path
          (segmentImage w.topology.active tail) (frame w.topology.active r) pre d') →
          Recoverable x { j with doubt := some (.append r) } d' := by
        rintro d' ⟨pre, hpre⟩
        apply h.writing (h.layout_writing hext hadm hpre) hpre.topology hpre.renamed
      apply (hsafe.imp hrecover).append
      refine safe_cons (hrecover _ ⟨_, hwriting⟩) nofun (safe_nil ?_)
      apply hlive.recoverable.mono (allows_after h.doubt _)
    · rw [foldl_append]
      apply hlive.tracks

/-! ### Rotating -/

theorem Live.ensureHealthy :
  w.ensureHealthy = .ok ⟨w.topology.active, summary⟩
  := by
  rw [SegmentedWal.ensureHealthy, h.active]
  simp [h.healthy]

theorem Live.appliedPosition :
  w.appliedPosition = summary.last.or w.topology.active.previous
  := by
  rw [SegmentedWal.appliedPosition, h.active]
  rfl

/-- A later sequence number is not in use. -/
theorem Live.path_not_mem (hlt : w.topology.active.sequence.toNat < path.2.toNat) :
  path ∉ w.topology.paths
  := by
  intro hmem
  rcases mem_cons.mp hmem with rfl | hmem
  · apply lt_irrefl _ hlt
  · obtain ⟨c, hc, rfl⟩ := mem_map.mp hmem
    have := h.valid.lt_active c hc
    change _ < c.header.sequence.toNat at hlt
    omega

/-- The segments of the successor hold the same records. -/
theorem Live.layout_successor (hsame : Same w.topology d d') (generation : UInt64) (hprevious : header.previous = w.appliedPosition)
    (hfile : d'.segments header.path = some ⟨.settled header.bytes, true⟩) :
  Layout d' (SegmentedWal.successor w.topology generation header summary)
    (pieces ++ [(⟨w.topology.active, summary⟩, tail)]) [] .empty none j.records
  := by
  have hlist : (pieces ++ [(ClosedSegment.mk w.topology.active summary, tail)]).flatMap Prod.snd
      ++ []
      = pieces.flatMap Prod.snd ++ tail := by
    rw [append_nil, flatMap_append, flatMap_singleton]
  have hlayout := h.layout.congr hsame.segments
  have hsettled := h.settled
  rw [← hsame.segments _ (mem_cons_self ..)] at hsettled
  exact {
    closed := by rw [SegmentedWal.successor, h.layout.closed, map_append, map_singleton]
    held := by
      intro p hp
      rcases mem_append.mp hp with hp | hp
      · apply hlayout.held p hp
      · rw [mem_singleton.mp hp, hsettled]
    summaries := by
      intro p hp
      rcases mem_append.mp hp with hp | hp
      · apply h.layout.summaries p hp
      · rw [mem_singleton.mp hp]
        apply h.layout.summarizes
    active := by
      refine ⟨_, [], hfile, ?_⟩
      apply File.within_settled
    summarizes := summarizes_nil.mpr rfl
    continues := nofun
    replay := by
      rw [hlist]
      apply h.layout.replay
    mem := by
      rw [hlist]
      apply h.layout.mem
    admissible := by
      rw [hlist]
      apply h.layout.admissible
    applied := by
      intro m hm
      change ∃ pos, (none : Option AppliedPosition).or header.previous = some pos ∧ _
      rw [hprevious, h.appliedPosition]
      apply h.layout.applied m hm }

/-- Sealing the active segment and creating its successor can be cut off anywhere. -/
theorem Live.safe_seal {es : List DiskOp} (hes : ∀ e ∈ es, Outside w.topology e) :
  Safe Disk.apply DiskOp.Part (Recoverable x j) d (.sync w.topology.active.path :: es)
    ∧ Same w.topology d ((DiskOp.sync w.topology.active.path :: es).foldl Disk.apply d)
  := by
  have hsync := Disk.apply_sync_settled h.settled
  have hsafe := safe_outside (Same.refl w.topology d) hes
  constructor
  · refine safe_cons h.recoverable nofun ?_
    rw [hsync]
    exact hsafe.imp fun d' hsame => h.recoverable_of_same hsame
  · rw [foldl_cons, hsync]
    apply hsafe.finish

theorem Live.prepareRotation_eq_ok (hprepare : w.prepareRotation = .ok next) :
  ∃ generation header, next = SegmentedWal.successor w.topology generation header summary
    ∧ header.previous = w.appliedPosition
    ∧ header.sequence.toNat = w.topology.active.sequence.toNat + 1
  := by
  simp only [SegmentedWal.prepareRotation, h.ensureHealthy, ok_bind, bind_eq_ok] at hprepare
  obtain ⟨-, -, generation, -, sequence, hsequence, hprepare⟩ := hprepare
  cases hprepare
  exact ⟨generation, _, rfl, rfl, checkedAdd_eq_ok hsequence⟩

end

/-- The outcome of a rotation: it fails, or leaves an empty active segment. -/
def Rotated (x : Externals) (d : Disk) (w : SegmentedWal) (j : Journal) (o : Outcome Unit) :
    Prop :=
  Safe Disk.apply DiskOp.Part (Recoverable x j) d o.effects
    ∧ ((∃ e, o.result = .error e ∧ Tracks x (o.effects.foldl Disk.apply d) o.stream j)
      ∨ (o.result = .ok () ∧ o.stream.topology.checkpoint = w.topology.checkpoint
        ∧ ∃ pieces, Live x (o.effects.foldl Disk.apply d) o.stream j pieces [] .empty))

theorem Live.goOn (h : Live x d w j pieces tail summary) {generation : UInt64} (hprevious : header.previous = w.appliedPosition)
    (hpath : header.path ∉ w.topology.paths) :
  Rotated x d w j (w.goOn x (SegmentedWal.successor w.topology generation header summary))
  := by
  have hremove : ∀ e ∈ [DiskOp.remove header.path], Outside w.topology e := by
    intro e he
    rw [mem_singleton.mp he]
    apply hpath
  generalize hnext : SegmentedWal.successor w.topology generation header summary = next
  have hactive : next.active = header := by rw [← hnext]; rfl
  simp only [SegmentedWal.goOn, hactive]
  cases hheader : header.encode with
  | error e =>
    obtain ⟨hsafe, hsame⟩ := h.safe_seal hremove
    refine ⟨hsafe, .inl ⟨e, rfl, ?_⟩⟩
    apply tracks_of_poisoned (h.recoverable_of_same hsame) h.doubt rfl
  | ok bytes =>
    cases SegmentHeader.encode_eq_ok hheader
    simp only
    have hcreate : ∀ e ∈ [DiskOp.remove header.path] ++ createSegment header.path header.bytes,
        Outside w.topology e := by
      intro e he
      rcases mem_append.mp he with he | he
      · apply hremove e he
      · simp only [createSegment, mem_cons, not_mem_nil, or_false] at he
        rcases he with rfl | rfl | rfl | rfl <;> exact hpath
    obtain ⟨hsafe, hsame⟩ := h.safe_seal hcreate
    rw [← cons_append] at hsafe hsame
    have hfile : ((DiskOp.sync w.topology.active.path :: [.remove header.path]
        ++ createSegment header.path header.bytes).foldl Disk.apply d).segments header.path
          = some ⟨.settled header.bytes, true⟩ := by
      rw [foldl_append, Disk.foldl_createSegment]
      apply Function.update_self
    generalize [DiskOp.sync w.topology.active.path, .remove header.path]
      ++ createSegment header.path header.bytes = created at *
    have hlayout := h.layout_successor hsame generation hprevious hfile
    rw [hnext] at hlayout
    cases hencode : next.encode x with
    | error e =>
      refine ⟨hsafe, .inl ⟨e, rfl, ?_⟩⟩
      apply tracks_of_poisoned (h.recoverable_of_same hsame) h.doubt rfl
    | ok bytes =>
      obtain ⟨old, hold, htopology⟩ := h.published
      have hbacks : Backs (created.foldl Disk.apply d) next j := by
        refine ⟨_, [], .empty, none, j.records, hlayout, .inl ⟨rfl, ?_⟩, by simp⟩
        rw [← h.checkpoint, ← hnext]
        rfl
      have hpublish := safe_publish hold (h.backs.congr hsame.segments) hencode hbacks
        (hsame.topology.trans htopology) (hsame.renamed.trans h.renamed)
      refine ⟨hsafe.append hpublish, .inr ⟨rfl, by rw [← hnext]; rfl,
        pieces ++ [(⟨w.topology.active, summary⟩, tail)], ?_⟩⟩
      simp only [foldl_append, Disk.foldl_publish]
      exact {
        published := ⟨bytes, hencode, rfl⟩
        renamed := rfl
        doubt := h.doubt
        checkpoint := by rw [← h.checkpoint, ← hnext]; rfl
        healthy := h.healthy
        active := by rw [hactive]
        layout := hlayout.congr fun _ _ => rfl
        settled := by
          rw [hactive]
          apply hfile }

/-- A rotation can be cut off anywhere; it fails or leaves an empty active segment. -/
theorem Live.rotate (h : Live x d w j pieces tail summary) :
  Rotated x d w j (w.rotate x)
  := by
  rw [SegmentedWal.rotate]
  cases hprepare : w.prepareRotation with
  | error e => exact ⟨safe_nil h.recoverable, .inl ⟨e, rfl, h.tracks⟩⟩
  | ok next =>
    obtain ⟨generation, header, rfl, hprevious, hsequence⟩ := h.prepareRotation_eq_ok hprepare
    apply h.goOn hprevious
    apply h.path_not_mem
    change _ < header.sequence.toNat
    omega

/-! ### Calls -/

/-- A call can be cut off anywhere, and its answer is that of the journal. -/
structure Sound (x : Externals) (d : Disk) (j : Journal) (c : Call) (o : Outcome Bool) : Prop where
  safe : Safe Disk.apply DiskOp.Part (Recoverable x { j with doubt := some c }) d o.effects
  done : o.result = .ok true → Tracks x (o.effects.foldl Disk.apply d) o.stream (j.after c)
  refused : o.result ≠ .ok true → Tracks x (o.effects.foldl Disk.apply d) o.stream j

/-- A call that changes nothing and is refused. -/
theorem sound_refused (h : Tracks x d w j) (c : Call) {o : Outcome Bool} (heffects : o.effects = [])
    (hstream : o.stream = w) (hresult : o.result ≠ .ok true) :
  Sound x d j c o
  := by
  refine ⟨?_, fun hok => absurd hok hresult, fun _ => ?_⟩
  · rw [heffects]
    apply safe_nil (h.recoverable.mono (allows_before h.doubt c))
  · rw [heffects, hstream]
    apply h

/-- An admitted record lies after the checkpoint. -/
theorem Live.admissible_of_checkAppend (h : Live x d w j pieces tail summary) {active : WalSegment}
    {size : ℕ} (hcheckAppend : w.checkAppend r = .ok (active, size)) :
  Admissible w.topology.checkpoint r
  := by
  simp only [SegmentedWal.checkAppend, bind_eq_ok, failIf_eq_ok] at hcheckAppend
  obtain ⟨-, -, -, hpositioned, ⟨⟩, hcheck, -⟩ := hcheckAppend
  intro m hm
  obtain ⟨before, hbefore, hindex, hterm⟩ := h.layout.applied m hm
  rw [hm] at hpositioned
  cases hpos : r.position with
  | none =>
    rw [hpos] at hpositioned
    apply absurd ⟨rfl, rfl⟩ hpositioned
  | some pos =>
    rw [h.appliedPosition, hbefore, hpos, checkPosition_eq_ok] at hcheck
    refine ⟨pos, rfl, .inr (.inr ⟨?_, UInt64.le_trans hterm hcheck.2⟩)⟩
    apply UInt64.lt_of_le_of_lt hindex hcheck.1

/-- Appending to the active segment after effects that may be cut off anywhere. -/
theorem Live.sound_appendActive {before : List DiskOp}
    (h : Live x (before.foldl Disk.apply d) w j pieces tail summary)
    (hsafe : Safe Disk.apply DiskOp.Part (Recoverable x j) d before)
    (hadm : Admissible w.topology.checkpoint r) :
  Sound x d j (.append r) ((w.appendActive before r).map fun _ => true)
  := by
  have hsafe' := hsafe.imp fun d' hd' => hd'.mono (allows_before h.doubt (.append r))
  rcases h.appendActive hadm before with ⟨e, heq⟩ | ⟨written, w', heq, hwritten, htracks⟩
  · rw [heq]
    refine ⟨hsafe', by rintro ⟨⟩, fun _ => ?_⟩
    apply tracks_of_poisoned hsafe.finish h.doubt rfl
  · rw [heq]
    refine ⟨hsafe'.append hwritten, fun _ => ?_, fun hne => absurd rfl hne⟩
    simp only [Outcome.map, foldl_append]
    apply htracks

theorem Live.sound_append (h : Live x d w j pieces tail summary) (r : Record) :
  Sound x d j (.append r) ((w.append x r).map fun _ => true)
  := by
  rw [SegmentedWal.append]
  cases hcheckAppend : w.checkAppend r with
  | error e => apply sound_refused h.tracks _ rfl rfl (by rintro ⟨⟩)
  | ok admitted =>
    have hadm := h.admissible_of_checkAppend hcheckAppend
    simp only
    split_ifs with hfull
    · obtain ⟨hsafe, ⟨e, herror, htracks⟩ | ⟨hok, hcheckpoint, pieces', hlive⟩⟩ := h.rotate
      · simp only [herror]
        exact ⟨hsafe.imp fun d' hd' => hd'.mono (allows_before h.doubt _),
          by rintro ⟨⟩, fun _ => htracks⟩
      · simp only [hok]
        rw [← hcheckpoint] at hadm
        apply hlive.sound_appendActive hsafe hadm
    · apply Live.sound_appendActive h (safe_nil h.recoverable) hadm

theorem Live.sound_rotate (h : Live x d w j pieces tail summary) :
  Sound x d j .rotate ((w.rotate x).map fun _ => true)
  := by
  have hafter : j.after .rotate = j := by
    simp [Journal.after, Call.record, Call.manifest]
  obtain ⟨hsafe, hcases⟩ := h.rotate
  have htracks : Tracks x ((w.rotate x).effects.foldl Disk.apply d) (w.rotate x).stream j := by
    rcases hcases with ⟨e, -, htracks⟩ | ⟨-, -, pieces', hlive⟩
    · apply htracks
    · apply hlive.tracks
  refine ⟨hsafe.imp fun d' hd' => hd'.mono (allows_before h.doubt _), ?_, fun _ => htracks⟩
  rw [hafter]
  exact fun _ => htracks

/-! ### Checkpoints -/

theorem obsolete_not_mem (hvalid : Topology.Valid x t) {listing : List (UInt64 × ℕ)}
    {entry : UInt64 × ℕ} (hentry : entry ∈ SegmentedWal.obsolete t listing) :
  (t.active.streamId, entry.1) ∉ t.paths
  := by
  simp only [SegmentedWal.obsolete, mem_filter, Bool.and_eq_true, decide_eq_true_eq] at hentry
  have hlt := UInt64.lt_iff_toNat_lt.mp hentry.2.2
  intro hmem
  rcases mem_cons.mp hmem with heq | hmem
  · have hle := hvalid.first_le_active
    rw [SegmentHeader.path, Prod.mk.injEq] at heq
    rw [heq.2] at hlt
    omega
  · obtain ⟨c, hc, heq⟩ := mem_map.mp hmem
    have hle := hvalid.first_le c hc
    rw [SegmentHeader.path, Prod.mk.injEq] at heq
    rw [← heq.2] at hlt
    omega

theorem outside_reclaimEffects (hvalid : Topology.Valid x t) (listing : List (UInt64 × ℕ)) :
  ∀ e ∈ SegmentedWal.reclaimEffects t listing, Outside t e
  := by
  intro e he
  rcases mem_append.mp he with he | he
  · obtain ⟨entry, hentry, rfl⟩ := mem_map.mp he
    apply obsolete_not_mem hvalid hentry
  · rw [mem_singleton.mp he]
    trivial

/-- The log does not change when the disk changes outside its topology. -/
theorem Live.of_same (h : Live x d w j pieces tail summary) (hsame : Same w.topology d d') :
  Live x d' w j pieces tail summary
  := by
  obtain ⟨bytes, henc, htopology⟩ := h.published
  exact { h with
    published := ⟨bytes, henc, hsame.topology.trans htopology⟩
    renamed := hsame.renamed.trans h.renamed
    layout := h.layout.congr hsame.segments
    settled := (hsame.segments _ (mem_cons_self ..)).trans h.settled }

/-- Removing obsolete segments can be cut off anywhere. -/
theorem Live.reclaim (h : Live x d w j pieces tail summary) (listing : List (UInt64 × ℕ)) :
  Safe Disk.apply DiskOp.Part (fun d' => Live x d' w j pieces tail summary) d
    (SegmentedWal.reclaimEffects w.topology listing)
  := by
  have hsafe := safe_outside (Same.refl w.topology d) (outside_reclaimEffects h.valid listing)
  exact hsafe.imp fun d' hsame => h.of_same hsame

theorem Live.sound_reclaim (h : Live x d w j pieces tail summary) (listing : List (UInt64 × ℕ)) :
  Sound x d j (.reclaim listing) ((w.reclaimObsolete listing).map fun _ => true)
  := by
  have hafter : j.after (.reclaim listing) = j := by
    simp [Journal.after, Call.record, Call.manifest]
  rw [SegmentedWal.reclaimObsolete, h.ensureHealthy]
  split_ifs with hsome
  · have hsafe := h.reclaim listing
    refine ⟨hsafe.imp fun d' hd' => hd'.recoverable.mono (allows_before h.doubt _), ?_, ?_⟩
    · rw [hafter]
      exact fun _ => hsafe.finish.tracks
    · exact fun _ => hsafe.finish.tracks
  · refine ⟨safe_nil (h.recoverable.mono (allows_before h.doubt _)), ?_, fun _ => h.tracks⟩
    rw [hafter]
    exact fun _ => h.tracks

/-- What a checkpoint covers has an index that is not above its own. -/
theorem index_le_of_covers {cut pos : AppliedPosition} (h : covers cut (some pos) = true) :
  pos.index ≤ cut.index
  := by
  simp only [covers, Bool.or_eq_true, Bool.and_eq_true, decide_eq_true_eq, beq_iff_eq] at h
  rcases h with h | rfl
  · apply UInt64.le_of_lt h.1
  · apply UInt64.le_refl

variable {m : CheckpointManifest}

/-- A later checkpoint leaves fewer records after it. -/
theorem afterCheckpoint_mono
    (hle : ∀ old ∈ checkpoint, old.index ≤ m.index) (h : afterCheckpoint (some m) r = true) :
  afterCheckpoint checkpoint r = true
  := by
  cases checkpoint with
  | none => rfl
  | some old =>
    cases hpos : r.position with
    | none => simp only [afterCheckpoint, hpos]
    | some pos =>
      simp only [afterCheckpoint, hpos, decide_eq_true_eq] at h ⊢
      apply UInt64.lt_of_le_of_lt (hle old rfl) h

theorem Live.positioned (h : Live x d w j pieces tail summary) (hall : w.hasUnpositioned = false)
    (hr : r ∈ pieces.flatMap Prod.snd ++ tail) :
  r.position.isSome
  := by
  simp only [SegmentedWal.hasUnpositioned, h.active, Option.any_some, Bool.or_eq_false_iff,
    any_eq_false, Bool.not_eq_true] at hall
  rcases mem_append.mp hr with hr | hr
  · obtain ⟨p, hp, hr⟩ := mem_flatMap.mp hr
    apply (h.layout.summaries p hp).positioned _ r hr
    apply hall.1
    rw [h.layout.closed]
    apply mem_map_of_mem hp
  · apply h.layout.summarizes.positioned hall.2 r hr

/-- The records of a covered segment do not lie after the checkpoint. -/
theorem Live.filter_covered (h : Live x d w j pieces tail summary)
    (hall : w.hasUnpositioned = false) (hp : p ∈ pieces)
    (hcovers : covers m.position (p.1.summary.last.or p.1.header.previous) = true) :
  p.2.filter (afterCheckpoint (some m)) = []
  := by
  rw [filter_eq_nil_iff]
  intro r hr
  have hmem : r ∈ pieces.flatMap Prod.snd ++ tail :=
    mem_append_left _ (mem_flatMap.mpr ⟨p, hp, hr⟩)
  obtain ⟨pos, hpos⟩ := Option.isSome_iff_exists.mp (h.positioned hall hmem)
  obtain ⟨last, hlast, hle⟩ := (h.layout.summaries p hp).le_last hr hpos
  rw [hlast] at hcovers
  have hcut := UInt64.le_trans hle (index_le_of_covers hcovers)
  simp only [afterCheckpoint, hpos, decide_eq_true_eq]
  apply UInt64.not_lt.mpr hcut

theorem Live.filter_pieces (h : Live x d w j pieces tail summary)
    (hall : w.hasUnpositioned = false) (m : CheckpointManifest)
    {ps : List (ClosedSegment × List Record)} (hps : ∀ p ∈ ps, p ∈ pieces) :
  (ps.flatMap Prod.snd).filter (afterCheckpoint (some m))
    = ((ps.filter fun p => !covers m.position (p.1.summary.last.or p.1.header.previous)).flatMap
        Prod.snd).filter (afterCheckpoint (some m))
  := by
  induction ps with
  | nil => rfl
  | cons p ps ih =>
    have htail := ih fun q hq => hps q (mem_cons_of_mem p hq)
    rw [flatMap_cons, filter_append, htail]
    cases hcovers : covers m.position (p.1.summary.last.or p.1.header.previous) with
    | true =>
      rw [filter_cons_of_neg (by simp [hcovers]),
        h.filter_covered hall (hps p (mem_cons_self ..)) hcovers, nil_append]
    | false =>
      rw [filter_cons_of_pos (by simp [hcovers]), flatMap_cons, filter_append]

/-- Filtering for a later checkpoint can be done after filtering for an earlier one. -/
theorem filter_afterCheckpoint (hle : ∀ old ∈ checkpoint, old.index ≤ m.index) (rs : List Record) :
  (rs.filter (afterCheckpoint checkpoint)).filter (afterCheckpoint (some m))
    = rs.filter (afterCheckpoint (some m))
  := by
  rw [filter_filter]
  apply filter_congr
  intro r _
  cases h : afterCheckpoint (some m) r with
  | false => rfl
  | true => rw [afterCheckpoint_mono hle h, Bool.and_true]

section

variable (h : Live x d w j pieces tail summary)
include h

/-- The segments that stay selected hold the records after the checkpoint. -/
theorem Live.layout_selected (generation : UInt64)
    (happlied : m.checkAppliedPosition w.appliedPosition = .ok ())
    (hadvances : ∀ old ∈ w.topology.checkpoint, old.index ≤ m.index)
    (hall : w.hasUnpositioned = false)
    (hcertified : ∀ r ∈ j.records, ∀ pos ∈ r.position, Ordered m.position pos) :
  Layout d (SegmentedWal.selected w.topology generation m)
    (pieces.filter fun p => !covers m.position (p.1.summary.last.or p.1.header.previous))
    tail summary none j.records
  := by
  have hsub : ∀ r ∈ (pieces.filter fun p =>
      !covers m.position (p.1.summary.last.or p.1.header.previous)).flatMap Prod.snd ++ tail,
      r ∈ pieces.flatMap Prod.snd ++ tail := by
    intro r hr
    rcases mem_append.mp hr with hr | hr
    · obtain ⟨p, hp, hr⟩ := mem_flatMap.mp hr
      apply mem_append_left
      exact mem_flatMap.mpr ⟨p, (mem_filter.mp hp).1, hr⟩
    · apply mem_append_right _ hr
  exact { h.layout with
    closed := by
      rw [SegmentedWal.selected, h.layout.closed, filter_map]
      rfl
    held := fun p hp => h.layout.held p (mem_filter.mp hp).1
    summaries := fun p hp => h.layout.summaries p (mem_filter.mp hp).1
    replay := by
      change j.records.filter (afterCheckpoint (some m)) = _
      rw [← filter_afterCheckpoint hadvances, h.layout.replay, filter_afterCheckpoint hadvances,
        filter_append, h.filter_pieces hall m fun _ hp => hp, ← filter_append]
      rfl
    mem := fun r hr => h.layout.mem r (hsub r hr)
    admissible := by
      rintro r hr _ ⟨⟩
      rw [Option.toList_none, append_nil] at hr
      obtain ⟨pos, hpos⟩ := Option.isSome_iff_exists.mp (h.positioned hall (hsub r hr))
      use pos, hpos, hcertified r (h.layout.mem r (hsub r hr)) pos hpos
    applied := by
      rintro _ ⟨⟩
      rw [h.appliedPosition] at happlied
      apply CheckpointManifest.checkAppliedPosition_eq_ok happlied }

theorem Live.prepareCheckpoint_eq_ok (hprepare : w.prepareCheckpoint x m = .ok (some next)) :
  ∃ generation, next = SegmentedWal.selected w.topology generation m
    ∧ m.checkAppliedPosition w.appliedPosition = .ok ()
    ∧ (∀ old ∈ w.topology.checkpoint, old.index ≤ m.index)
    ∧ w.hasUnpositioned = false
  := by
  simp only [SegmentedWal.prepareCheckpoint, h.ensureHealthy, ok_bind, bind_eq_ok] at hprepare
  obtain ⟨advances, hselect, hprepare⟩ := hprepare
  cases advances with
  | false => nomatch hprepare
  | true =>
    obtain ⟨happlied, hadvances⟩ := CheckpointManifest.checkSelection_eq_ok hselect
    simp only [Bool.true_eq_false, if_false, bind_eq_ok] at hprepare
    obtain ⟨-, -, hprepare⟩ := hprepare
    cases hall : w.hasUnpositioned with
    | true =>
      rw [hall] at hprepare
      nomatch hprepare
    | false =>
      simp only [hall, Bool.false_eq_true, if_false, bind_eq_ok] at hprepare
      obtain ⟨generation, -, hprepare⟩ := hprepare
      cases hprepare
      exact ⟨generation, rfl, happlied, hadvances, rfl⟩

/-- Publishing a topology that selects a checkpoint, and removing what it covers. -/
theorem Live.sound_selected (listing : List (UInt64 × ℕ)) {pieces' : List (ClosedSegment × List Record)}
    (hlayout : Layout d next pieces' tail summary none j.records)
    (hcheckpoint : next.checkpoint = some m) (hactive : next.active = w.topology.active) (hencode : next.encode x = .ok bytes) :
  Sound x d j (.checkpoint m listing)
    ⟨publish bytes ++ SegmentedWal.reclaimEffects next listing, { w with topology := next },
      .ok true⟩
  := by
  obtain ⟨old, hold, htopology⟩ := h.published
  have hrecords : (j.after (.checkpoint m listing)).records = j.records := append_nil _
  have hbacks : Backs d next { j with doubt := some (.checkpoint m listing) } := by
    refine ⟨pieces', tail, summary, none, j.records, hlayout, .inr ⟨_, rfl, ?_, ?_⟩, nofun⟩
    · apply hrecords.symm
    · rw [hcheckpoint]
      rfl
  have hpublish := safe_publish hold (h.backs.mono (allows_before h.doubt _)) hencode
    hbacks htopology h.renamed
  have hlive : Live x ((publish bytes).foldl Disk.apply d) { w with topology := next }
      (j.after (.checkpoint m listing)) pieces' tail summary := by
    exact {
      published := ⟨bytes, hencode, rfl⟩
      renamed := rfl
      doubt := h.doubt
      checkpoint := hcheckpoint
      healthy := h.healthy
      active := by rw [hactive, h.active]
      layout := by
        rw [hrecords]
        exact hlayout.congr fun _ _ => rfl
      settled := by
        rw [hactive]
        apply h.settled }
  have hreclaim := hlive.reclaim listing
  refine ⟨hpublish.append (hreclaim.imp ?_), fun _ => ?_, fun hne => absurd rfl hne⟩
  · intro d' hd'
    apply hd'.recoverable.mono (allows_after h.doubt _)
  · rw [foldl_append]
    apply hreclaim.finish.tracks

theorem Live.sound_checkpoint (listing : List (UInt64 × ℕ))
    (hcertified : ∀ r ∈ j.records, ∀ pos ∈ r.position, Ordered m.position pos) :
  Sound x d j (.checkpoint m listing) (w.checkpointApplied x m listing)
  := by
  rw [SegmentedWal.checkpointApplied]
  cases hprepare : w.prepareCheckpoint x m with
  | error e => apply sound_refused h.tracks _ rfl rfl (by rintro ⟨⟩)
  | ok prepared =>
    cases prepared with
    | none => apply sound_refused h.tracks _ rfl rfl (by rintro ⟨⟩)
    | some next =>
      obtain ⟨generation, hnext, happlied, hadvances, hall⟩ :=
        h.prepareCheckpoint_eq_ok hprepare
      have hlayout := h.layout_selected generation happlied hadvances hall hcertified
      have hcheckpoint : next.checkpoint = some m := by rw [hnext]; rfl
      have hactive : next.active = w.topology.active := by rw [hnext]; rfl
      rw [← hnext] at hlayout
      simp only
      cases hencode : next.encode x with
      | error e =>
        refine ⟨safe_nil (h.recoverable.mono (allows_before h.doubt _)), by rintro ⟨⟩, fun _ => ?_⟩
        apply tracks_of_poisoned h.recoverable h.doubt rfl
      | ok bytes =>
        apply h.sound_selected listing hlayout hcheckpoint hactive hencode

end

end

end Kv9.Engine.Wal
