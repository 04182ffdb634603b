import Kv9.Engine.Wal.Calls

/-!
# Every run of the log is explained by a journal

A crash leaves one of the topologies and the segments that back it.  Recovery reads them:
it replays the records of the journal after the checkpoint, and repairs the end of the
active segment.
-/

namespace Kv9.Engine.Wal

open Codec Except Crash List Option

/-! ## Crashes -/

variable {bytes : Bytes}

section

variable {x : Externals} {d d' : Disk} {t : Topology} {j : Journal}

theorem Layout.crashed {pieces : List (ClosedSegment × List Record)} {tail : List Record}
    {summary : SegmentSummary} {next : Option Record} {recs : List Record}
    (h : Layout d t pieces tail summary next recs) (hcrash : d.Crashed d') :
  Layout d' t pieces tail summary next recs
  := by
  refine { h with held := ?_, active := ?_ }
  · intro p hp
    obtain ⟨bytes, hbytes, heq⟩ := hcrash.segments _ _ (h.held p hp) rfl
    rw [heq, hbytes]
  · obtain ⟨f, pre, hf, hwithin⟩ := h.active
    obtain ⟨bytes, hbytes, heq⟩ := hcrash.segments _ _ hf rfl
    obtain ⟨part, hpart, rfl⟩ := hwithin.may bytes hbytes
    refine ⟨_, part, heq, rfl, ?_⟩
    rintro _ rfl
    exact ⟨part, hpart, rfl⟩

theorem Selects.crashed {f : File} (h : Selects x d f j) (hcrash : d.Crashed d')
    (hbytes : bytes ∈ f.may) :
  Selects x d' (.settled bytes) j
  := by
  obtain ⟨t, encoded, henc, rfl, pieces, tail, summary, next, recs, hlayout, hallows⟩ := h
  subst hbytes
  exact ⟨t, bytes, henc, rfl, pieces, tail, summary, next, recs, hlayout.crashed hcrash, hallows⟩

theorem Recoverable.crashed (h : Recoverable x j d) (hcrash : d.Crashed d') :
  Recoverable x j d'
  := by
  obtain ⟨f, hf, bytes, hbytes, htopology⟩ := hcrash.topology
  refine ⟨⟨_, htopology, ?_⟩, ?_⟩
  · rcases hf with hf | hf
    · obtain ⟨f', hf', hselects⟩ := h.topology
      rw [hf] at hf'
      cases hf'
      apply hselects.crashed hcrash hbytes
    · apply (h.renamed f hf).crashed hcrash hbytes
  · rw [hcrash.renamed]
    nofun

end

/-! ## Replaying records -/

section

variable {x : Externals} {d : Disk} {t : Topology} {checkpoint : Option CheckpointManifest}
  {pieces : List (ClosedSegment × List Record)} {tail : List Record}
  {summary : SegmentSummary} {next : Option Record} {recs : List Record}

/-- A position that is ordered with the checkpoint is covered by it or lies after it. -/
theorem covers_of_ordered {cut pos : AppliedPosition} (h : Ordered cut pos)
    (hle : pos.index ≤ cut.index) :
  covers cut (some pos) = true
  := by
  simp only [covers, Bool.or_eq_true, Bool.and_eq_true, decide_eq_true_eq, beq_iff_eq]
  rcases h with rfl | h | h
  · apply Or.inr rfl
  · apply Or.inl h
  · apply absurd hle (UInt64.not_le.mpr h.1)

/-- Recovery collects a record if it lies after the checkpoint. -/
theorem visitRecoveryRecord_collect {r : Record} (hadm : Admissible checkpoint r)
    (report : StreamRecovery) (visited : List Record) :
  ∃ report', visitRecoveryRecord collect (checkpoint.map CheckpointManifest.position)
      (report, visited) r
    = .ok (report', visited ++ [r].filter (afterCheckpoint checkpoint))
  := by
  cases checkpoint with
  | none =>
    rw [filter_cons_of_pos rfl]
    simp [visitRecoveryRecord, collect]
  | some m =>
    obtain ⟨pos, hpos, hordered⟩ := hadm m rfl
    by_cases hle : pos.index ≤ m.position.index
    · have hafter : ¬ afterCheckpoint (some m) r = true := by
        simp only [afterCheckpoint, hpos, decide_eq_true_eq]
        apply UInt64.not_lt.mpr hle
      rw [filter_cons_of_neg hafter]
      simp [visitRecoveryRecord, hpos, hle, covers_of_ordered hordered]
    · have hafter : afterCheckpoint (some m) r = true := by
        simp only [afterCheckpoint, hpos, decide_eq_true_eq]
        apply UInt64.not_le.mp hle
      have hterm : ¬ pos.term < m.position.term := by
        rcases hordered with rfl | h | h
        · apply UInt64.lt_irrefl
        · apply absurd (UInt64.le_of_lt h.1) hle
        · apply UInt64.not_lt.mpr h.2
      rw [filter_cons_of_pos hafter]
      simp [visitRecoveryRecord, hpos, hle, hterm, collect]

/-- Recovery collects the records after the checkpoint, in order. -/
theorem foldlM_visitRecoveryRecord {rs : List Record} (hadm : ∀ r ∈ rs, Admissible checkpoint r)
    (report : StreamRecovery) (visited : List Record) :
  ∃ report', rs.foldlM
      (visitRecoveryRecord collect (checkpoint.map CheckpointManifest.position))
      (report, visited)
    = .ok (report', visited ++ rs.filter (afterCheckpoint checkpoint))
  := by
  induction rs generalizing report visited with
  | nil => exact ⟨report, by simp⟩
  | cons r rs ih =>
    obtain ⟨report₁, hvisit⟩ :=
      visitRecoveryRecord_collect (hadm r (mem_cons_self ..)) report visited
    obtain ⟨report₂, hrest⟩ := ih (fun r' hr' => hadm r' (mem_cons_of_mem r hr')) report₁
      (visited ++ [r].filter (afterCheckpoint checkpoint))
    use report₂
    rw [foldlM_cons, hvisit, ok_bind, hrest, append_assoc, ← filter_append]
    rfl

/-- Recovery collects the records of the closed segments. -/
theorem foldlM_replay {visit : StreamRecovery × List Record → Record →
      Except WalError (StreamRecovery × List Record)}
    (hvisit : visit = visitRecoveryRecord collect (checkpoint.map CheckpointManifest.position))
    (hheld : ∀ p ∈ pieces, d.readSegment p.1.header.path = some (segmentImage p.1.header p.2))
    (henc : ∀ p ∈ pieces, p.1.header.encode = .ok p.1.header.bytes)
    (hsum : ∀ p ∈ pieces, Summarizes p.1.header p.2 p.1.summary)
    (hadm : ∀ r ∈ pieces.flatMap Prod.snd, Admissible checkpoint r)
    (report : StreamRecovery) (visited : List Record) :
  ∃ report', (pieces.map Prod.fst).foldlM
      (fun s c => c.replay visit (d.readSegment c.header.path) s) (report, visited)
    = .ok (report', visited ++ (pieces.flatMap Prod.snd).filter (afterCheckpoint checkpoint))
  := by
  induction pieces generalizing report visited with
  | nil => exact ⟨report, by simp⟩
  | cons p pieces ih =>
    have hp := mem_cons_self (a := p) (l := pieces)
    have hmem : ∀ q ∈ pieces, q ∈ p :: pieces := fun q hq => mem_cons_of_mem p hq
    obtain ⟨report₁, hfirst⟩ := foldlM_visitRecoveryRecord
      (fun r hr => hadm r (mem_append_left _ hr)) report visited
    obtain ⟨report₂, hrest⟩ := ih (fun q hq => hheld q (hmem q hq))
      (fun q hq => henc q (hmem q hq)) (fun q hq => hsum q (hmem q hq))
      (fun r hr => hadm r (mem_append_right _ hr)) report₁
      (visited ++ p.2.filter (afterCheckpoint checkpoint))
    use report₂
    rw [map_cons, foldlM_cons, hheld p hp,
      ClosedSegment.replay_segmentImage visit (henc p hp) (hsum p hp), hvisit, hfirst, ok_bind,
      ← hvisit, hrest, flatMap_cons, filter_append, append_assoc]

/-- What the active segment holds: its records, perhaps the next one, and a torn frame that
is not there if the next record is. -/
theorem Layout.resolve (h : Layout d t pieces tail summary next recs) :
  ∃ kept rest summary', (kept = [] ∨ (∃ r, next = some r ∧ kept = [r]) ∧ rest = [])
    ∧ d.readSegment t.active.path = some (segmentImage t.active (tail ++ kept) ++ rest)
    ∧ Torn t.active rest ∧ Summarizes t.active (tail ++ kept) summary'
  := by
  obtain ⟨f, pre, hf, hwithin⟩ := h.active
  have hread : d.readSegment t.active.path = some (segmentImage t.active tail ++ pre) := by
    rw [Disk.readSegment, hf, map_some, hwithin.data]
  have hle := hwithin.le
  cases next with
  | none =>
    rw [toList_none, frames, flatMap_nil, prefix_nil] at hle
    subst hle
    refine ⟨[], [], summary, .inl rfl, ?_, torn_nil _, ?_⟩
    · rw [hread, append_nil, append_nil, append_nil]
    · rw [append_nil]
      apply h.summarizes
  | some r =>
    obtain ⟨summary', hext⟩ := h.continues r rfl
    rw [toList_some, frames, flatMap_singleton] at hle
    by_cases hwhole : pre = frame t.active r
    · refine ⟨[r], [], summary', .inr ⟨⟨r, rfl, rfl⟩, rfl⟩, ?_, torn_nil _, ?_⟩
      · rw [hread, hwhole, segmentImage_concat, append_nil]
      · apply summarizes_concat.mpr ⟨summary, h.summarizes, hext⟩
    · refine ⟨[], pre, summary, .inl rfl, ?_, ⟨r, fits_of_extend hext, hle, hwhole⟩, ?_⟩
      · rw [hread, append_nil]
      · rw [append_nil]
        apply h.summarizes

/-- Recovery replays the records after the checkpoint. -/
theorem Layout.replaySegments (h : Layout d t pieces tail summary next recs)
    (hvalid : Topology.Valid x t) {kept : List Record} {rest : Bytes} {summary' : SegmentSummary}
    (hkept : ∀ r ∈ kept, r ∈ next.toList)
    (hread : d.readSegment t.active.path = some (segmentImage t.active (tail ++ kept) ++ rest))
    (htorn : Torn t.active rest) (hsum : Summarizes t.active (tail ++ kept) summary') :
  ∃ report, Wal.replaySegments collect d t (⟨0, 0, 0⟩, [])
    = .ok ((report, (recs ++ kept).filter (afterCheckpoint t.checkpoint)), summary', rest.length)
  := by
  have hclosed : ∀ p ∈ pieces, p.1 ∈ t.closed := by
    intro p hp
    rw [h.closed]
    apply mem_map_of_mem hp
  obtain ⟨report₁, hfirst⟩ := foldlM_replay (d := d) rfl
    (fun p hp => by rw [Disk.readSegment, h.held p hp]; rfl)
    (fun p hp => hvalid.header_encode (hclosed p hp)) h.summaries
    (fun r hr => h.admissible r (mem_append_left _ (mem_append_left _ hr)))
    ⟨0, 0, 0⟩ []
  have hadm : ∀ r ∈ tail ++ kept, Admissible t.checkpoint r := by
    intro r hr
    apply h.admissible
    rcases mem_append.mp hr with hr | hr
    · apply mem_append_left _ (mem_append_right _ hr)
    · apply mem_append_right _ (hkept r hr)
  obtain ⟨report₂, hlast⟩ := foldlM_visitRecoveryRecord hadm report₁
    ([] ++ (pieces.flatMap Prod.snd).filter (afterCheckpoint t.checkpoint))
  refine ⟨report₂, ?_⟩
  simp only [Wal.replaySegments, h.closed, hfirst, ok_bind, hread]
  rw [scan_segmentImage _ hvalid.active hsum htorn (fun h : true = false => nomatch h), hlast, ok_bind, nil_append,
    ← filter_append, ← append_assoc, filter_append, ← h.replay, filter_append]

end

/-! ## Recovery -/

section

variable {x : Externals} {d : Disk} {j : Journal} {target : UInt64}

/-- A recoverable disk shows a topology that is backed by segments. -/
theorem Recoverable.visible (h : Recoverable x j d) :
  ∃ t bytes, t.encode x = .ok bytes ∧ d.renamed.or d.topology = some (.settled bytes)
    ∧ Backs d t j
  := by
  obtain ⟨f, hf, hselects⟩ := h.topology
  cases hrenamed : d.renamed with
  | none =>
    obtain ⟨t, bytes, henc, rfl, hbacks⟩ := hselects
    exact ⟨t, bytes, henc, hf, hbacks⟩
  | some g =>
    obtain ⟨t, bytes, henc, rfl, hbacks⟩ := h.renamed g hrenamed
    exact ⟨t, bytes, henc, rfl, hbacks⟩

theorem readPlan_eq_ok {t : Topology} (henc : t.encode x = .ok bytes)
    (hvisible : d.renamed.or d.topology = some (.settled bytes)) :
  readPlan x d = .ok t
  := by
  have hdecode := (Topology.decode_encode henc).2
  have hsize : ¬ maxTopologyBytes < bytes.length := by
    intro hlt
    rw [Topology.decode, failIf_pos (.inr (.inl hlt))] at hdecode
    cases hdecode
  simp [readPlan, Disk.readTopology, hvisible, failIf_neg hsize, hdecode]

/-- Syncing the topology that is shown changes nothing. -/
theorem Recoverable.apply_syncTopology (h : Recoverable x j d) :
  d.apply .syncTopology = d
  := by
  obtain ⟨f, hf, _, _, _, rfl, _⟩ := h.topology
  cases hrenamed : d.renamed with
  | none =>
    simp only [Disk.apply, hrenamed, hf, map_some, File.sync_settled]
    cases d
    simp_all
  | some g =>
    obtain ⟨_, _, _, rfl, _⟩ := h.renamed g hrenamed
    simp only [Disk.apply, hrenamed, File.sync_settled]
    rw [← hrenamed]

section

variable {t : Topology} {pieces : List (ClosedSegment × List Record)} {tail : List Record}
  {summary summary' : SegmentSummary} {next : Option Record} {recs kept : List Record}
  {rest : Bytes}

/-- The disk shows the topology `bytes`, and the segments are as in `Layout`. -/
structure Shows (d : Disk) (t : Topology) (bytes : Bytes)
    (pieces : List (ClosedSegment × List Record)) (tail : List Record)
    (summary : SegmentSummary) (next : Option Record) (recs : List Record) : Prop where
  topology : d.topology = some (.settled bytes)
  renamed : d.renamed = none
  layout : Layout d t pieces tail summary next recs

section

variable (h : Shows d t bytes pieces tail summary next recs)
include h

theorem Shows.modifyFile
    (hvalid : Topology.Valid x t) {g : File → File}
    (hg : ∀ f pre, f.Within (segmentImage t.active tail) (frames t.active next.toList) pre →
      ∃ pre', (g f).Within (segmentImage t.active tail) (frames t.active next.toList) pre') :
  Shows (d.modifyFile t.active.path g) t bytes pieces tail summary next recs
  := ⟨h.topology, h.renamed, h.layout.modifyFile hvalid hg⟩

/-- Recovery cuts off a torn frame. -/
theorem Shows.trim (hvalid : Topology.Valid x t)
    (hkept : kept = [] ∨ (∃ r, next = some r ∧ kept = [r]) ∧ rest = [])
    (hread : d.readSegment t.active.path = some (segmentImage t.active (tail ++ kept) ++ rest))
    (hsum : Summarizes t.active (tail ++ kept) summary') {es : List DiskOp}
    (hes : es = if rest.length = 0 then [] else [.setLen t.active.path summary'.bytes.toNat]) :
  Safe Disk.apply DiskOp.Part (fun d' => Shows d' t bytes pieces tail summary next recs) d es
    ∧ (es.foldl Disk.apply d).readSegment t.active.path
        = some (segmentImage t.active (tail ++ kept))
  := by
  subst hes
  split_ifs with hrest
  · rw [length_eq_zero_iff] at hrest
    subst hrest
    refine ⟨safe_nil h, ?_⟩
    rw [append_nil] at hread
    apply hread
  · have hnil : kept = [] := by
      rcases hkept with hnil | ⟨-, hempty⟩
      · apply hnil
      · rw [hempty] at hrest
        apply absurd rfl hrest
    subst hnil
    rw [append_nil] at hread hsum ⊢
    have hlen := hsum.length
    refine ⟨safe_cons h nofun (safe_nil ?_), ?_⟩
    · refine h.modifyFile hvalid (g := fun f => f.setLen summary'.bytes.toNat) ?_
      intro f pre hwithin
      rw [← hlen]
      exact ⟨[], hwithin.setLen⟩
    · obtain ⟨f, pre, hf, hwithin⟩ := h.layout.active
      have hseg : ((d.apply (.setLen t.active.path summary'.bytes.toNat)).segments t.active.path)
          = some ⟨f.setLen summary'.bytes.toNat, true⟩ := by
        apply (Function.update_self ..).trans
        rw [hf]
        rfl
      rw [← hlen] at hseg ⊢
      rw [foldl_cons, foldl_nil, Disk.readSegment, hseg, map_some, hwithin.setLen.data, append_nil]

/-- Recovery syncs the active segment. -/
theorem Shows.settle (hvalid : Topology.Valid x t)
    (hread : d.readSegment t.active.path = some (segmentImage t.active (tail ++ kept))) :
  Safe Disk.apply DiskOp.Part (fun d' => Shows d' t bytes pieces tail summary next recs) d
      [.sync t.active.path, .link t.active.path]
    ∧ ([DiskOp.sync t.active.path, .link t.active.path].foldl Disk.apply d).segments t.active.path
        = some ⟨.settled (segmentImage t.active (tail ++ kept)), true⟩
  := by
  obtain ⟨f, pre, hf, hwithin⟩ := h.layout.active
  have hdata : f.data = segmentImage t.active (tail ++ kept) := by
    rw [Disk.readSegment, hf, map_some, Option.some.injEq] at hread
    apply hread
  have hsync := h.modifyFile hvalid fun f pre hwithin => ⟨pre, hwithin.sync⟩
  have hseg : (d.apply (.sync t.active.path)).segments t.active.path
      = some ⟨.settled (segmentImage t.active (tail ++ kept)), true⟩ := by
    apply (Function.update_self ..).trans
    rw [hf, ← hdata]
    rfl
  have hlink : (d.apply (.sync t.active.path)).apply (.link t.active.path)
      = d.apply (.sync t.active.path) := by
    generalize d.apply (.sync t.active.path) = d' at *
    simp only [Disk.apply, Disk.modify, hseg, map_some]
    rw [← hseg, Function.update_eq_self]
  refine ⟨safe_cons h (by rintro _ ⟨⟩) (safe_cons hsync (by rintro _ ⟨⟩) (safe_nil ?_)), ?_⟩
  · rw [hlink]
    apply hsync
  · rw [foldl_cons, foldl_cons, foldl_nil, hlink, hseg]

end

end

theorem Layout.recovered {t : Topology} {pieces : List (ClosedSegment × List Record)}
    {tail : List Record} {summary summary' : SegmentSummary} {next : Option Record}
    {recs kept : List Record} (h : Layout d t pieces tail summary next recs)
    (hkept : kept = [] ∨ ∃ r, next = some r ∧ kept = [r])
    (hsum : Summarizes t.active (tail ++ kept) summary')
    (hsettled : d.segments t.active.path
      = some ⟨.settled (segmentImage t.active (tail ++ kept)), true⟩) :
  Layout d t pieces (tail ++ kept) summary' none (recs ++ kept)
  := by
  rcases hkept with rfl | ⟨r, rfl, rfl⟩
  · rw [append_nil] at hsum hsettled ⊢
    rw [append_nil, hsum.unique h.summarizes]
    apply h.drop (fun _ _ => rfl) hsettled
  · obtain ⟨prior, hprior, hext⟩ := summarizes_concat.mp hsum
    cases hprior.unique h.summarizes
    apply h.extend hext (fun _ _ => rfl) hsettled

/-- What recovery does on a recoverable disk. -/
structure Recovers (x : Externals) (d : Disk) (j : Journal)
    (o : List DiskOp × Except WalError (Recovered (List Record))) : Prop where
  safe : Safe Disk.apply DiskOp.Part (Recoverable x j) d o.1
  answer : ∃ r recs, o.2 = .ok r ∧ j.Allows recs r.stream.topology.checkpoint
    ∧ r.visited = recs.filter (afterCheckpoint r.stream.topology.checkpoint)
    ∧ Tracks x (o.1.foldl Disk.apply d) r.stream ⟨recs, r.stream.topology.checkpoint, none⟩

/-- Recovery can be cut off anywhere, and answers the records of the journal. -/
theorem Recoverable.recovers (h : Recoverable x j d) (htarget : validateTarget target = .ok ()) :
  Recovers x d j (World.recover x d target)
  := by
  obtain ⟨t, bytes, henc, hvisible, pieces, tail, summary, next, recs, hlayout, hallows, hnext⟩ :=
    h.visible
  have hvalid := (Topology.decode_encode henc).1
  obtain ⟨kept, rest, summary', hkept, hread, htorn, hsum⟩ := hlayout.resolve
  have hmem : ∀ r ∈ kept, r ∈ next.toList := by
    rcases hkept with rfl | ⟨⟨r, rfl, rfl⟩, -⟩
    · nofun
    · exact fun _ hr => hr
  obtain ⟨report, hreplay⟩ := hlayout.replaySegments hvalid hmem hread htorn hsum
  have hshows : Shows (d.apply .syncParent) t bytes pieces tail summary next recs :=
    ⟨hvisible, rfl, hlayout.congr fun _ _ => rfl⟩
  have hrecoverable : ∀ d', Shows d' t bytes pieces tail summary next recs → Recoverable x j d' := by
    intro d' hd'
    apply recoverable_of_backs henc _ hd'.topology hd'.renamed
    use pieces, tail, summary, next, recs, hd'.layout, hallows, hnext
  obtain ⟨es, hes⟩ : ∃ es, es = if rest.length = 0 then []
    else [DiskOp.setLen t.active.path summary'.bytes.toNat] := ⟨_, rfl⟩
  obtain ⟨hsafe₁, hread₁⟩ := hshows.trim hvalid hkept hread hsum hes
  obtain ⟨hsafe₂, hsettled⟩ := hsafe₁.finish.settle hvalid hread₁
  have hrun : World.recover x d target
      = ([.syncTopology, .syncParent] ++ es ++ [.sync t.active.path, .link t.active.path],
        .ok ⟨⟨t, some ⟨t.active, summary'⟩, target, false⟩,
          { report with discardedTailBytes := rest.length },
          (recs ++ kept).filter (afterCheckpoint t.checkpoint)⟩) := by
    simp only [World.recover, Wal.recover, readPlan_eq_ok henc hvisible, htarget, ok_bind,
      pure_eq_ok, hreplay, hes]
  have hstart : Safe Disk.apply DiskOp.Part (Recoverable x j) d [.syncTopology, .syncParent] := by
    refine safe_cons h nofun ?_
    rw [h.apply_syncTopology]
    refine safe_cons h nofun (safe_nil (hrecoverable _ hshows))
  have hfold : [DiskOp.syncTopology, .syncParent].foldl Disk.apply d = d.apply .syncParent := by
    rw [foldl_cons, foldl_cons, foldl_nil, h.apply_syncTopology]
  have hfinal := hsafe₂.finish
  rw [hrun]
  refine ⟨?_, _, recs ++ kept, rfl, ?_, rfl, ?_⟩
  · apply (hstart.append _).append
    · rw [foldl_append, hfold]
      exact hsafe₂.imp hrecoverable
    · rw [hfold]
      exact hsafe₁.imp hrecoverable
  · rcases hkept with rfl | ⟨⟨r, rfl, rfl⟩, -⟩
    · rw [append_nil]
      apply hallows
    · apply hnext r rfl
  · simp only [foldl_append, hfold]
    have hlayout' := hfinal.layout.recovered (hkept.imp id And.left) hsum hsettled
    apply Live.tracks
    exact {
      published := ⟨bytes, henc, hfinal.topology⟩
      renamed := hfinal.renamed
      doubt := rfl
      checkpoint := rfl
      healthy := rfl
      active := rfl
      layout := hlayout'
      settled := hsettled }

/-- Recovery with any target can be cut off anywhere. -/
theorem Recoverable.safe_recover (h : Recoverable x j d) (target : UInt64) :
  Safe Disk.apply DiskOp.Part (Recoverable x j) d (World.recover x d target).1
  := by
  cases htarget : validateTarget target with
  | ok u => apply (h.recovers htarget).safe
  | error e =>
    obtain ⟨t, bytes, henc, hvisible, -⟩ := h.visible
    simp only [World.recover, Wal.recover, readPlan_eq_ok henc hvisible, htarget, ok_bind,
      error_bind]
    apply safe_nil h

/-- Recovery looks at nothing but the topology and the segments it selects. -/
theorem recover_congr {d' : Disk} (htopology : d'.readTopology = d.readTopology)
    (hsegments : ∀ t, readPlan x d = .ok t → ∀ path ∈ t.paths,
      d'.readSegment path = d.readSegment path) :
  World.recover x d' target = World.recover x d target
  := by
  have hplan : readPlan x d' = readPlan x d := by
    rw [readPlan, htopology, readPlan]
  cases hread : readPlan x d with
  | error e => simp only [World.recover, Wal.recover, hplan, hread, error_bind]
  | ok t =>
    have hsame := hsegments t hread
    have hclosed : ∀ (closed : List ClosedSegment) (s : StreamRecovery × List Record),
        (∀ c ∈ closed, c.header.path ∈ t.paths) →
        closed.foldlM (fun s c => c.replay (visitRecoveryRecord collect
            (t.checkpoint.map CheckpointManifest.position)) (d'.readSegment c.header.path) s) s
          = closed.foldlM (fun s c => c.replay (visitRecoveryRecord collect
            (t.checkpoint.map CheckpointManifest.position)) (d.readSegment c.header.path) s) s := by
      intro closed
      induction closed with
      | nil => exact fun _ _ => rfl
      | cons c closed ih =>
        intro s hpaths
        rw [foldlM_cons, hsame _ (hpaths c (mem_cons_self ..))]
        congr
        funext s'
        apply ih s' fun c' hc' => hpaths c' (mem_cons_of_mem c hc')
    have hreplay : ∀ s, replaySegments collect d' t s = replaySegments collect d t s := by
      intro s
      simp only [replaySegments, hsame _ (mem_cons_self ..)]
      rw [hclosed]
      intro c hc
      apply mem_cons_of_mem
      apply mem_map_of_mem hc
    simp only [World.recover, Wal.recover, hplan, hread, ok_bind]
    cases validateTarget target with
    | error e => rfl
    | ok u => simp only [ok_bind, pure_eq_ok, hreplay]

end

/-! ## Runs -/

section

variable {x : Externals} {d : Disk} {w : SegmentedWal} {j : Journal}

theorem run_of_poisoned {e : WalError} (hpoisoned : w.ensureHealthy = .error e) (c : Call) :
  (c.run x w).effects = [] ∧ (c.run x w).stream = w ∧ (c.run x w).result ≠ .ok true
  := by
  cases c with
  | append r =>
    simp [Call.run, SegmentedWal.append, SegmentedWal.checkAppend, hpoisoned, Outcome.map, Except.map]
  | rotate =>
    simp [Call.run, SegmentedWal.rotate, SegmentedWal.prepareRotation, hpoisoned, Outcome.map,
      Except.map]
  | checkpoint m listing =>
    simp [Call.run, SegmentedWal.checkpointApplied, SegmentedWal.prepareCheckpoint, hpoisoned]
  | reclaim listing =>
    simp [Call.run, SegmentedWal.reclaimObsolete, hpoisoned, Outcome.map, Except.map]

/-- Every call is answered as by the journal. -/
theorem Tracks.sound (h : Tracks x d w j) {c : Call}
    (hcertified : ∀ m listing, c = .checkpoint m listing →
      ∀ r ∈ j.records, ∀ pos ∈ r.position, Ordered m.position pos) :
  Sound x d j c (c.run x w)
  := by
  cases hhealthy : w.ensureHealthy with
  | error e =>
    obtain ⟨heffects, hstream, hresult⟩ := run_of_poisoned hhealthy c
    apply sound_refused h c heffects hstream hresult
  | ok active =>
    obtain ⟨pieces, tail, summary, hlive⟩ := h.live active hhealthy
    cases c with
    | append r => apply hlive.sound_append
    | rotate => apply hlive.sound_rotate
    | checkpoint m listing => apply hlive.sound_checkpoint listing (hcertified m listing rfl)
    | reclaim listing => apply hlive.sound_reclaim

/-- The journal is what the disk holds, and an open log agrees with it. -/
structure World.Inv (x : Externals) (world : World) (j : Journal) : Prop where
  recoverable : Recoverable x j world.disk
  tracks : ∀ w, world.stream = some w → Tracks x world.disk w j

theorem Tracks.inv (h : Tracks x d w j) :
  World.Inv x ⟨d, some w⟩ j
  := by
  refine ⟨h.recoverable, ?_⟩
  rintro _ ⟨⟩
  apply h

theorem Recoverable.inv (h : Recoverable x j d) :
  World.Inv x ⟨d, none⟩ j
  := ⟨h, nofun⟩

variable {es : List Event} {world : World} {checkpoint : Option CheckpointManifest}
  {target : UInt64}

/-- Every step of the log is a step of the journal. -/
theorem Step.explained {world' : World} {e : Event} (hstep : Step x es world e world')
    (hj : Journal.Explains checkpoint es j) (hinv : World.Inv x world j) :
  ∃ j', Journal.Step j e j' ∧ World.Inv x world' j'
  := by
  have hcalls : ∀ {c : Call}, Certified es c → ∀ m listing, c = .checkpoint m listing →
      ∀ r ∈ j.records, ∀ pos ∈ r.position, Ordered m.position pos := by
    rintro c hcertified m listing rfl r hr
    apply hcertified
    apply hj.records.2.subset (mem_append_left _ hr)
  cases hstep with
  | @call d w c hcertified =>
    have htracks := hinv.tracks w rfl
    have hsound := htracks.sound (hcalls hcertified)
    by_cases hresult : (c.run x w).result = .ok true
    · rw [hresult]
      exact ⟨_, .done c htracks.doubt, (hsound.done hresult).inv⟩
    · have hrefused : Answer.of (c.run x w).result = .refused := by
        cases hcase : (c.run x w).result with
        | error e => rfl
        | ok b =>
          cases b with
          | false => rfl
          | true => apply absurd hcase hresult
      rw [hrefused]
      exact ⟨j, .refused c, (hsound.refused hresult).inv⟩
  | @interrupt d w done c hcertified hcut =>
    have htracks := hinv.tracks w rfl
    have hsound := htracks.sound (hcalls hcertified)
    exact ⟨_, .interrupted c htracks.doubt, Recoverable.inv (hsound.safe done hcut)⟩
  | crash hcrash => exact ⟨j, .crash, Recoverable.inv (hinv.recoverable.crashed hcrash)⟩
  | @recover d s target htarget =>
    obtain ⟨r, recs, hok, hallows, hvisited, htracks⟩ :=
      (hinv.recoverable.recovers htarget).answer
    refine ⟨⟨recs, r.stream.topology.checkpoint, none⟩, ?_, ?_⟩
    · rw [hok]
      change Journal.Step j (.recover (.ok (r.stream.topology.checkpoint, r.visited))) _
      rw [hvisited]
      rcases hallows with ⟨rfl, hcheckpoint⟩ | ⟨c, hc, rfl, hcheckpoint⟩
      · rw [hcheckpoint]
        apply Journal.Step.forget
      · rw [hcheckpoint]
        apply Journal.Step.keep hc
    · rw [hok]
      apply htracks.inv
  | @interruptRecovery d s target done hcut =>
    exact ⟨j, .crash, Recoverable.inv (hinv.recoverable.safe_recover target done hcut)⟩

/-- Every run of the log is explained by a journal. -/
theorem Run.explained {start : World} (hrun : Run x start es world) (hstart : World.Inv x start (.new checkpoint)) :
  ∃ j, Journal.Explains checkpoint es j ∧ World.Inv x world j
  := by
  induction hrun with
  | nil => exact ⟨_, .nil, hstart⟩
  | snoc _ hstep ih =>
    obtain ⟨j, hj, hinv⟩ := ih
    obtain ⟨j', hstep', hinv'⟩ := hstep.explained hj hinv
    exact ⟨j', hj.snoc hstep', hinv'⟩

variable {streamId : Fin 16 → UInt8}

/-- A new log has an empty journal. -/
theorem tracks_createWithCheckpoint
    {effects : List DiskOp} (hnew : d.readTopology = none)
    (hcreate : SegmentedWal.createWithCheckpoint x streamId target checkpoint = .ok (effects, w)) :
  Tracks x (effects.foldl Disk.apply d) w (.new checkpoint)
  := by
  have hrenamed : d.renamed = none := by
    rw [Disk.readTopology, map_eq_none_iff, or_eq_none_iff] at hnew
    apply hnew.1
  simp only [SegmentedWal.createWithCheckpoint, bind_eq_ok] at hcreate
  obtain ⟨-, -, segment, hsegment, bytes, henc, hcreate⟩ := hcreate
  cases SegmentHeader.encode_eq_ok hsegment
  cases hcreate
  generalize hheader : SegmentHeader.mk streamId 1 (checkpoint.map CheckpointManifest.position)
    = header at *
  have hdisk : (createSegment header.path header.bytes
      ++ [DiskOp.createTopology bytes, .syncTopology, .syncParent]).foldl Disk.apply d
      = { d.modify header.path (fun _ => some ⟨.settled header.bytes, true⟩) with
          topology := some (.settled bytes) } := by
    simp [foldl_append, Disk.foldl_createSegment, Disk.apply, Disk.modify, hrenamed, File.sync]
  have hfile : (d.modify header.path (fun _ => some ⟨.settled header.bytes, true⟩)).segments
      header.path = some ⟨.settled (segmentImage header []), true⟩ := by
    apply (Function.update_self ..).trans
    rw [segmentImage, frames, flatMap_nil, append_nil]
  rw [hdisk]
  refine Live.tracks (?_ : Live x _ _ _ [] [] .empty)
  exact {
    published := ⟨bytes, henc, rfl⟩
    renamed := hrenamed
    doubt := rfl
    checkpoint := rfl
    healthy := rfl
    active := rfl
    settled := hfile
    layout := {
      closed := rfl
      held := by simp
      summaries := by simp
      active := ⟨_, [], hfile, File.within_settled _ _⟩
      summarizes := summarizes_nil.mpr rfl
      continues := by simp
      replay := rfl
      mem := by simp
      admissible := by simp
      applied := by
        intro m hm
        change checkpoint = some m at hm
        refine ⟨m.position, ?_, UInt64.le_refl _, UInt64.le_refl _⟩
        change (none : Option AppliedPosition).or header.previous = _
        rw [← hheader, hm]
        rfl } }

/-- Whatever calls, interruptions, crashes and recoveries a log has gone through, opening it
succeeds.  It replays, in order and once, the records after the selected checkpoint of a
journal that explains what went before: the journal has every acknowledged record, and no
record that was not attempted.  Files that the topology does not select make no
difference. -/
theorem recovery_replays_journal {streamId : Fin 16 → UInt8} {target target' : UInt64}
    {checkpoint : Option CheckpointManifest} {effects : List DiskOp} {d₀ : Disk}
    {s : Option SegmentedWal} {es : List Event} (hnew : d₀.readTopology = none)
    (hcreate : SegmentedWal.createWithCheckpoint x streamId target checkpoint
      = .ok (effects, w))
    (hrun : Run x ⟨effects.foldl Disk.apply d₀, some w⟩ es ⟨d, s⟩)
    (htarget : validateTarget target' = .ok ()) :
  (∃ j, Journal.Explains checkpoint (es ++ [.recover (.ok (j.checkpoint, j.replay))]) j
    ∧ (World.recover x d target').2.map Recovered.answer = .ok (j.checkpoint, j.replay)
    ∧ (es.filterMap Event.acknowledged).Sublist j.records
    ∧ j.records.Sublist (es.filterMap Event.attempted))
  ∧ ∀ d' : Disk, d'.readTopology = d.readTopology →
      (∀ t, readPlan x d = .ok t → ∀ path ∈ t.paths,
        d'.readSegment path = d.readSegment path) →
      World.recover x d' target' = World.recover x d target'
  := by
  refine ⟨?_, fun d' => recover_congr⟩
  obtain ⟨j, hj, hinv⟩ := hrun.explained (tracks_createWithCheckpoint hnew hcreate).inv
  obtain ⟨j', hstep, -⟩ := (Step.recover htarget).explained hj hinv
  have hanswer := hstep.recover_eq
  rw [hanswer] at hstep
  have hj' := hj.snoc hstep
  obtain ⟨hacked, htried⟩ := hj'.records
  rw [Journal.acknowledged_concat] at hacked
  rw [Journal.attempted_concat] at htried
  simp only [Event.acknowledged, Event.attempted, toList_none, append_nil] at hacked htried
  use j', hj', hanswer, hacked, (sublist_append_left _ _).trans htried

/-- A log can be created under any identity but zero. -/
theorem createNew_eq_ok (x : Externals) (hid : streamId ≠ fun _ => 0)
    (htarget : validateTarget target = .ok ()) :
  ∃ effects w, SegmentedWal.createNew x streamId target = .ok (effects, w)
  := by
  have hheader : (SegmentHeader.mk streamId 1 none).encode
      = .ok (SegmentHeader.mk streamId 1 none).bytes := by
    rw [SegmentHeader.encode, if_neg]
    rintro (hzero | hzero)
    · apply hid hzero
    · cases hzero
  have hvalid : Topology.validate x ⟨1, ⟨streamId, 1, none⟩, [], none⟩ = .ok () := by
    simp [Topology.validate, hheader, Topology.checkManifest, Topology.first, Topology.checkChain,
      Topology.coversPosition]
  have hencode : ∃ bytes, Topology.encode x ⟨1, ⟨streamId, 1, none⟩, [], none⟩ = .ok bytes := by
    simp only [Topology.encode, hvalid, ok_bind, Topology.encodeCheckpoint]
    rw [failIf_neg]
    · exact ⟨_, rfl⟩
    · simp only [length_append, x.length_sha256, Topology.fields, length_le64,
        SegmentHeader.length_bytes, length_le, flatMap_nil, length_nil, not_lt]
      decide
  obtain ⟨bytes, hbytes⟩ := hencode
  simp only [SegmentedWal.createNew, SegmentedWal.createWithCheckpoint, htarget, ok_bind,
    map_none, hheader, hbytes]
  exact ⟨_, _, rfl⟩

/-- A log that was created on an empty disk, and to which a record was appended, recovers. -/
theorem recovery_replays_journal_append :
  ∃ (x : Externals) (start world : World) (answer : Answer) (j : Journal),
    Run x start [.call (.append ⟨[.put .default [1] [2]], some ⟨1, 1⟩⟩) answer] world
      ∧ (World.recover x world.disk 128).2.map Recovered.answer = .ok (j.checkpoint, j.replay)
  := by
  obtain ⟨x⟩ := nonempty_externals
  obtain ⟨effects, w, hcreate⟩ :=
    createNew_eq_ok x (by simp [funext_iff] : (fun _ : Fin 16 => (1 : UInt8)) ≠ fun _ => 0)
      (rfl : validateTarget 128 = .ok ())
  have hnew : (⟨none, none, none, fun _ => none⟩ : Disk).readTopology = none := rfl
  have hrun := Run.nil.snoc (@Step.call x [] (effects.foldl Disk.apply
    ⟨none, none, none, fun _ => none⟩) w (.append ⟨[.put .default [1] [2]], some ⟨1, 1⟩⟩) trivial)
  obtain ⟨⟨j, -, hanswer, -⟩, -⟩ := recovery_replays_journal hnew hcreate hrun
    (rfl : validateTarget 128 = .ok ())
  exact ⟨x, _, _, _, j, hrun, hanswer⟩

end

end Kv9.Engine.Wal
