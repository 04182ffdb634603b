import Kv9.Engine.Wal.Journal

/-!
# Topologies backed by segments

The topologies that a crash can leave are at all times backed by segments: the files of
their closed segments hold complete records, and the file of the active segment holds
complete records and a part of at most one more.  Together with the records that the
checkpoint covers these are the records of the journal.
-/

namespace Kv9.Engine.Wal

open Codec Except Crash List

/-! ## Effects on the disk -/

namespace Disk

variable {d d' : Disk} {path : SegmentPath}

theorem apply_sync_settled {bytes : Bytes} {linked : Bool}
    (h : d.segments path = some ⟨.settled bytes, linked⟩) :
  d.apply (.sync path) = d
  := by
  simp only [apply, modifyFile, modify, h, Option.map_some, File.sync_settled]
  rw [← h, Function.update_eq_self]

theorem foldl_createSegment (d : Disk) (path : SegmentPath) (header : Bytes) :
  (createSegment path header).foldl apply d
    = d.modify path fun _ => some ⟨.settled header, true⟩
  := by
  simp [createSegment, apply, modifyFile, modify, File.sync]

theorem foldl_publish (d : Disk) (bytes : Bytes) :
  (publish bytes).foldl apply d
    = { d with topology := some (.settled bytes), renamed := none, temporary := none }
  := by
  simp [publish, apply, File.sync]

end Disk

/-- The files that a topology selects. -/
def Topology.paths (t : Topology) : List SegmentPath :=
  t.active.path :: t.closed.map fun c => c.header.path

/-- An effect on a segment that a topology does not select. -/
def Outside (t : Topology) : DiskOp → Prop
  | .create path => path ∉ t.paths
  | .write path _ => path ∉ t.paths
  | .setLen path _ => path ∉ t.paths
  | .sync path => path ∉ t.paths
  | .link path => path ∉ t.paths
  | .remove path => path ∉ t.paths
  | .syncDirectory => True
  | _ => False

/-- The two disks agree on the topology and on the segments it selects. -/
structure Same (t : Topology) (d d' : Disk) : Prop where
  topology : d'.topology = d.topology
  renamed : d'.renamed = d.renamed
  segments : ∀ path ∈ t.paths, d'.segments path = d.segments path

theorem Same.refl (t : Topology) (d : Disk) :
  Same t d d
  := ⟨rfl, rfl, fun _ _ => rfl⟩

variable {x : Externals} {d d' : Disk} {t : Topology}
  {pieces : List (ClosedSegment × List Record)} {tail : List Record}
  {summary summary' : SegmentSummary} {next : Option Record} {recs : List Record} {r : Record}

theorem Same.modify (h : Same t d d') {path : SegmentPath}
    (hpath : path ∉ t.paths) (f : Option SegmentFile → Option SegmentFile) :
  Same t d (d'.modify path f)
  := by
  use h.topology, h.renamed
  intro path' hpath'
  have hne : path' ≠ path := by
    rintro rfl
    apply hpath hpath'
  apply (Function.update_of_ne hne _ _).trans
  apply h.segments path' hpath'

theorem Same.apply (h : Same t d d') {e : DiskOp} (he : Outside t e) :
  Same t d (d'.apply e)
  := by
  cases e with
  | create path => exact h.modify he fun _ => some ⟨.settled [], false⟩
  | write path bytes
  | setLen path length
  | sync path
  | link path => apply h.modify he
  | remove path => exact h.modify he fun _ => none
  | syncDirectory => apply h
  | _ => nomatch he

theorem Outside.part {e e' : DiskOp} (he : Outside t e) (hpart : e.Part e') :
  Outside t e'
  := by
  cases hpart with
  | write path _ => apply he
  | writeTemporary _ => nomatch he

/-- Effects outside a topology can be cut off anywhere. -/
theorem safe_outside (h : Same t d d') {es : List DiskOp} (hes : ∀ e ∈ es, Outside t e) :
  Safe Disk.apply DiskOp.Part (Same t d) d' es
  := by
  induction es generalizing d' with
  | nil => apply safe_nil h
  | cons e es ih =>
    have he := hes e (mem_cons_self ..)
    apply safe_cons h
    · intro e' hpart
      apply h.apply (he.part hpart)
    · apply ih (h.apply he)
      intro e' he'
      apply hes e' (mem_cons_of_mem e he')

/-! ## Topologies that are backed by segments -/

/-- Recovery can visit the record next to the checkpoint. -/
def Admissible (checkpoint : Option CheckpointManifest) (r : Record) : Prop :=
  ∀ m ∈ checkpoint, ∃ pos, r.position = some pos ∧ Ordered m.position pos

/-- The segments of a topology hold the records `pieces` and `tail`, and perhaps a part of the
record `next`; these are the records `recs` but for those that the checkpoint covers. -/
structure Layout (d : Disk) (t : Topology) (pieces : List (ClosedSegment × List Record))
    (tail : List Record) (summary : SegmentSummary) (next : Option Record)
    (recs : List Record) : Prop where
  closed : t.closed = pieces.map Prod.fst
  held : ∀ p ∈ pieces,
    d.segments p.1.header.path = some ⟨.settled (segmentImage p.1.header p.2), true⟩
  summaries : ∀ p ∈ pieces, Summarizes p.1.header p.2 p.1.summary
  active : ∃ f pre, d.segments t.active.path = some ⟨f, true⟩
    ∧ f.Within (segmentImage t.active tail) (frames t.active next.toList) pre
  summarizes : Summarizes t.active tail summary
  continues : ∀ r ∈ next, ∃ summary', extend t.active summary r = .ok summary'
  replay : recs.filter (afterCheckpoint t.checkpoint)
    = (pieces.flatMap Prod.snd ++ tail).filter (afterCheckpoint t.checkpoint)
  mem : ∀ r ∈ pieces.flatMap Prod.snd ++ tail, r ∈ recs
  admissible : ∀ r ∈ pieces.flatMap Prod.snd ++ tail ++ next.toList,
    Admissible t.checkpoint r
  applied : ∀ m ∈ t.checkpoint, ∃ pos, summary.last.or t.active.previous = some pos
    ∧ m.index ≤ pos.index ∧ m.term ≤ pos.term

/-- The journal is `recs` with the checkpoint, with or without the call in doubt. -/
def Journal.Allows (j : Journal) (recs : List Record) (checkpoint : Option CheckpointManifest) :
    Prop :=
  (recs = j.records ∧ checkpoint = j.checkpoint)
    ∨ ∃ c ∈ j.doubt, recs = (j.after c).records ∧ checkpoint = (j.after c).checkpoint

/-- The topology is backed by segments that the journal allows. -/
def Backs (d : Disk) (t : Topology) (j : Journal) : Prop :=
  ∃ pieces tail summary next recs, Layout d t pieces tail summary next recs
    ∧ j.Allows recs t.checkpoint ∧ ∀ r ∈ next, j.Allows (recs ++ [r]) t.checkpoint

/-- The file is a topology, complete and backed by segments. -/
def Selects (x : Externals) (d : Disk) (f : File) (j : Journal) : Prop :=
  ∃ t bytes, t.encode x = .ok bytes ∧ f = .settled bytes ∧ Backs d t j

/-- Whatever a crash leaves, recovery finds the journal. -/
structure Recoverable (x : Externals) (j : Journal) (d : Disk) : Prop where
  topology : ∃ f, d.topology = some f ∧ Selects x d f j
  renamed : ∀ f, d.renamed = some f → Selects x d f j

theorem Layout.congr (h : Layout d t pieces tail summary next recs)
    (hsame : ∀ path ∈ t.paths, d'.segments path = d.segments path) :
  Layout d' t pieces tail summary next recs
  := by
  refine { h with held := ?_, active := ?_ }
  · intro p hp
    rw [hsame, h.held p hp]
    apply mem_cons_of_mem
    rw [h.closed, map_map]
    apply mem_map_of_mem hp
  · rw [hsame _ (mem_cons_self ..)]
    apply h.active

variable {j : Journal}

theorem Backs.congr (h : Backs d t j)
    (hsame : ∀ path ∈ t.paths, d'.segments path = d.segments path) :
  Backs d' t j
  := by
  obtain ⟨pieces, tail, summary, next, recs, hlayout, hallows⟩ := h
  exact ⟨pieces, tail, summary, next, recs, hlayout.congr hsame, hallows⟩

theorem Backs.mono {j' : Journal} (h : Backs d t j)
    (hmono : ∀ recs checkpoint, j.Allows recs checkpoint → j'.Allows recs checkpoint) :
  Backs d t j'
  := by
  obtain ⟨pieces, tail, summary, next, recs, hlayout, hallows, hnext⟩ := h
  exact ⟨pieces, tail, summary, next, recs, hlayout, hmono _ _ hallows,
    fun r hr => hmono _ _ (hnext r hr)⟩

theorem Recoverable.mono {j' : Journal} (h : Recoverable x j d)
    (hmono : ∀ recs checkpoint, j.Allows recs checkpoint → j'.Allows recs checkpoint) :
  Recoverable x j' d
  := by
  obtain ⟨f, hf, t, bytes, henc, hfile, hbacks⟩ := h.topology
  use ⟨f, hf, t, bytes, henc, hfile, hbacks.mono hmono⟩
  intro f hf
  obtain ⟨t, bytes, henc, hfile, hbacks⟩ := h.renamed f hf
  exact ⟨t, bytes, henc, hfile, hbacks.mono hmono⟩

/-- The call in doubt may not have happened. -/
theorem Journal.allows_before (hdoubt : j.doubt = none) (c : Call) (recs : List Record)
    (checkpoint : Option CheckpointManifest) (h : j.Allows recs checkpoint) :
  Journal.Allows { j with doubt := some c } recs checkpoint
  := by
  rcases h with hfirm | ⟨c', hc', -⟩
  · apply Or.inl hfirm
  · rw [hdoubt] at hc'
    nomatch hc'

/-- The call in doubt may have happened. -/
theorem Journal.allows_after (hdoubt : j.doubt = none) (c : Call) (recs : List Record)
    (checkpoint : Option CheckpointManifest) (h : (j.after c).Allows recs checkpoint) :
  Journal.Allows { j with doubt := some c } recs checkpoint
  := by
  rcases h with hfirm | ⟨c', hc', -⟩
  · exact .inr ⟨c, rfl, hfirm⟩
  · change c' ∈ j.doubt at hc'
    rw [hdoubt] at hc'
    nomatch hc'

theorem recoverable_of_backs {bytes : Bytes} (henc : t.encode x = .ok bytes) (hbacks : Backs d t j)
    (htopology : d.topology = some (.settled bytes)) (hrenamed : d.renamed = none) :
  Recoverable x j d
  := by
  use ⟨_, htopology, t, bytes, henc, rfl, hbacks⟩
  rw [hrenamed]
  nofun

/-- A topology can be replaced by another one, if both are backed by segments. -/
theorem safe_publish {t' : Topology} {bytes bytes' : Bytes} (henc : t.encode x = .ok bytes)
    (hbacks : Backs d t j) (henc' : t'.encode x = .ok bytes') (hbacks' : Backs d t' j)
    (htopology : d.topology = some (.settled bytes)) (hrenamed : d.renamed = none) :
  Safe Disk.apply DiskOp.Part (Recoverable x j) d (publish bytes')
  := by
  have hold : ∀ temporary, Recoverable x j { d with temporary := temporary } := by
    intro temporary
    apply recoverable_of_backs (d := { d with temporary := temporary }) henc
      (hbacks.congr fun _ _ => rfl) htopology hrenamed
  apply safe_cons (hold d.temporary)
  · rintro _ ⟨⟩
    apply hold
  refine safe_cons (hold _) nofun ?_
  refine safe_cons (hold _) nofun ?_
  refine safe_cons ?_ nofun ?_
  · refine ⟨⟨_, htopology, t, bytes, henc, rfl, hbacks.congr fun _ _ => rfl⟩, ?_⟩
    rintro _ ⟨⟩
    exact ⟨t', bytes', henc', rfl, hbacks'.congr fun _ _ => rfl⟩
  · apply safe_nil
    refine recoverable_of_backs henc' (hbacks'.congr ?_) ?_ ?_ <;> intros <;> rfl

theorem Layout.path_ne (h : Layout d t pieces tail summary next recs) (hvalid : Topology.Valid x t)
    {p : ClosedSegment × List Record} (hp : p ∈ pieces) :
  p.1.header.path ≠ t.active.path
  := by
  have hmem : p.1 ∈ t.closed := by
    rw [h.closed]
    apply mem_map_of_mem hp
  have hlt := hvalid.lt_active p.1 hmem
  intro heq
  rw [SegmentHeader.path, Prod.mk.injEq] at heq
  rw [heq.2] at hlt
  apply lt_irrefl _ hlt

theorem segmentImage_concat (h : SegmentHeader) (rs : List Record) (r : Record) :
  segmentImage h (rs ++ [r]) = segmentImage h rs ++ frame h r
  := by
  rw [segmentImage, segmentImage, frames, frames, flatMap_append, flatMap_singleton, append_assoc]

/-- The next record becomes one of the records of the active segment. -/
theorem Layout.extend (h : Layout d t pieces tail summary (some r) recs)
    (hext : Wal.extend t.active summary r = .ok summary')
    (hothers : ∀ p ∈ pieces, d'.segments p.1.header.path = d.segments p.1.header.path)
    (hsettled : d'.segments t.active.path
      = some ⟨.settled (segmentImage t.active (tail ++ [r])), true⟩) :
  Layout d' t pieces (tail ++ [r]) summary' none (recs ++ [r])
  := by
  have hlist : pieces.flatMap Prod.snd ++ (tail ++ [r])
      = pieces.flatMap Prod.snd ++ tail ++ [r] := (append_assoc ..).symm
  obtain ⟨hcheck, -, hadd⟩ := extend_eq_ok.mp hext
  exact {
    closed := h.closed
    held := fun p hp => (hothers p hp).trans (h.held p hp)
    summaries := h.summaries
    active := ⟨_, [], hsettled, File.within_settled _ _⟩
    summarizes := summarizes_concat.mpr ⟨summary, h.summarizes, hext⟩
    continues := nofun
    replay := by rw [hlist, filter_append, h.replay, filter_append _ [r]]
    mem := by
      intro r' hr'
      rw [hlist] at hr'
      rcases mem_append.mp hr' with hr' | hr'
      · apply mem_append_left _ (h.mem r' hr')
      · apply mem_append_right _ hr'
    admissible := by
      rw [hlist, Option.toList_none, append_nil]
      apply h.admissible
    applied := by
      intro m hm
      obtain ⟨before, hbefore, hindex, hterm⟩ := h.applied m hm
      obtain ⟨pos, hpos, -⟩ := h.admissible r (mem_append_right _ (mem_singleton_self r)) m hm
      rw [hbefore, hpos, checkPosition_eq_ok] at hcheck
      refine ⟨pos, ?_, ?_, ?_⟩
      · rw [(SegmentSummary.add_eq_ok hadd).2.1, hpos]
        rfl
      · apply UInt64.le_trans hindex (UInt64.le_of_lt hcheck.1)
      · apply UInt64.le_trans hterm hcheck.2 }

theorem Layout.drop (h : Layout d t pieces tail summary next recs)
    (hothers : ∀ p ∈ pieces, d'.segments p.1.header.path = d.segments p.1.header.path)
    (hsettled : d'.segments t.active.path = some ⟨.settled (segmentImage t.active tail), true⟩) :
  Layout d' t pieces tail summary none recs
  := by
  refine { h with held := ?_, active := ?_, continues := nofun, admissible := ?_ }
  · intro p hp
    apply (hothers p hp).trans (h.held p hp)
  · exact ⟨_, [], hsettled, File.within_settled _ _⟩
  · intro r hr
    rw [Option.toList_none, append_nil] at hr
    apply h.admissible r (mem_append_left _ hr)

/-- The file of the active segment changes within its bounds. -/
theorem Layout.modifyFile (h : Layout d t pieces tail summary next recs)
    (hvalid : Topology.Valid x t) {g : File → File}
    (hg : ∀ f pre, f.Within (segmentImage t.active tail) (frames t.active next.toList) pre →
      ∃ pre', (g f).Within (segmentImage t.active tail) (frames t.active next.toList) pre') :
  Layout (d.modifyFile t.active.path g) t pieces tail summary next recs
  := by
  refine { h with held := ?_, active := ?_ }
  · intro p hp
    apply (Function.update_of_ne (h.path_ne hvalid hp) _ _).trans (h.held p hp)
  · obtain ⟨f, pre, hf, hwithin⟩ := h.active
    obtain ⟨pre', hwithin'⟩ := hg f pre hwithin
    refine ⟨g f, pre', ?_, hwithin'⟩
    apply (Function.update_self ..).trans
    rw [hf]
    rfl

end Kv9.Engine.Wal
