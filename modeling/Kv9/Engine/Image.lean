import Kv9.Engine.Checkpoint
import Kv9.Engine.Refinement
import Kv9.Engine.Sst

/-!
# Checkpoint images

A checkpoint is planned from a frozen view.  A preflight walks the rows of each column family and
cuts them into tables, so that a table of several rows stays below a target; it keeps only the
number of rows and the size of each table.  The tables are then written from the same rows, with
the numbers of the preflight, and named by their digests in a manifest.
-/

namespace Kv9.Engine

open Except OrderedMap Sst Versions View
open List hiding mem_range range

/-- Why a checkpoint is not planned, not uploaded or not restored. -/
inductive CheckpointError where
  | sst (e : SstError)
  | manifest (e : Wal.WalError)
  | sizeOverflow
  | exceedsResident
  | emptyCheckpoint
  | omittedRows
  | sizeMismatch
  | sstTooLarge
  | emptyKey
  | contentMismatch (key : String)
  | bodyTooLarge
  | notVisible
  | missingSst
  | digestMismatch
  | metadataMismatch
deriving DecidableEq

/-! ## The rows of a frozen view -/

namespace Pages

/-- What an iterator hands out until it ends, at most `fuel` rows. -/
def collect (s : Shared) : ℕ → Pages → List ScanEntry
  | 0, _ => []
  | fuel + 1, p =>
    match p.next s with
    | (_, none) => []
    | (p, some e) => e :: collect s fuel p

end Pages

/-- Every live entry of a column family, in ascending order. -/
def View.iterAll (v : View) (cf : ColumnFamily) : Pages := ⟨v, cf, [], none, true, [], false⟩

/-- The rows of a column family that a view shows.  There are no more than stored entries. -/
def View.rows (s : Shared) (v : View) (cf : ColumnFamily) : List ScanEntry :=
  (v.iterAll cf).collect s ((s.trees cf).size + 1)

/-- A view that stays as it is, the position it was taken at and the region it belongs to. -/
structure FrozenFlush where
  shared : Shared
  view : View
  position : AppliedPosition
  scope : FlushScope

/-- The rows of a column family. -/
def FrozenFlush.rows (frozen : FrozenFlush) (cf : ColumnFamily) : List ScanEntry :=
  frozen.view.rows frozen.shared cf

/-! ## The preflight -/

/-- The number of rows and the size of a table. -/
structure TableLayout where
  count : ℕ
  bytes : ℕ
deriving DecidableEq

/-- The tables of each column family, and their size together. -/
structure ImageLayout where
  tables : List (List TableLayout)
  total : ℕ

/-- The preflight within a column family: the table being filled, and the tables cut. -/
structure LayoutState where
  entries : ℕ
  first : ℕ
  last : ℕ
  count : ℕ
  total : ℕ
  tables : List TableLayout

/-- The size above which a table is cut. -/
def sstTarget : ℕ := 8 * 1024 * 1024

/-- Cut the table being filled. -/
def cutTable (st : LayoutState) : Except CheckpointError LayoutState := do
  let bytes ← (tableBytes st.entries st.first st.last).mapError .sst
  return { st with
    total := st.total + bytes
    tables := st.tables ++ [⟨st.count, bytes⟩]
    entries := 0
    count := 0 }

/-- Put a row of the size into the table being filled. -/
def fillTable (limit : ℕ) (st : LayoutState) (row : ScanEntry) (rowSize : ℕ) :
    Except CheckpointError LayoutState := do
  let first := if st.count = 0 then row.1.length else st.first
  let entries ← (addOr .lengthOverflow st.entries rowSize).mapError fun _ => .sizeOverflow
  let last := row.1.length
  let size ← (tableBytes entries first last).mapError .sst
  failIf (CheckpointManifest.maxCheckpointBytes < size ∨ limit - st.total < size) .exceedsResident
  return { st with entries, first, last, count := st.count + 1 }

/-- One row of the preflight.  The sum that is compared with the target saturates. -/
def layoutRow (target limit : ℕ) (st : LayoutState) (row : ScanEntry) :
    Except CheckpointError LayoutState := do
  let rowSize ← (rowBytes .lengthOverflow row).mapError fun _ => .sizeOverflow
  let st ← if target < min (st.entries + rowSize) (2 ^ 64 - 1) ∧ st.count ≠ 0 then cutTable st
    else pure st
  fillTable limit st row rowSize

/-- The preflight of a column family. -/
def layoutFamily (target limit total : ℕ) (rows : List ScanEntry) :
    Except CheckpointError (List TableLayout × ℕ) := do
  let st ← rows.foldlM (layoutRow target limit) ⟨0, 0, 0, 0, total, []⟩
  let st ← if st.count ≠ 0 then cutTable st else pure st
  return (st.tables, st.total)

/-- The preflight of some column families. -/
def layoutFamilies (rows : ColumnFamily → List ScanEntry) (target limit : ℕ) :
    List ColumnFamily → ℕ → Except CheckpointError (List (List TableLayout) × ℕ)
  | [], total => .ok ([], total)
  | cf :: cfs, total => do
    let (tables, total) ← layoutFamily target limit total (rows cf)
    let (rest, total) ← layoutFamilies rows target limit cfs total
    return (tables :: rest, total)

/-- The preflight. -/
def imageLayout (frozen : FrozenFlush) (target limit : ℕ) :
    Except CheckpointError ImageLayout := do
  let (tables, total) ← layoutFamilies frozen.rows target limit ColumnFamily.all 0
  failIf (total = 0) .emptyCheckpoint
  return ⟨tables, total⟩

/-! ## The plan -/

/-- A digit of a digest. -/
def hexDigit (n : ℕ) : Char := Char.ofNat (if n < 10 then 0x30 + n else 0x57 + n)

/-- A byte string in digits. -/
def hex (bytes : Bytes) : String :=
  String.ofList (bytes.flatMap fun b => [hexDigit (b.toNat / 16), hexDigit (b.toNat % 16)])

/-- The digest of an object. -/
def digest (x : Externals) (bytes : Bytes) : String := hex (x.sha256 bytes)

/-- The name of an object; no backend can address the empty one. -/
structure ObjectKey where
  name : String
  ne_empty : name ≠ ""

/-- A name, unless it is empty. -/
def ObjectKey.new (name : String) : Except CheckpointError ObjectKey :=
  if h : name = "" then .error .emptyKey else .ok ⟨name, h⟩

/-- The reference to a written table. -/
def planSst (x : Externals) (scope : FlushScope) (cf : UInt8) (bytes : Bytes) :
    Except CheckpointError (SstReference × Bytes) := do
  failIf (CheckpointManifest.maxCheckpointBytes < bytes.length) .sstTooLarge
  let hash := digest x bytes
  let key ← ObjectKey.new (CheckpointManifest.objectName scope hash)
  let sst ← (Validated.parse bytes).mapError .sst
  return ({
    key := key.name
    sha256 := hash
    cf := cf
    smallest := sst.smallest
    largest := sst.largest
    size := UInt64.ofNat bytes.length
    count := UInt64.ofNat sst.count }, bytes)

/-- Write the tables of a column family, each from the next rows. -/
def encodeFamily (x : Externals) (scope : FlushScope) (cf : ColumnFamily) (id : UInt8) :
    List ScanEntry → List TableLayout → Except CheckpointError (List (SstReference × Bytes))
  | rows, [] => do
    failIf (rows ≠ []) .omittedRows
    return []
  | rows, table :: tables => do
    let bytes ← (encodeBorrowed cf table.count table.bytes (rows.take table.count)).mapError .sst
    let object ← planSst x scope id bytes
    let objects ← encodeFamily x scope cf id (rows.drop table.count) tables
    return object :: objects

/-- Write the tables of all column families. -/
def encodeTables (x : Externals) (frozen : FrozenFlush) (layout : ImageLayout) :
    Except CheckpointError (List (SstReference × Bytes)) := do
  let objects ← (ColumnFamily.all.zipIdx.zip layout.tables).mapM fun ((cf, id), tables) =>
    encodeFamily x frozen.scope cf (UInt8.ofNat id) (frozen.rows cf) tables
  failIf ((objects.flatten.map (·.2.length)).sum ≠ layout.total) .sizeMismatch
  return objects.flatten

/-- The manifest of a checkpoint and the objects it names, in the same order. -/
structure PlannedFlush where
  manifest : CheckpointManifest
  objects : List Bytes

/-- Write the tables of a preflight and their manifest, which must be readable. -/
def encodePlan (x : Externals) (frozen : FrozenFlush) (layout : ImageLayout) :
    Except CheckpointError PlannedFlush := do
  let objects ← encodeTables x frozen layout
  let manifest : CheckpointManifest :=
    ⟨frozen.scope, frozen.position.term, frozen.position.index, objects.map (·.1)⟩
  let bytes ← (manifest.encode x).mapError .manifest
  let _ ← (CheckpointManifest.decode x bytes).mapError .manifest
  return ⟨manifest, objects.map (·.2)⟩

/-- Plan a checkpoint with tables of about `target` bytes, of at most `limit` bytes together. -/
def planWithLimits (x : Externals) (frozen : FrozenFlush) (target limit : ℕ) :
    Except CheckpointError PlannedFlush := do
  let layout ← imageLayout frozen target (min limit CheckpointManifest.maxCheckpointBytes)
  encodePlan x frozen layout

/-- Plan a checkpoint. -/
def plan (x : Externals) (frozen : FrozenFlush) : Except CheckpointError PlannedFlush :=
  planWithLimits x frozen sstTarget CheckpointManifest.maxCheckpointBytes

/-! ## The rows are those the view shows -/

/-- There is a map that a view shows. -/
theorem exists_shows (t : Tree) (version : ℕ) :
  ∃ m, Shows t version m
  := by
  have hstored : ∀ key, (newestSlot t version key).join ≠ none →
      key ∈ (range t .unbounded .unbounded).map (·.1.key) := by
    intro key hne
    obtain ⟨value, hvalue⟩ := Option.ne_none_iff_exists'.mp hne
    rw [Option.join_eq_some_iff, newestSlot_eq_some_iff] at hvalue
    obtain ⟨n, -, hs, -⟩ := hvalue
    apply mem_map.mpr
    exact ⟨(.new key n, some value), mem_range.mpr ⟨hs, rfl, rfl⟩, rfl⟩
  obtain ⟨m, hm⟩ := exists_getElem?_eq hstored
  use m
  intro key
  rw [hm]
  apply sees_newestSlot

variable {s : Shared} {m : OrderedMap Bytes Value} {n : ℕ} {row : ScanEntry} {frozen : FrozenFlush}
  {layout : ImageLayout}

theorem Pages.collect_eq {p : Pages} {fuel : ℕ}
    (h : Shows (s.trees p.cf) p.view.version m) (hfuel : (p.remaining m).length < fuel) :
  p.collect s fuel = p.remaining m
  := by
  induction fuel generalizing p with
  | zero => omega
  | succ fuel ih =>
    obtain ⟨hhead, htail⟩ := next_eq h
    obtain ⟨hview, hcf⟩ := Related.frame_next s p
    rw [← hview, ← hcf] at h
    cases hnext : p.next s with
    | mk q e =>
      simp only [hnext] at hhead htail h
      simp only [collect, hnext]
      cases e with
      | none =>
        rw [eq_comm, List.head?_eq_none_iff] at hhead
        rw [hhead]
      | some e =>
        obtain ⟨rest, hrest⟩ := List.head?_eq_some_iff.mp hhead.symm
        rw [hrest, tail_cons] at htail
        rw [hrest, length_cons] at hfuel
        simp only
        rw [ih h (by rw [htail]; omega), htail, hrest]

theorem View.rows_eq {v : View} {cf : ColumnFamily} (h : Shows (s.trees cf) v.version m) :
  v.rows s cf = m.toList
  := by
  have hremaining : (v.iterAll cf).remaining m = range m (.included []) (stopBound none) := rfl
  have hrange : range m (.included []) (stopBound none) = m.toList := by
    rw [range, filter_eq_self]
    intro e _
    rw [stopBound, Bound.above_unbounded, Bool.and_true, Bound.below_included]
    apply not_lt.mp (not_lt_nil e.1)
  rw [rows, Pages.collect_eq h, hremaining, hrange]
  exact Nat.lt_succ_of_le (h.length_rows_le [] none)

theorem FrozenFlush.ascending_rows (frozen : FrozenFlush) (cf : ColumnFamily) :
  Ascending (frozen.rows cf)
  := by
  obtain ⟨m, hm⟩ := exists_shows (frozen.shared.trees cf) frozen.view.version
  rw [rows, View.rows_eq hm]
  apply ascending_toList

/-! ## The preflight cuts the rows -/

/-- What the preflight keeps of a table. -/
def layoutOf (rows : List ScanEntry) : TableLayout := ⟨rows.length, tableSize rows⟩

/-- Rows that make a table of a checkpoint. -/
structure IsTable (rows : List ScanEntry) : Prop where
  ne_nil : rows ≠ []
  size : tableSize rows ≤ CheckpointManifest.maxCheckpointBytes

/-- The preflight has cut the rows met so far into `groups`, and is filling a table with the
others. -/
structure Cuts (start : ℕ) (st : LayoutState) (groups : List (List ScanEntry))
    (filling : List ScanEntry) : Prop where
  tables : st.tables = groups.map layoutOf
  total : st.total = start + (groups.map tableSize).sum
  isTable : ∀ group ∈ groups, IsTable group
  entries : st.entries = entryBytes filling
  count : st.count = filling.length
  filled : filling ≠ [] → st.first = (smallest filling).length ∧ st.last = (largest filling).length
    ∧ IsTable filling

theorem tableBytes_eq_ok {entries first last : ℕ} (h : tableBytes entries first last = .ok n) :
  n = entries + 22 + first + last
  := by
  simp only [tableBytes, bind_eq_ok, addOr_eq_ok] at h
  obtain ⟨_, ⟨-, rfl⟩, _, ⟨-, rfl⟩, -, rfl⟩ := h
  rfl

theorem rowBytes_eq_ok {e : SstError} (h : rowBytes e row = .ok n) :
  n = row.1.length + row.2.length + 8
  := by
  simp only [rowBytes, bind_eq_ok, addOr_eq_ok] at h
  obtain ⟨_, ⟨-, rfl⟩, -, rfl⟩ := h
  rfl

variable {rows : List ScanEntry} {limit target : ℕ}

section

variable {start : ℕ} {st st' : LayoutState} {groups : List (List ScanEntry)}
  {filling : List ScanEntry}

/-- Cutting makes a table of the rows that were being filled in. -/
theorem Cuts.cutTable (h : Cuts start st groups filling) (hne : filling ≠ [])
    (hcut : cutTable st = .ok st') :
  Cuts start st' (groups ++ [filling]) []
  := by
  simp only [Engine.cutTable, bind_eq_ok, mapError_eq_ok] at hcut
  obtain ⟨bytes, hbytes, hcut⟩ := hcut
  cases hcut
  obtain ⟨hfirst, hlast, htable⟩ := h.filled hne
  have hsize : bytes = tableSize filling := by
    rw [tableBytes_eq_ok hbytes, h.entries, hfirst, hlast, tableSize]
  constructor
  · rw [map_append, ← h.tables, h.count, hsize]
    rfl
  · simp [h.total, hsize, Nat.add_assoc]
  · intro group hgroup
    rcases mem_append.mp hgroup with hgroup | hgroup
    · apply h.isTable group hgroup
    · rw [mem_singleton.mp hgroup]
      exact htable
  · rfl
  · rfl
  · exact fun hnil => absurd rfl hnil

theorem smallest_append (h : rows ≠ []) (row : ScanEntry) :
  smallest (rows ++ [row]) = smallest rows
  := by
  obtain ⟨row', rows, rfl⟩ := exists_cons_of_ne_nil h
  rfl

theorem largest_append (rows : List ScanEntry) (row : ScanEntry) :
  largest (rows ++ [row]) = row.1
  := by
  rw [largest, List.getLast?_concat]
  rfl

theorem entryBytes_append (rows : List ScanEntry) (row : ScanEntry) :
  entryBytes (rows ++ [row]) = entryBytes rows + (row.1.length + row.2.length + 8)
  := by
  rw [entryBytes, map_append, sum_append]
  rfl

theorem Cuts.fillTable (h : Cuts start st groups filling)
    (hfill : fillTable limit st row (row.1.length + row.2.length + 8) = .ok st') :
  Cuts start st' groups (filling ++ [row])
  := by
  simp only [Engine.fillTable, bind_eq_ok, mapError_eq_ok, addOr_eq_ok, failIf_eq_ok] at hfill
  obtain ⟨_, ⟨-, rfl⟩, size, hsize, _, hlimit, hfill⟩ := hfill
  cases hfill
  have hfirst : (if st.count = 0 then row.1.length else st.first)
      = (smallest (filling ++ [row])).length := by
    split_ifs with hcount
    · rw [h.count, length_eq_zero_iff] at hcount
      rw [hcount]
      rfl
    · have hne : filling ≠ [] := by
        rintro rfl
        apply hcount h.count
      rw [(h.filled hne).1, smallest_append hne]
  have htable : size = tableSize (filling ++ [row]) := by
    rw [tableBytes_eq_ok hsize, hfirst, tableSize, largest_append, entryBytes_append, h.entries]
  rw [not_or, not_lt] at hlimit
  constructor
  · exact h.tables
  · exact h.total
  · exact h.isTable
  · rw [entryBytes_append, ← h.entries]
  · rw [length_append, ← h.count]
    rfl
  · intro hne
    refine ⟨hfirst, ?_, hne, ?_⟩
    · rw [largest_append]
    · rw [← htable]
      exact hlimit.1

theorem Cuts.layoutRow (h : Cuts start st groups filling)
    (hrow : layoutRow target limit st row = .ok st') :
  ∃ groups' filling', Cuts start st' groups' filling'
    ∧ groups'.flatten ++ filling' = groups.flatten ++ filling ++ [row]
  := by
  rw [Engine.layoutRow, bind_eq_ok] at hrow
  obtain ⟨rowSize, hsize, hrow⟩ := hrow
  rw [rowBytes_eq_ok (mapError_eq_ok.mp hsize)] at hrow
  split_ifs at hrow with hover
  · have hne : filling ≠ [] := by
      rintro rfl
      apply hover.2 h.count
    obtain ⟨mid, hcut, hfill⟩ := bind_eq_ok.mp hrow
    refine ⟨_, _, (h.cutTable hne hcut).fillTable hfill, ?_⟩
    simp
  · refine ⟨_, _, h.fillTable hrow, ?_⟩
    rw [append_assoc]

theorem Cuts.foldlM (h : Cuts start st groups filling)
    (hrows : rows.foldlM (Engine.layoutRow target limit) st = .ok st') :
  ∃ groups' filling', Cuts start st' groups' filling'
    ∧ groups'.flatten ++ filling' = groups.flatten ++ filling ++ rows
  := by
  induction rows generalizing st groups filling with
  | nil =>
    cases hrows
    use groups, filling, h
    rw [append_nil]
  | cons row rows ih =>
    rw [foldlM_cons, bind_eq_ok] at hrows
    obtain ⟨mid, hrow, hrows⟩ := hrows
    obtain ⟨groups', filling', hmid, hflat⟩ := h.layoutRow hrow
    obtain ⟨groups'', filling'', hend, hflat'⟩ := ih hmid hrows
    use groups'', filling'', hend
    rw [hflat', hflat, append_assoc, singleton_append]

end

/-- The preflight of a column family cuts its rows into tables. -/
theorem layoutFamily_eq_ok {total total' : ℕ} {tables : List TableLayout}
    (h : layoutFamily target limit total rows = .ok (tables, total')) :
  ∃ groups : List (List ScanEntry), groups.flatten = rows ∧ (∀ group ∈ groups, IsTable group)
    ∧ tables = groups.map layoutOf ∧ total' = total + (groups.map tableSize).sum
  := by
  have hstart : Cuts total ⟨0, 0, 0, 0, total, []⟩ [] [] := by
    constructor
    · rfl
    · rfl
    · nofun
    · rfl
    · rfl
    · exact fun hnil => absurd rfl hnil
  rw [layoutFamily, bind_eq_ok] at h
  obtain ⟨st, hrows, h⟩ := h
  obtain ⟨groups, filling, hcuts, hflat⟩ := hstart.foldlM hrows
  rw [flatten_nil, nil_append, nil_append] at hflat
  split_ifs at h with hcount
  · have hne : filling ≠ [] := by
      rintro rfl
      apply hcount hcuts.count
    obtain ⟨st', hcut, h⟩ := bind_eq_ok.mp h
    cases h
    have hlast := hcuts.cutTable hne hcut
    refine ⟨groups ++ [filling], ?_, hlast.isTable, hlast.tables, hlast.total⟩
    rw [flatten_append, flatten_singleton, hflat]
  · cases h
    rw [not_not, hcuts.count, length_eq_zero_iff] at hcount
    rw [hcount, append_nil] at hflat
    use groups, hflat, hcuts.isTable, hcuts.tables, hcuts.total

/-- Rows cut into tables. -/
structure IsCut (rows : ColumnFamily → List ScanEntry)
    (groups : ColumnFamily → List (List ScanEntry)) : Prop where
  flatten : ∀ cf, (groups cf).flatten = rows cf
  isTable : ∀ cf, ∀ group ∈ groups cf, IsTable group

/-- The preflight cuts the rows of each column family into tables, and predicts their sizes. -/
theorem imageLayout_eq_ok (h : imageLayout frozen target limit = .ok layout) :
  ∃ groups, IsCut frozen.rows groups
    ∧ layout.tables = ColumnFamily.all.map (fun cf => (groups cf).map layoutOf)
    ∧ layout.total = ((ColumnFamily.all.flatMap groups).map tableSize).sum
  := by
  simp only [imageLayout, layoutFamilies, ColumnFamily.all, bind_eq_ok, failIf_eq_ok] at h
  obtain ⟨_, ⟨⟨_, _⟩, hdefault, _, ⟨⟨_, _⟩, hlock, _, ⟨⟨_, _⟩, hwrite, _, hnil, h⟩, h'⟩, h''⟩, -, -,
    hlayout⟩ := h
  cases hnil
  cases h
  cases h'
  cases h''
  cases hlayout
  obtain ⟨gs, hflat, htable, rfl, rfl⟩ := layoutFamily_eq_ok hdefault
  obtain ⟨gs', hflat', htable', rfl, rfl⟩ := layoutFamily_eq_ok hlock
  obtain ⟨gs'', hflat'', htable'', rfl, rfl⟩ := layoutFamily_eq_ok hwrite
  refine ⟨fun cf => cf.casesOn gs gs' gs'', ⟨?_, ?_⟩, rfl, ?_⟩
  · rintro (_ | _ | _)
    · exact hflat
    · exact hflat'
    · exact hflat''
  · rintro (_ | _ | _)
    · exact htable
    · exact htable'
    · exact htable''
  · simp [ColumnFamily.all, Nat.add_assoc]

/-! ## The tables are written as predicted -/

theorem length_le_entryBytes (rows : List ScanEntry) :
  8 * rows.length ≤ entryBytes rows
    ∧ ∀ row ∈ rows, row.1.length + row.2.length ≤ entryBytes rows
  := by
  induction rows with
  | nil => simp
  | cons row rows ih =>
    have hcons : entryBytes (row :: rows)
        = row.1.length + row.2.length + 8 + entryBytes rows := rfl
    constructor
    · rw [length_cons]
      omega
    · intro row' hrow'
      rcases mem_cons.mp hrow' with rfl | hmem
      · omega
      · have := ih.2 row' hmem
        omega

/-- A table of a checkpoint can be written. -/
theorem IsTable.fits (h : IsTable rows) (hrows : Ascending rows) :
  Fits .production rows
  := by
  have hsize := h.size
  simp only [tableSize, CheckpointManifest.maxCheckpointBytes] at hsize
  obtain ⟨hcount, hfields⟩ := length_le_entryBytes rows
  constructor
  · exact h.ne_nil
  · exact hrows
  · simp only [Limits.production]
    omega
  · simp only [tableSize, Limits.production]
    omega
  · intro row hrow
    have := hfields row hrow
    simp only [Limits.production]
    omega

/-- A table as an object, with its reference. -/
def object (x : Externals) (scope : FlushScope) (cf : ColumnFamily) (rows : List ScanEntry) :
    SstReference × Bytes :=
  ({ key := CheckpointManifest.objectName scope (digest x (image cf rows))
     sha256 := digest x (image cf rows)
     cf := Wal.cfCode cf
     smallest := smallest rows
     largest := largest rows
     size := UInt64.ofNat (tableSize rows)
     count := UInt64.ofNat rows.length }, image cf rows)

theorem objectName_ne_empty (scope : FlushScope) (hash : String) :
  CheckpointManifest.objectName scope hash ≠ ""
  := by
  intro h
  have hlength := congrArg String.length h
  simp only [CheckpointManifest.objectName, String.length_append] at hlength
  have hclusters : "clusters/".length = 9 := by
    decide
  have hempty : "".length = 0 := by
    decide
  omega

theorem objectKey_new_eq {name : String} (h : name ≠ "") :
  ObjectKey.new name = .ok ⟨name, h⟩
  := dif_neg h

theorem planSst_eq (h : Fits .production rows) (htable : IsTable rows) (x : Externals)
    (scope : FlushScope) (cf : ColumnFamily) :
  planSst x scope (Wal.cfCode cf) (image cf rows) = .ok (object x scope cf rows)
  := by
  have hsize : ¬ CheckpointManifest.maxCheckpointBytes < (image cf rows).length := by
    rw [length_image]
    apply Nat.not_lt.mpr htable.size
  simp only [planSst, failIf_neg hsize, ok_bind, Validated.parse,
    validate_image sound_production h, object, ← length_image cf]
  rfl

/-- The tables of a column family are written from its rows. -/
theorem encodeFamily_eq {groups : List (List ScanEntry)} (htable : ∀ group ∈ groups, IsTable group)
    (hrows : Ascending groups.flatten) (x : Externals) (scope : FlushScope) (cf : ColumnFamily) :
  encodeFamily x scope cf (Wal.cfCode cf) groups.flatten (groups.map layoutOf)
    = .ok (groups.map (object x scope cf))
  := by
  induction groups with
  | nil => rfl
  | cons group groups ih =>
    have hgroup := htable group (mem_cons_self ..)
    have hfits := hgroup.fits (pairwise_append.mp hrows).1
    rw [map_cons, flatten_cons, encodeFamily, layoutOf, encodeBorrowed,
      take_left, drop_left, encodeRows_eq sound_production hfits]
    change (planSst x scope (Wal.cfCode cf) (image cf group) >>= _) = _
    rw [planSst_eq hfits hgroup, ok_bind,
      ih (fun g hg => htable g (mem_cons_of_mem group hg)) (pairwise_append.mp hrows).2.1]
    rfl

/-- The objects of a checkpoint cut into the tables. -/
def objects (x : Externals) (scope : FlushScope) (groups : ColumnFamily → List (List ScanEntry)) :
    List (SstReference × Bytes) :=
  ColumnFamily.all.flatMap fun cf => (groups cf).map (object x scope cf)

/-- What the preflight cuts is written, in objects of exactly the sizes it predicts. -/
theorem encodeTables_eq
    {groups : ColumnFamily → List (List ScanEntry)} (hcut : IsCut frozen.rows groups)
    (htables : layout.tables = ColumnFamily.all.map fun cf => (groups cf).map layoutOf)
    (htotal : layout.total = ((ColumnFamily.all.flatMap groups).map tableSize).sum)
    (x : Externals) :
  encodeTables x frozen layout = .ok (objects x frozen.scope groups)
    ∧ (objects x frozen.scope groups).map (·.2.length) = layout.tables.flatten.map (·.bytes)
    ∧ ((objects x frozen.scope groups).map (·.2.length)).sum = layout.total
  := by
  have hfamily (cf : ColumnFamily) : encodeFamily x frozen.scope cf (Wal.cfCode cf)
      (frozen.rows cf) ((groups cf).map layoutOf) = .ok ((groups cf).map (object x frozen.scope cf)) := by
    have hrows := frozen.ascending_rows cf
    rw [← hcut.flatten] at hrows ⊢
    apply encodeFamily_eq (hcut.isTable cf) hrows
  have hsizes : (objects x frozen.scope groups).map (·.2.length)
      = (ColumnFamily.all.flatMap groups).map tableSize := by
    simp [objects, ColumnFamily.all, Function.comp_def, object, length_image]
  refine ⟨?_, ?_, ?_⟩
  · have hmap : (ColumnFamily.all.zipIdx.zip layout.tables).mapM (fun ((cf, id), tables) =>
        encodeFamily x frozen.scope cf (UInt8.ofNat id) (frozen.rows cf) tables)
        = .ok (ColumnFamily.all.map fun cf => (groups cf).map (object x frozen.scope cf)) := by
      rw [mapM_eq_ok, htables]
      exact .cons (hfamily .default) (.cons (hfamily .lock) (.cons (hfamily .write) .nil))
    have hflatten : (ColumnFamily.all.map fun cf => (groups cf).map (object x frozen.scope cf)).flatten
        = objects x frozen.scope groups := rfl
    have hsum : ¬ ((objects x frozen.scope groups).map (·.2.length)).sum ≠ layout.total := by
      rw [hsizes, htotal]
      exact not_not.mpr rfl
    rw [encodeTables, hmap, ok_bind, hflatten, failIf_neg hsum]
    rfl
  · rw [hsizes, htables]
    simp [ColumnFamily.all, Function.comp_def, layoutOf]
  · rw [hsizes, htotal]

end Kv9.Engine
