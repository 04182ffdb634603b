import Kv9.Engine.Reads
import Kv9.Meta.Store
import Kv9.Meta.KeyOrder

/-!
# Reading the catalog

A transaction reads through its own writes: a point read asks the overlay first, a range merges
the two.  Rows are scanned in pages, each from after the primary key where the last one ended,
and an index is searched backwards for the last entry at or below a bound.

All of them read one ordered map: the view with the overlay's values put in and what it hides
taken out.
-/

namespace Kv9.Meta

open Codec Except OrderedMap List

/-! ## Keys and rows -/

/-- `row_key_suffix`: the primary key of a row's key. -/
def rowKeySuffix (physical : Bytes) : Except Error Bytes := do
  let decoded ← decodeKey physical
  failIf (decoded.userKey.length < 5) (.malformedKey "row key shorter than table header")
  return decoded.userKey.drop 5

/-- `index_key_suffix`: the columns and the primary key of an index entry's key. -/
def indexKeySuffix (physical : Bytes) : Except Error Bytes := do
  let decoded ← decodeKey physical
  failIf (decoded.userKey.length < 6) (.malformedKey "index key shorter than index header")
  return decoded.userKey.drop 6

/-- `pk_types`. -/
def TableDesc.pkTypes (table : TableDesc) : List ColumnType := table.pkColumns.map (·.ty)

/-- A row, with its primary key. -/
structure Row where
  pk : List PkComponent
  value : RowValue

/-- Read an entry of a table as a row. -/
def readRow (table : TableDesc) (e : Bytes × Bytes) : Except Error Row := do
  let suffix ← rowKeySuffix e.1
  let pk ← splitComponents table.pkTypes suffix true
  let value ← RowValue.decode e.2
  validateRow table pk value
  return ⟨pk, value⟩

/-- Where a scan starts and stops.  A cursor is a complete primary key; the scan starts after
it. -/
def scanBounds (table : TableDesc) (after : Option (List PkComponent)) :
    Except Error (Bytes × Bytes) := do
  let (start, stop) ← rowRange table.id
  match after with
  | none => return (start, stop)
  | some pk =>
    let key ← encodeRowKey table.id pk
    let suffix ← rowKeySuffix key
    let decoded ← splitComponents table.pkTypes suffix true
    failIf (decoded ≠ pk) (.malformedKey "invalid catalog scan cursor")
    return (key ++ [0], stop)

namespace Txn

/-- `merged_scan`. -/
def mergedScan (t : Txn) (start stop : Bytes) (limit : ℕ) : List (Bytes × Bytes) :=
  (t.mergedRange start stop false).take limit

/-- `scan_after`. -/
def scanAfter (t : Txn) (table : TableDesc) (after : Option (List PkComponent)) (limit : ℕ) :
    Except Error (List Row) := do
  let (start, stop) ← scanBounds table after
  (t.mergedScan start stop limit).mapM (readRow table)

/-- The rows of the pages of a scan: each page starts where the last one ended, and a page that
is not full is the last. -/
def scanPages (t : Txn) (table : TableDesc) (limit : ℕ) :
    ℕ → Option (List PkComponent) → Except Error (List Row)
  | 0, _ => .ok []
  | fuel + 1, after => do
    let rows ← t.scanAfter table after limit
    match rows.getLast? with
    | some row =>
      if rows.length < limit then return rows
      else
        let more ← scanPages t table limit fuel (some row.pk)
        return rows ++ more
    | none => return rows

/-- `index_entries`. -/
def indexEntries (t : Txn) (table : TableDesc) (index : IndexId) (lead : List PkComponent)
    (limit : ℕ) : Except Error (List (Bytes × Bytes)) := do
  let (start, stop) ← indexPrefixRange table.id index lead
  (t.mergedScan start stop limit).mapM fun e => do
    let suffix ← indexKeySuffix e.1
    return (suffix, e.2)

/-- `index_rev_first_le`. -/
def indexRevFirstLe (t : Txn) (table : TableDesc) (index : IndexId) (lead : List PkComponent)
    (bound : PkComponent) : Except Error (Option (Bytes × Bytes)) := do
  let (start, _) ← indexPrefixRange table.id index lead
  let boundKey ← encodeIndexKey table.id index (lead ++ [bound]) []
  match (t.mergedRange start (prefixSuccessor boundKey) true).head? with
  | none => return none
  | some (key, value) =>
    let suffix ← indexKeySuffix key
    return some (suffix, value)

/-! ## The one map -/

/-- The view with the overlay's values put in and what it hides taken out. -/
def merged (t : Txn) : OrderedMap Bytes Bytes := Overlay.override t.overlay t.view

theorem getElem?_merged (t : Txn) (key : Bytes) :
  t.merged[key]? = t.readKv key
  := Overlay.getElem?_override key

theorem mergedRange_eq (t : Txn) (start stop : Bytes) (rev : Bool) :
  t.mergedRange start stop rev
    = if rev then (range t.merged (.included start) (.excluded stop)).reverse
      else range t.merged (.included start) (.excluded stop)
  := Overlay.range_eq start stop rev

theorem mergedScan_eq (t : Txn) (start stop : Bytes) (limit : ℕ) :
  t.mergedScan start stop limit
    = (range t.merged (.included start) (.excluded stop)).take limit
  := by
  rw [mergedScan, mergedRange_eq, if_neg Bool.false_ne_true]

end Txn

/-! ## Scans in pages -/

/-- The rows within the bounds of a scan. -/
def Txn.rowsAfter (t : Txn) (table : TableDesc) (after : Option (List PkComponent)) :
    Except Error (List Row) := do
  let (start, stop) ← scanBounds table after
  (range t.merged (.included start) (.excluded stop)).mapM (readRow table)

theorem rowKeySuffix_tableHeader (table : TableId) (marker : UInt8) (suffix : Bytes) :
  rowKeySuffix (tableHeader table marker ++ suffix) = .ok suffix
  := by
  have hlen : (be32 table ++ ([marker] ++ suffix)).length = 5 + suffix.length := by
    simp only [length_append, length_be32, length_singleton]
    omega
  have hdrop : (be32 table ++ ([marker] ++ suffix)).drop 5 = suffix := by
    rfl
  have hdecode : decodeKey (tableHeader table marker ++ suffix)
      = .ok ⟨.system, systemKeyspace, be32 table ++ ([marker] ++ suffix)⟩ := by
    rfl
  rw [rowKeySuffix, hdecode, ok_bind]
  simp only [hdrop, hlen]
  rw [failIf_neg (by omega), ok_bind, pure_eq_ok]

variable {buf : Bytes}

/-- An escaped byte string that was taken off the front was there. -/
theorem eq_append_of_splitBytesComponent {payload rest : Bytes}
    (h : splitBytesComponent buf = .ok (payload, rest)) :
  buf = memcmpBytes payload ++ rest
  := by
  fun_induction splitBytesComponent buf generalizing payload with
  | case1 => cases h
  | case2 b buf hb ih =>
    obtain ⟨⟨payload', rest'⟩, hsplit, hpair⟩ := bind_eq_ok.mp h
    cases hpair
    rw [ih hsplit, memcmpBytes, memcmpBytes, flatMap_cons, if_neg hb]
    rfl
  | case3 b hb buf ih =>
    obtain ⟨⟨payload', rest'⟩, hsplit, hpair⟩ := bind_eq_ok.mp h
    cases hpair
    rw [not_not.mp hb, ih hsplit]
    rfl
  | case4 b hb buf hne =>
    cases h
    rw [not_not.mp hb]
    rfl
  | case5 => cases h
  | case6 => cases h

/-- A component that was taken off the front was there. -/
theorem eq_append_of_splitComponent {ty : ColumnType} {rest : Bytes} {comp : PkComponent}
    (h : splitComponent ty buf = .ok (comp, rest)) :
  buf = comp ++ rest
  := by
  have hbytes : ∀ {payload rest : Bytes}, splitBytesComponent buf = .ok (payload, rest) →
      buf = buf.take (buf.length - rest.length) ++ rest := by
    intro payload rest hsplit
    obtain rfl := eq_append_of_splitBytesComponent hsplit
    rw [length_append, Nat.add_sub_cancel, take_left' rfl]
  cases ty with
  | uint =>
    simp only [splitComponent, bind_eq_ok] at h
    obtain ⟨⟨⟩, -, hpair⟩ := h
    cases hpair
    apply (take_append_drop 8 buf).symm
  | _ =>
    simp only [splitComponent, bind_eq_ok] at h
    obtain ⟨⟨payload, rest'⟩, hsplit, hpair⟩ := h
    cases hpair
    apply hbytes hsplit

/-- The components a key is split into make up the key. -/
theorem flatten_of_splitComponents {types : List ColumnType} {comps : List PkComponent}
    (h : splitComponents types buf true = .ok comps) :
  comps.flatten = buf
  := by
  induction types generalizing buf comps with
  | nil =>
    simp only [splitComponents, bind_eq_ok, failIf_eq_ok, true_and] at h
    obtain ⟨⟨⟩, hend, hcomps⟩ := h
    cases hcomps
    apply (not_not.mp hend).symm
  | cons ty types ih =>
    simp only [splitComponents, bind_eq_ok] at h
    obtain ⟨⟨comp, rest⟩, hsplit, comps', hrest, hcomps⟩ := h
    cases hcomps
    rw [flatten_cons, ih hrest, eq_append_of_splitComponent hsplit]

variable {table : TableDesc}

/-- The primary key of a row that was read is a cursor: its key is the key of the entry. -/
theorem scanBounds_of_readRow {e : Bytes × Bytes} {row : Row}
    (hkey : ∃ suffix, e.1 = tableHeader table.id rowMarker ++ suffix)
    (h : readRow table e = .ok row) :
  scanBounds table (some row.pk) = .ok (e.1.next, tableHeader table.id (rowMarker + 1))
  := by
  obtain ⟨suffix, hsuffix⟩ := hkey
  simp only [readRow, bind_eq_ok] at h
  obtain ⟨suffix', hsuffix', pk, hpk, value, -, ⟨⟩, -, hrow⟩ := h
  rw [hsuffix] at hsuffix'
  cases hsuffix'
  cases hrow
  have hflat := flatten_of_splitComponents hpk
  rw [scanBounds]
  simp only [encodeRowKey_eq, ok_bind, rowKey, hflat, rowKeySuffix_tableHeader, hpk]
  rw [failIf_neg (not_not.mpr rfl), hsuffix]
  rfl

/-- The last row that was read is the last entry. -/
theorem getLast?_of_mapM {γ δ : Type} {f : γ → Except Error δ} {xs : List γ} {ys : List δ}
    (h : xs.mapM f = .ok ys) {y : δ} (hy : ys.getLast? = some y) :
  ∃ x, xs.getLast? = some x ∧ f x = .ok y
  := by
  induction xs using List.reverseRecOn with
  | nil =>
    cases h
    nomatch hy
  | append_singleton xs x ih =>
    rw [mapM_append, bind_eq_ok] at h
    obtain ⟨ys', -, h⟩ := h
    obtain ⟨zs, hzs, hys⟩ := bind_eq_ok.mp h
    obtain ⟨z, hz, rfl⟩ : ∃ z, f x = .ok z ∧ [z] = zs := by
      simpa [mapM_cons, bind_eq_ok, pure_eq_ok] using hzs
    cases hys
    rw [List.getLast?_concat, Option.some.injEq] at hy
    use x, List.getLast?_concat
    rw [hz, hy]

variable {after : Option (List PkComponent)}

/-- The keys within the bounds of a scan are the keys of rows of the table. -/
theorem key_of_scanBounds {start stop : Bytes} (h : scanBounds table after = .ok (start, stop)) :
  stop = tableHeader table.id (rowMarker + 1)
    ∧ ∀ key, start ≤ key → key < stop → ∃ suffix, key = tableHeader table.id rowMarker ++ suffix
  := by
  have hstart : stop = tableHeader table.id (rowMarker + 1)
      ∧ tableHeader table.id rowMarker ≤ start := by
    rw [scanBounds, rowRange_eq] at h
    cases after with
    | none =>
      cases h
      use rfl, le_rfl
    | some pk =>
      simp only [encodeRowKey_eq, ok_bind, bind_eq_ok] at h
      obtain ⟨suffix, -, decoded, -, ⟨⟩, -, hbounds⟩ := h
      cases hbounds
      use rfl
      apply le_append
  use hstart.1
  intro key hle hlt
  apply mem_rowRange.mp
  use hstart.2.trans hle, hstart.1 ▸ hlt

/-- Pages, one after another, have the rows of the one map, if there are pages enough. -/
theorem Txn.scanPages_eq (t : Txn) (table : TableDesc) {limit : ℕ} (hlimit : 0 < limit) {fuel : ℕ}
    (hpos : 0 < fuel) (hfuel : ∀ start stop, scanBounds table after = .ok (start, stop) →
      (range t.merged (.included start) (.excluded stop)).length < fuel) :
  t.scanPages table limit fuel after = t.rowsAfter table after
  := by
  induction fuel generalizing after with
  | zero => omega
  | succ fuel ih =>
    rw [scanPages, scanAfter, rowsAfter]
    cases hbounds : scanBounds table after with
    | error reason => rfl
    | ok bounds =>
      obtain ⟨start, stop⟩ := bounds
      have hlen := hfuel start stop hbounds
      obtain ⟨hstop, hkeys⟩ := key_of_scanBounds hbounds
      rw [ok_bind, ok_bind]
      simp only [mergedScan_eq]
      generalize hentries : range t.merged (.included start) (.excluded stop) = entries at hlen ⊢
      rw [← take_append_drop limit entries, mapM_append, take_append_drop]
      cases hpage : (entries.take limit).mapM (readRow table) with
      | error reason => rfl
      | ok rows =>
        have hrows : rows.length = min limit entries.length := by
          rw [(mapM_eq_ok.mp hpage).length_eq.symm, length_take]
        rw [ok_bind, ok_bind]
        cases hlast : rows.getLast? with
        | none =>
          rw [List.getLast?_eq_none_iff] at hlast
          subst hlast
          have hnil : entries = [] := length_eq_zero_iff.mp (by
            rw [length_nil] at hrows
            omega)
          subst hnil
          rw [drop_nil]
          rfl
        | some row =>
          simp only
          split_ifs with hshort
          · -- a short page is the last
            rw [drop_of_length_le (by omega), mapM_nil, pure_eq_ok, pure_eq_ok, ok_bind, append_nil]
            rfl
          · -- the next page starts after the last row of this one
            obtain ⟨e, he, hread⟩ := getLast?_of_mapM hpage hlast
            have hmem : e ∈ range t.merged (.included start) (.excluded stop) :=
              hentries ▸ mem_of_mem_take (mem_of_getLast? he)
            obtain ⟨-, hlow, hhigh⟩ := mem_range.mp hmem
            have hnext : scanBounds table (some row.pk) = .ok (e.1.next, stop) := by
              rw [hstop]
              apply scanBounds_of_readRow _ hread
              apply hkeys e.1 (Bound.below_included.mp hlow) (Bound.above_excluded.mp hhigh)
            have hdrop : range t.merged (.included e.1.next) (.excluded stop)
                = entries.drop limit := by
              rw [← hentries] at he ⊢
              apply Engine.Pages.range_next_eq_drop he
            rw [ih, rowsAfter, hnext]
            · simp [hdrop]
            · omega
            · rintro start' stop' hbounds'
              rw [hnext] at hbounds'
              cases hbounds'
              rw [hdrop, length_drop]
              omega

/-- The entries of a table after a cursor, as the one map has them. -/
def Txn.entriesAfter (t : Txn) (table : TableDesc) (after : Option (List PkComponent)) :
    List (Bytes × Bytes) :=
  t.merged.toList.filter fun e =>
    decide (tableHeader table.id rowMarker <+: e.1 ∧ ∀ pk ∈ after, rowKey table.id pk < e.1)

/-- The bounds of a scan are about the entries of the table after the cursor. -/
theorem Txn.range_scanBounds (t : Txn) {start stop : Bytes}
    (h : scanBounds table after = .ok (start, stop)) :
  range t.merged (.included start) (.excluded stop) = t.entriesAfter table after
  := by
  have hrow : ∀ key : Bytes, tableHeader table.id rowMarker <+: key
      ↔ tableHeader table.id rowMarker ≤ key ∧ key < tableHeader table.id (rowMarker + 1) := by
    intro key
    rw [mem_rowRange]
    apply exists_congr fun suffix => eq_comm
  apply filter_congr
  intro e _
  rw [Bool.eq_iff_iff, Bool.and_eq_true, Bound.below_included, Bound.above_excluded,
    decide_eq_true_eq, hrow]
  rw [scanBounds, rowRange_eq] at h
  cases after with
  | none =>
    cases h
    simp
  | some pk =>
    simp only [encodeRowKey_eq, ok_bind, bind_eq_ok] at h
    obtain ⟨suffix, -, decoded, -, ⟨⟩, -, hbounds⟩ := h
    cases hbounds
    have hlow : tableHeader table.id rowMarker ≤ rowKey table.id pk := le_append ..
    have hafter : rowKey table.id pk ++ [0] ≤ e.1 ↔ rowKey table.id pk < e.1 := Bytes.next_le_iff
    simp only [hafter, Option.mem_some_iff, forall_eq']
    constructor
    · rintro ⟨hlt, hstop⟩
      use ⟨hlow.trans hlt.le, hstop⟩, hlt
    · rintro ⟨⟨-, hstop⟩, hlt⟩
      use hlt, hstop

/-- What is read within the bounds of a scan is read after the cursor. -/
theorem Txn.bind_range_scanBounds {γ : Type} (t : Txn) (table : TableDesc)
    (after : Option (List PkComponent)) (f : List (Bytes × Bytes) → Except Error γ) :
  (do
    let (start, stop) ← scanBounds table after
    f (range t.merged (.included start) (.excluded stop))) = (do
    let _ ← scanBounds table after
    f (t.entriesAfter table after))
  := by
  cases hbounds : scanBounds table after with
  | error reason => rfl
  | ok bounds =>
    rw [ok_bind]
    simp [t.range_scanBounds hbounds]

/-! ## Searching an index backwards -/

theorem indexKeySuffix_indexKey (table : TableId) (index : IndexId) (cols pk : List PkComponent)
    (rest : Bytes) :
  indexKeySuffix (indexKey table index cols pk ++ rest) = .ok (cols.flatten ++ pk.flatten ++ rest)
  := by
  have hlen : (be32 table ++ ([indexMarker, index] ++ (cols.flatten ++ pk.flatten ++ rest))).length
      = 6 + (cols.flatten ++ pk.flatten ++ rest).length := by
    rw [length_append, length_be32, length_append, length_cons, length_singleton]
    omega
  have hdrop : (be32 table ++ ([indexMarker, index] ++ (cols.flatten ++ pk.flatten ++ rest))).drop 6
      = cols.flatten ++ pk.flatten ++ rest := by
    rfl
  have hdecode : decodeKey (indexKey table index cols pk ++ rest) = .ok ⟨.system, systemKeyspace,
      be32 table ++ ([indexMarker, index] ++ (cols.flatten ++ pk.flatten ++ rest))⟩ := by
    rfl
  rw [indexKeySuffix, hdecode, ok_bind]
  simp only [hdrop, hlen]
  rw [failIf_neg (by omega), ok_bind, pure_eq_ok]

/-- A byte string below the successor of another is below it or starts with it. -/
theorem lt_prefixSuccessor_iff {key : Bytes} (hbuf : ∃ b ∈ buf, b ≠ 0xff) :
  key < prefixSuccessor buf ↔ key < buf ∨ buf <+: key
  := by
  constructor
  · intro hlt
    rcases lt_or_ge key buf with hbelow | hle
    · apply Or.inl hbelow
    · obtain ⟨suffix, rfl⟩ := (le_and_lt_prefixSuccessor_iff hbuf).mp ⟨hle, hlt⟩
      apply Or.inr (prefix_append ..)
  · rintro (hbelow | ⟨suffix, rfl⟩)
    · have hself := ((le_and_lt_prefixSuccessor_iff hbuf).mpr ⟨[], (append_nil buf).symm⟩).2
      apply hbelow.trans hself
    · apply ((le_and_lt_prefixSuccessor_iff hbuf).mpr ⟨suffix, rfl⟩).2

theorem exists_ne_indexKey (table : TableId) (index : IndexId) (cols pk : List PkComponent) :
  ∃ b ∈ indexKey table index cols pk, b ≠ 0xff
  := by
  simp [indexKey, tableHeader]

/-- The entries of an index whose columns start with `lead` and are at or below a bound in the
next one: those whose key starts like the lead's, and is below the bound's or starts with it. -/
def AtOrBelow (table : TableId) (index : IndexId) (lead : List PkComponent) (bound : PkComponent)
    (key : Bytes) : Prop :=
  indexKey table index lead [] <+: key
    ∧ (key < indexKey table index (lead ++ [bound]) []
      ∨ indexKey table index (lead ++ [bound]) [] <+: key)

instance (table : TableId) (index : IndexId) (lead : List PkComponent) (bound : PkComponent)
    (key : Bytes) : Decidable (AtOrBelow table index lead bound key) :=
  inferInstanceAs (Decidable (_ ∧ _))

theorem atOrBelow_iff {table : TableId} {index : IndexId} {lead : List PkComponent}
    {bound : PkComponent} {key : Bytes} :
  AtOrBelow table index lead bound key
    ↔ indexKey table index lead [] ≤ key
      ∧ key < prefixSuccessor (indexKey table index (lead ++ [bound]) [])
  := by
  have hlead : indexKey table index (lead ++ [bound]) []
      = indexKey table index lead [] ++ bound := by
    simp [indexKey]
  rw [lt_prefixSuccessor_iff (exists_ne_indexKey ..)]
  constructor
  · rintro ⟨⟨suffix, rfl⟩, hbound⟩
    use le_append ..
  · rintro ⟨hle, hbound⟩
    refine ⟨?_, hbound⟩
    rcases hbound with hlt | hprefix
    · have habove : indexKey table index lead [] ++ bound
          < prefixSuccessor (indexKey table index lead []) :=
        (lt_prefixSuccessor_iff (exists_ne_indexKey ..)).mpr (.inr (prefix_append ..))
      obtain ⟨suffix, rfl⟩ := (le_and_lt_prefixSuccessor_iff (exists_ne_indexKey ..)).mp
        ⟨hle, hlt.trans (hlead ▸ habove)⟩
      apply prefix_append
    · rw [hlead] at hprefix
      apply (prefix_append ..).trans hprefix

/-- An index entry without what its key starts with: the columns and the primary key. -/
def entrySuffix (e : Bytes × Bytes) : Bytes × Bytes := (e.1.drop 10, e.2)

theorem indexKeySuffix_of_shared {table : TableId} {index : IndexId} {lead : List PkComponent}
    {key : Bytes} (h : indexKey table index lead [] <+: key) :
  indexKeySuffix key = .ok (key.drop 10)
  := by
  obtain ⟨rest, rfl⟩ := h
  have hlen : (tableHeader table indexMarker ++ [index]).length = 10 := by
    rfl
  have hdrop : (indexKey table index lead [] ++ rest).drop 10
      = lead.flatten ++ List.flatten [] ++ rest := by
    rw [indexKey, ← append_assoc, append_assoc, drop_left' hlen]
  rw [indexKeySuffix_indexKey, hdrop]

namespace Txn

/-- The entries of an index under a lead are those of the one map, in order. -/
theorem indexEntries_eq (t : Txn) (table : TableDesc) (index : IndexId) (lead : List PkComponent)
    (limit : ℕ) :
  t.indexEntries table index lead limit
    = .ok (((t.merged.toList.filter fun e =>
        decide (indexKey table.id index lead [] <+: e.1)).take limit).map entrySuffix)
  := by
  rw [indexEntries, indexPrefixRange_eq, ok_bind]
  simp only [mergedScan_eq]
  have hrange : range t.merged (.included (indexKey table.id index lead []))
      (.excluded (prefixSuccessor (indexKey table.id index lead [])))
      = t.merged.toList.filter fun e => decide (indexKey table.id index lead [] <+: e.1) := by
    apply filter_congr
    intro e _
    rw [Bool.eq_iff_iff, Bool.and_eq_true, Bound.below_included, Bound.above_excluded,
      mem_indexPrefixRange, decide_eq_true_eq]
    apply exists_congr fun suffix => eq_comm
  rw [hrange, mapM_eq_ok, forall₂_map_right_iff, forall₂_same]
  intro e he
  have hprefix := of_decide_eq_true (mem_filter.mp (mem_of_mem_take he)).2
  rw [indexKeySuffix_of_shared hprefix]
  rfl

/-- The backwards search finds the greatest entry of the one map at or below the bound, among
those under the lead. -/
theorem indexRevFirstLe_eq (t : Txn) (table : TableDesc) (index : IndexId)
    (lead : List PkComponent) (bound : PkComponent) :
  t.indexRevFirstLe table index lead bound
    = .ok ((t.merged.toList.filter fun e =>
        decide (AtOrBelow table.id index lead bound e.1)).getLast?.map entrySuffix)
  := by
  rw [indexRevFirstLe, indexPrefixRange_eq]
  simp only [encodeIndexKey_eq, ok_bind, mergedRange_eq, if_true, List.head?_reverse]
  have hrange : range t.merged (.included (indexKey table.id index lead []))
      (.excluded (prefixSuccessor (indexKey table.id index (lead ++ [bound]) [])))
      = t.merged.toList.filter fun e => decide (AtOrBelow table.id index lead bound e.1) := by
    apply filter_congr
    intro e _
    rw [Bool.eq_iff_iff, Bool.and_eq_true, Bound.below_included, Bound.above_excluded,
      ← atOrBelow_iff, decide_eq_true_eq]
  rw [hrange]
  cases hlast : (t.merged.toList.filter fun e =>
      decide (AtOrBelow table.id index lead bound e.1)).getLast? with
  | none => rfl
  | some e =>
    have hmem := of_decide_eq_true (mem_filter.mp (mem_of_getLast? hlast)).2
    simp only
    rw [indexKeySuffix_of_shared hmem.1]
    rfl

end Txn

/-- What a transaction reads is what one ordered map has, the view overridden by the overlay: a
point read, a range in either direction with any bounds and limit, a page of rows, all pages
one after another from any cursor, the entries of an index, and the greatest entry of an index
at or below a bound. -/
theorem reads_one_map (t : Txn) :
  (∀ key, t.readKv key = t.merged[key]?)
    ∧ (∀ start stop rev limit, (t.mergedRange start stop rev).take limit
      = (if rev then (range t.merged (.included start) (.excluded stop)).reverse
        else range t.merged (.included start) (.excluded stop)).take limit)
    ∧ (∀ table after limit, t.scanAfter table after limit = do
      let _ ← scanBounds table after
      ((t.entriesAfter table after).take limit).mapM (readRow table))
    ∧ (∀ table after limit, 0 < limit → ∀ fuel, t.merged.size < fuel →
      t.scanPages table limit fuel after = do
        let _ ← scanBounds table after
        (t.entriesAfter table after).mapM (readRow table))
    ∧ (∀ table index lead limit, t.indexEntries table index lead limit
      = .ok (((t.merged.toList.filter fun e =>
        decide (indexKey table.id index lead [] <+: e.1)).take limit).map entrySuffix))
    ∧ ∀ table index lead bound, t.indexRevFirstLe table index lead bound
      = .ok ((t.merged.toList.filter fun e =>
        decide (AtOrBelow table.id index lead bound e.1)).getLast?.map entrySuffix)
  := by
  refine ⟨fun key => (t.getElem?_merged key).symm, ?_, ?_, ?_, t.indexEntries_eq,
    t.indexRevFirstLe_eq⟩
  · intro start stop rev limit
    rw [t.mergedRange_eq]
  · intro table after limit
    simp only [Txn.scanAfter, Txn.mergedScan_eq]
    apply t.bind_range_scanBounds table after fun es => (es.take limit).mapM (readRow table)
  · intro table after limit hlimit fuel hfuel
    rw [t.scanPages_eq table hlimit (Nat.zero_lt_of_lt hfuel)]
    · apply t.bind_range_scanBounds
    · intro start stop _
      apply lt_of_le_of_lt (length_range_le ..) hfuel

/-- A transaction that hides the first of two rows. -/
def hidesFirst : Txn :=
  ⟨((∅ : OrderedMap Bytes Bytes).insert (rowKey idSequences [memcmpUint 1]) []).insert
      (rowKey idSequences [memcmpUint 2]) [],
    (∅ : OrderedMap Bytes (Option Bytes)).insert (rowKey idSequences [memcmpUint 1]) none⟩

/-- The pages of the transaction have the second row only. -/
theorem reads_one_map_hidesFirst :
  hidesFirst.scanPages idSequencesDesc 1 3 none = (do
      let _ ← scanBounds idSequencesDesc none
      (hidesFirst.entriesAfter idSequencesDesc none).mapM (readRow idSequencesDesc))
    ∧ (hidesFirst.entriesAfter idSequencesDesc none).map Prod.fst = [rowKey idSequences [memcmpUint 2]]
  := by
  constructor
  · apply (reads_one_map hidesFirst).2.2.2.1 idSequencesDesc none 1 (by decide) 3
    decide
  · decide

end Kv9.Meta
