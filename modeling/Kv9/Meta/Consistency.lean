import Kv9.Meta.Store

/-!
# Consistent catalogs

A catalog is consistent when every row can be read and is valid, when the index entries are
exactly those of the rows, when no unique index has two rows for one tuple of columns, and when
every reference points at a row.  A call replaces one row by another, or by none, together with
its index entries, and such a replacement keeps a catalog consistent.
-/

namespace Kv9.Meta

open Codec Except

/-- The parts of a primary key have the types of its columns. -/
def WellKeyed (t : TableDesc) (pk : List PkComponent) : Prop :=
  List.Forall₂ IsComponent (t.pkColumns.map (·.ty)) pk

/-- A row that can be read. -/
def Live (M : Bytes → Option Bytes) (t : TableDesc) (pk : List PkComponent) (v : RowValue) :
    Prop :=
  WellKeyed t pk ∧ ∃ bytes, M (rowKey t.id pk) = some bytes ∧ RowValue.decode bytes = .ok v

/-- The entry of a row in an index. -/
def IndexEntry (t : TableDesc) (index : IndexDesc) (pk : List PkComponent) (v : RowValue)
    (key value : Bytes) : Prop :=
  ∃ cols, indexColumns t index v = .ok cols
    ∧ key = indexKey t.id index.id cols (if index.unique then [] else pk)
    ∧ value = if index.unique then indexValue pk else []

/-- Every row can be read, and is valid. -/
def RowsReadable (M : Bytes → Option Bytes) : Prop :=
  ∀ t ∈ allTables, ∀ suffix bytes, M (tableHeader t.id rowMarker ++ suffix) = some bytes →
    ∃ pk v, WellKeyed t pk ∧ suffix = pk.flatten ∧ RowValue.decode bytes = .ok v
      ∧ validateRow t pk v = .ok ()

/-- The index entries are those of the rows. -/
def EntriesExact (M : Bytes → Option Bytes) : Prop :=
  ∀ t ∈ allTables, ∀ suffix value, M (tableHeader t.id indexMarker ++ suffix) = some value
    ↔ ∃ index ∈ t.indexes, ∃ pk v, Live M t pk v
      ∧ IndexEntry t index pk v (tableHeader t.id indexMarker ++ suffix) value

/-- The catalog is consistent. -/
structure Consistent (M : Bytes → Option Bytes) : Prop where
  rows : RowsReadable M
  entries : EntriesExact M
  /-- A unique index has one row for a tuple of columns. -/
  unique : ∀ t ∈ allTables, ∀ index ∈ t.indexes, index.unique = true → ∀ pk v pk' v',
    Live M t pk v → Live M t pk' v' → indexColumns t index v = indexColumns t index v' → pk = pk'
  /-- A reference points at a row. -/
  references : ∀ t ∈ allTables, ∀ pk v, Live M t pk v → ∀ fk ∈ t.fks,
    ∃ id, v.get fk.column = some (.uint id) ∧ ∃ parent ∈ allTables, parent.id = fk.references
        ∧ ∃ v', Live M parent [memcmpUint id] v'

variable {M M' : Bytes → Option Bytes} {t t' : TableDesc} {pk pk' : List PkComponent}
  {v v' : RowValue} {index index' : IndexDesc} {key value : Bytes}

/-! ## Rows and entries are told apart by their keys -/

theorem WellKeyed.eq_of_flatten (h : WellKeyed t pk) (h' : WellKeyed t pk')
    (heq : pk.flatten = pk'.flatten) :
  pk = pk'
  := by
  apply (PrefixFree.flatten prefixFree_isComponent h h' _).1
  · exact []
  · exact []
  · rw [heq]

theorem rowKey_inj (ht : t ∈ allTables) (ht' : t' ∈ allTables) (hpk : WellKeyed t pk)
    (hpk' : WellKeyed t' pk') (h : rowKey t.id pk = rowKey t'.id pk') :
  t = t' ∧ pk = pk'
  := by
  obtain ⟨hid, -, hflatten⟩ := tableHeader_append_inj h
  obtain rfl := eq_of_id_eq ht ht' hid
  use rfl, hpk.eq_of_flatten hpk' hflatten

theorem Live.unique (h : Live M t pk v) (h' : Live M t pk v') :
  v = v'
  := by
  obtain ⟨-, bytes, hbytes, hdecode⟩ := h
  obtain ⟨-, bytes', hbytes', hdecode'⟩ := h'
  cases hbytes.symm.trans hbytes'
  cases hdecode.symm.trans hdecode'
  rfl

theorem Live.fits (h : Live M t pk v) :
  v.Fits
  := by
  obtain ⟨-, _, -, hdecode⟩ := h
  apply RowValue.fits_of_decode hdecode

/-- The type a table declares for a column. -/
def TableDesc.typeOf (t : TableDesc) (id : ColumnId) : ColumnType :=
  match t.columns.find? (·.id = id) with
  | some column => column.ty
  | none => .bytes

theorem component_of_hasType {x : ColumnValue} {ty : ColumnType} (h : x.hasType ty = true) :
  ∃ c, x.component = some c ∧ IsComponent ty c
  := by
  cases x with
  | uint n =>
    cases ty with
    | uint => exact ⟨_, rfl, n, rfl⟩
    | text => nomatch h
    | bytes => nomatch h
  | text s =>
    cases ty with
    | uint => nomatch h
    | text => exact ⟨_, rfl, s, rfl⟩
    | bytes => nomatch h
  | bytes b =>
    cases ty with
    | uint => nomatch h
    | text => nomatch h
    | bytes => exact ⟨_, rfl, b, rfl⟩
  | unknown tag payload =>
    cases ty <;> nomatch h

/-- A column of a valid row has its declared type. -/
theorem hasType_of_validateRow (h : validateRow t pk v = .ok ()) {column : ColumnDesc}
    (hcolumn : column ∈ t.columns) {x : ColumnValue} (hx : v.get column.id = some x) :
  x.hasType column.ty = true
  := by
  simp only [validateRow, bind_eq_ok, failIf_eq_ok, forM_eq_ok] at h
  obtain ⟨_, -, _, -, _, htypes, -⟩ := h
  have hcheck := htypes column hcolumn
  simp only [checkColumn, hx, failIf_eq_ok] at hcheck
  apply Bool.not_eq_false _ ▸ hcheck

/-- A valid row has the columns that indexes and references read. -/
theorem get_ne_none_of_validateRow (h : validateRow t pk v = .ok ()) {id : ColumnId}
    (hid : id ∈ t.constrained) :
  v.get id ≠ none
  := by
  simp only [validateRow, bind_eq_ok, failIf_eq_ok, forM_eq_ok] at h
  obtain ⟨_, -, _, -, _, -, hpresent⟩ := h
  apply hpresent id hid

/-- A valid row has an entry in every index, of parts with the declared types. -/
theorem exists_indexColumns (ht : t ∈ allTables) (hindex : index ∈ t.indexes)
    (h : validateRow t pk v = .ok ()) :
  ∃ cols, indexColumns t index v = .ok cols
    ∧ List.Forall₂ IsComponent (index.columns.map t.typeOf) cols
  := by
  have hcolumn : ∀ id ∈ index.columns, ∃ x c, v.get id = some x ∧ x.component = some c
      ∧ IsComponent (t.typeOf id) c := by
    intro id hid
    have hconstrained : id ∈ t.constrained :=
      List.mem_append_left _ (List.mem_flatMap.mpr ⟨index, hindex, hid⟩)
    obtain ⟨x, hx⟩ := Option.ne_none_iff_exists'.mp (get_ne_none_of_validateRow h hconstrained)
    obtain ⟨column, hcolumn, hcolumnId⟩ := exists_column_of_index ht hindex hid
    cases hfind : t.columns.find? (·.id = id) with
    | none =>
      have := List.find?_eq_none.mp hfind column hcolumn
      simp [hcolumnId] at this
    | some column' =>
      have hid' : column'.id = id := by
        simpa using List.find?_some hfind
      have htype := hasType_of_validateRow h (List.mem_of_find?_eq_some hfind) (hid' ▸ hx)
      obtain ⟨c, hc, hcomponent⟩ := component_of_hasType htype
      use x, c, hx, hc
      rw [TableDesc.typeOf, hfind]
      exact hcomponent
  simp only [indexColumns]
  generalize index.columns = columns at hcolumn
  induction columns with
  | nil => exact ⟨[], rfl, List.Forall₂.nil⟩
  | cons id columns ih =>
    obtain ⟨x, c, hx, hc, hcomponent⟩ := hcolumn id (List.mem_cons_self ..)
    obtain ⟨cols, hcols, htyped⟩ := ih fun id' hid' => hcolumn id' (List.mem_cons_of_mem id hid')
    refine ⟨c :: cols, ?_, List.Forall₂.cons hcomponent htyped⟩
    rw [List.mapM_cons, hcols]
    simp [hx, hc]

theorem IndexEntry.index_eq (ht : t ∈ allTables) (hindex : index ∈ t.indexes)
    (hindex' : index' ∈ t.indexes) {value' : Bytes} (h : IndexEntry t index pk v key value)
    (h' : IndexEntry t index' pk' v' key value') :
  index = index'
  := by
  obtain ⟨cols, -, hkey, -⟩ := h
  obtain ⟨cols', -, hkey', -⟩ := h'
  rw [hkey] at hkey'
  obtain ⟨-, -, htail⟩ := tableHeader_append_inj hkey'
  apply index_eq_of_id_eq ht hindex hindex'
  apply (List.cons.inj htail).1

theorem IndexEntry.pk_eq (ht : t ∈ allTables) (hindex : index ∈ t.indexes)
    (hindex' : index' ∈ t.indexes) (hpk : WellKeyed t pk) (hpk' : WellKeyed t pk')
    (hv : validateRow t pk v = .ok ()) (hv' : validateRow t pk' v' = .ok ())
    (h : IndexEntry t index pk v key value) (h' : IndexEntry t index' pk' v' key value) :
  pk = pk'
  := by
  obtain rfl := h.index_eq ht hindex hindex' h'
  obtain ⟨cols, hcols, hkey, hvalue⟩ := h
  obtain ⟨cols', hcols', hkey', hvalue'⟩ := h'
  cases hunique : index.unique with
  | true =>
    simp only [hunique, if_true] at hvalue hvalue'
    apply hpk.eq_of_flatten hpk' (hvalue.symm.trans hvalue')
  | false =>
    simp only [hunique, Bool.false_eq_true, if_false] at hkey hkey'
    rw [hkey] at hkey'
    obtain ⟨-, -, htail⟩ := tableHeader_append_inj hkey'
    obtain ⟨cols₁, hcols₁, htyped⟩ := exists_indexColumns ht hindex hv
    obtain ⟨cols₂, hcols₂, htyped'⟩ := exists_indexColumns ht hindex hv'
    cases hcols.symm.trans hcols₁
    cases hcols'.symm.trans hcols₂
    obtain ⟨-, hflatten⟩ := PrefixFree.flatten prefixFree_isComponent htyped htyped'
      (List.cons.inj htail).2
    apply hpk.eq_of_flatten hpk' hflatten

/-- A row has one entry in an index. -/
theorem IndexEntry.unique {key' value' : Bytes} (h : IndexEntry t index pk v key value)
    (h' : IndexEntry t index pk v key' value') :
  key = key' ∧ value = value'
  := by
  obtain ⟨cols, hcols, hkey, hvalue⟩ := h
  obtain ⟨cols', hcols', hkey', hvalue'⟩ := h'
  cases hcols.symm.trans hcols'
  use hkey.trans hkey'.symm, hvalue.trans hvalue'.symm

theorem IndexEntry.exists_suffix (h : IndexEntry t index pk v key value) :
  ∃ suffix, key = tableHeader t.id indexMarker ++ suffix
  := by
  obtain ⟨cols, -, hkey, -⟩ := h
  exact ⟨_, hkey⟩

/-! ## Readable rows -/

namespace RowsReadable

theorem validateRow_of_live (h : RowsReadable M) (ht : t ∈ allTables) (hv : Live M t pk v) :
  validateRow t pk v = .ok ()
  := by
  obtain ⟨hpk, bytes, hbytes, hdecode⟩ := hv
  obtain ⟨pk', v', hpk', hflatten, hdecode', hvalid⟩ := h t ht _ bytes hbytes
  obtain rfl := hpk.eq_of_flatten hpk' hflatten
  cases hdecode.symm.trans hdecode'
  exact hvalid

theorem exists_live (h : RowsReadable M) (ht : t ∈ allTables)
    (hty : t.pkColumns.map (·.ty) = [.uint]) (id : UInt64)
    (hne : M (rowKey t.id [memcmpUint id]) ≠ none) :
  ∃ v, Live M t [memcmpUint id] v
  := by
  obtain ⟨bytes, hbytes⟩ := Option.ne_none_iff_exists'.mp hne
  obtain ⟨_, v, -, -, hdecode, -⟩ := h t ht _ bytes hbytes
  refine ⟨v, ?_, bytes, hbytes, hdecode⟩
  rw [WellKeyed, hty]
  exact .cons ⟨id, rfl⟩ .nil

/-- If the entries are those of the rows, a unique index has one row for a tuple of columns. -/
theorem unique (h : RowsReadable M) (hentries : EntriesExact M) :
  ∀ t ∈ allTables, ∀ index ∈ t.indexes, index.unique = true → ∀ pk v pk' v',
    Live M t pk v → Live M t pk' v' → indexColumns t index v = indexColumns t index v' → pk = pk'
  := by
  intro t ht index hindex hunique pk v pk' v' hv hv' hcols
  obtain ⟨cols, hcols', -⟩ := exists_indexColumns ht hindex (h.validateRow_of_live ht hv)
  have hentry : ∀ {pk v}, indexColumns t index v = .ok cols →
      IndexEntry t index pk v (indexKey t.id index.id cols []) (indexValue pk) := by
    intro pk v hcols
    refine ⟨cols, hcols, ?_, ?_⟩
    · rw [if_pos hunique]
    · rw [if_pos hunique]
  have hthere := (hentries t ht _ _).mpr ⟨index, hindex, pk, v, hv, hentry hcols'⟩
  have hthere' := (hentries t ht _ _).mpr ⟨index, hindex, pk', v', hv', hentry (hcols ▸ hcols')⟩
  apply hv.1.eq_of_flatten hv'.1
  apply Option.some.inj (hthere.symm.trans hthere')

end RowsReadable

namespace Consistent

theorem entry_of_live (h : Consistent M) (ht : t ∈ allTables) (hindex : index ∈ t.indexes)
    (hv : Live M t pk v) (hentry : IndexEntry t index pk v key value) :
  M key = some value
  := by
  obtain ⟨suffix, rfl⟩ := hentry.exists_suffix
  apply (h.entries t ht suffix value).mpr
  exact ⟨index, hindex, pk, v, hv, hentry⟩

end Consistent

/-! ## Replacing a row -/

/-- The row at `pk` goes from `old` to `new`, with its index entries; everything else stays. -/
structure Replaces (M M' : Bytes → Option Bytes) (t : TableDesc) (pk : List PkComponent)
    (old new : Option RowValue) : Prop where
  row : M' (rowKey t.id pk) = new.map RowValue.encode
  rows : ∀ t' ∈ allTables, ∀ suffix, tableHeader t'.id rowMarker ++ suffix ≠ rowKey t.id pk →
    M' (tableHeader t'.id rowMarker ++ suffix) = M (tableHeader t'.id rowMarker ++ suffix)
  entries : ∀ t' ∈ allTables, ∀ suffix value,
    M' (tableHeader t'.id indexMarker ++ suffix) = some value ↔ (∃ v ∈ new, ∃ index ∈ t.indexes,
          IndexEntry t index pk v (tableHeader t'.id indexMarker ++ suffix) value)
        ∨ (M (tableHeader t'.id indexMarker ++ suffix) = some value
          ∧ ¬ ∃ v ∈ old, ∃ index ∈ t.indexes,
            IndexEntry t index pk v (tableHeader t'.id indexMarker ++ suffix) value)

namespace Replaces

variable {old new : Option RowValue}

section

variable (h : Replaces M M' t pk old new)
include h

theorem live_self (hpk : WellKeyed t pk) (hnew : ∀ v ∈ new, v.Fits) :
  Live M' t pk v ↔ v ∈ new
  := by
  constructor
  · rintro ⟨-, bytes, hbytes, hdecode⟩
    rw [h.row, Option.map_eq_some_iff] at hbytes
    obtain ⟨w, rfl, rfl⟩ := hbytes
    rw [RowValue.decode_encode (hnew w rfl)] at hdecode
    cases hdecode
    rfl
  · rintro rfl
    use hpk, v.encode, h.row, RowValue.decode_encode (hnew v rfl)

theorem live_of_ne (ht : t ∈ allTables) (ht' : t' ∈ allTables)
    (hpk : WellKeyed t pk) (hne : ¬ (t' = t ∧ pk' = pk)) :
  Live M' t' pk' v ↔ Live M t' pk' v
  := by
  apply and_congr_right
  intro hpk'
  have hkey : rowKey t'.id pk' ≠ rowKey t.id pk := by
    intro heq
    apply hne (rowKey_inj ht' ht hpk' hpk heq)
  rw [rowKey, h.rows t' ht' pk'.flatten hkey]

theorem rows_valid (hM : Consistent M) (hpk : WellKeyed t pk)
    (hnew : ∀ v ∈ new, v.Fits ∧ validateRow t pk v = .ok ()) (ht : t ∈ allTables)
    (ht' : t' ∈ allTables) {suffix bytes : Bytes}
    (hbytes : M' (tableHeader t'.id rowMarker ++ suffix) = some bytes) :
  ∃ pk v, WellKeyed t' pk ∧ suffix = pk.flatten ∧ RowValue.decode bytes = .ok v
    ∧ validateRow t' pk v = .ok ()
  := by
  by_cases hkey : tableHeader t'.id rowMarker ++ suffix = rowKey t.id pk
  · rw [hkey, h.row, Option.map_eq_some_iff] at hbytes
    obtain ⟨v, hv, rfl⟩ := hbytes
    obtain ⟨hid, -, rfl⟩ := tableHeader_append_inj hkey
    obtain rfl := eq_of_id_eq ht' ht hid
    exact ⟨pk, v, hpk, rfl, RowValue.decode_encode (hnew v hv).1, (hnew v hv).2⟩
  · rw [h.rows t' ht' suffix hkey] at hbytes
    apply hM.rows t' ht' suffix bytes hbytes

/-- After a replacement the index entries are those of the rows. -/
theorem entries_iff (hM : Consistent M) (ht : t ∈ allTables) (hpk : WellKeyed t pk)
    (hold : ∀ v, Live M t pk v ↔ v ∈ old) (hnew : ∀ v ∈ new, v.Fits ∧ validateRow t pk v = .ok ())
    (ht' : t' ∈ allTables) (suffix value : Bytes) :
  M' (tableHeader t'.id indexMarker ++ suffix) = some value
    ↔ ∃ index ∈ t'.indexes, ∃ pk v, Live M' t' pk v
      ∧ IndexEntry t' index pk v (tableHeader t'.id indexMarker ++ suffix) value
  := by
  have hlive : ∀ v, Live M' t pk v ↔ v ∈ new := fun v => h.live_self hpk fun v hv => (hnew v hv).1
  have htable : ∀ {v index}, IndexEntry t index pk v (tableHeader t'.id indexMarker ++ suffix) value
      → t' = t := by
    intro v index hentry
    obtain ⟨suffix', hsuffix⟩ := hentry.exists_suffix
    apply eq_of_id_eq ht' ht (tableHeader_append_inj hsuffix).1
  rw [h.entries t' ht']
  constructor
  · rintro (⟨v, hv, index, hindex, hentry⟩ | ⟨hvalue, hgone⟩)
    · obtain rfl := htable hentry
      exact ⟨index, hindex, pk, v, (hlive v).mpr hv, hentry⟩
    · obtain ⟨index, hindex, pk', v, hv, hentry⟩ := (hM.entries t' ht' suffix value).mp hvalue
      have hne : ¬ (t' = t ∧ pk' = pk) := by
        rintro ⟨rfl, rfl⟩
        exact hgone ⟨v, (hold v).mp hv, index, hindex, hentry⟩
      exact ⟨index, hindex, pk', v, (h.live_of_ne ht ht' hpk hne).mpr hv, hentry⟩
  · rintro ⟨index, hindex, pk', v, hv, hentry⟩
    by_cases heq : t' = t ∧ pk' = pk
    · obtain ⟨rfl, rfl⟩ := heq
      exact .inl ⟨v, (hlive v).mp hv, index, hindex, hentry⟩
    · have hv' := (h.live_of_ne ht ht' hpk heq).mp hv
      refine .inr ⟨(hM.entries t' ht' suffix value).mpr ⟨index, hindex, pk', v, hv', hentry⟩, ?_⟩
      rintro ⟨w, hw, index', hindex', hentry'⟩
      obtain rfl := htable hentry'
      have hw' := (hold w).mpr hw
      exact heq ⟨rfl, hentry.pk_eq ht hindex hindex' hv'.1 hpk (hM.rows.validateRow_of_live ht hv')
        (hM.rows.validateRow_of_live ht hw') hentry'⟩

/-- A replacement by a valid row, or of a row that nothing references, keeps the catalog
consistent. -/
theorem consistent (hM : Consistent M) (ht : t ∈ allTables)
    (hpk : WellKeyed t pk) (hold : ∀ v, Live M t pk v ↔ v ∈ old)
    (hnew : ∀ v ∈ new, v.Fits ∧ validateRow t pk v = .ok ())
    (hreferences : ∀ v ∈ new, ∀ fk ∈ t.fks, ∃ id, v.get fk.column = some (.uint id)
      ∧ ∀ parent ∈ allTables, parent.id = fk.references →
        M' (rowKey parent.id [memcmpUint id]) ≠ none)
    (hreferenced : new = none → ∀ child ∈ allTables, ∀ fk ∈ child.fks, fk.references = t.id →
      ∀ pk' v id, Live M child pk' v → v.get fk.column = some (.uint id) → pk ≠ [memcmpUint id]) :
  Consistent M'
  := by
  have hrows : RowsReadable M' := fun t' ht' suffix bytes => h.rows_valid hM hpk hnew ht ht'
  have hentries : EntriesExact M' := fun t' ht' => h.entries_iff hM ht hpk hold hnew ht'
  refine ⟨hrows, hentries, hrows.unique hentries, ?_⟩
  intro t' ht' pk' v' hv' fk hfk
  obtain ⟨parent, hparent, hid, hty⟩ := pkColumns_of_fk ht' hfk
  have hread := hrows.exists_live hparent hty
  by_cases heq : t' = t ∧ pk' = pk
  · obtain ⟨rfl, rfl⟩ := heq
    have hmem := (h.live_self hpk fun v hv => (hnew v hv).1).mp hv'
    obtain ⟨id, hget, hthere⟩ := hreferences v' hmem fk hfk
    exact ⟨id, hget, parent, hparent, hid, hread id (hthere parent hparent hid)⟩
  · have hold' := (h.live_of_ne ht ht' hpk heq).mp hv'
    obtain ⟨id, hget, parent', hparent', hid', w, hw⟩ := hM.references t' ht' pk' v' hold' fk hfk
    obtain rfl := eq_of_id_eq hparent hparent' (hid.trans hid'.symm)
    use id, hget, parent, hparent, hid
    by_cases heq' : parent = t ∧ [memcmpUint id] = pk
    · obtain ⟨rfl, rfl⟩ := heq'
      cases hnew' : new with
      | none => exact absurd rfl (hreferenced hnew' t' ht' fk hfk hid.symm pk' v' id hold' hget)
      | some v =>
        apply hread
        rw [h.row, hnew']
        nofun
    · exact ⟨w, (h.live_of_ne ht hparent hpk heq').mpr hw⟩

end

end Replaces

end Kv9.Meta
