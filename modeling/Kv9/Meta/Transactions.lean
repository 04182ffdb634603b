import Kv9.Meta.Consistency

/-!
# Transactions keep the catalog consistent

Every call of a transaction that succeeds replaces one row, so a transaction over a consistent
view sees a consistent catalog, whatever calls it makes; a call that fails changes nothing.
Values that a stored row cannot carry are the exception: the length of a column is stored in four
bytes.
-/

namespace Kv9.Meta

open Codec Except List

variable {sha256 : Bytes → RootDigest} {tx : Txn} {t : TableDesc} {pk : List PkComponent}
  {v old new : RowValue} {index : IndexDesc}

/-! ## The edits of a call -/

theorem tableHeader_ne_taskHistoryKey {id : TableId} {marker : UInt8} {suffix : Bytes} :
  tableHeader id marker ++ suffix ≠ taskHistoryKey
  := by
  intro h
  have hhead := (List.cons.inj h).1
  exact absurd hhead (by decide)

theorem key_of_markTaskChange {uncertain : Bool} {mark : Pending}
    (h : tx.markTaskChange sha256 t uncertain = .ok mark) :
  ∀ e ∈ mark, e.1 = taskHistoryKey
  := by
  rw [Txn.markTaskChange] at h
  split_ifs at h
  · rw [bind_eq_ok] at h
    obtain ⟨next, -, hmark⟩ := h
    cases hmark
    intro e he
    rw [mem_singleton.mp he]
  · cases h
    nofun

theorem extend_append (entries entries' : Pending) :
  tx.extend (entries ++ entries') = (tx.extend entries).extend entries'
  := by
  rw [Txn.extend, OrderedMap.extend, foldl_append]
  rfl

/-- A key has the value its edits agree on. -/
theorem readKv_of_agree {entries : Pending} {key : Bytes} {edit : Option Bytes}
    (hmem : (key, edit) ∈ entries) (h : ∀ edit', (key, edit') ∈ entries → edit' = edit) :
  (tx.extend entries).readKv key = edit
  := Overlay.lookup_extend_of_mem hmem h

theorem readKv_of_untouched {entries : Pending} {key : Bytes} (h : ∀ e ∈ entries, e.1 ≠ key) :
  (tx.extend entries).readKv key = tx.readKv key
  := Overlay.lookup_extend_of_forall_ne h

/-- Edits of one row and of index entries of its table, with a mark. -/
structure Laid (t : TableDesc) (pk : List PkComponent) (entries : Pending) (mark : Pending) :
    Prop where
  entries : ∀ e ∈ entries, ∃ suffix, e.1 = tableHeader t.id indexMarker ++ suffix
  mark : ∀ e ∈ mark, e.1 = taskHistoryKey

namespace Laid

variable {entries mark : Pending} {edit : Option Bytes}

theorem marker_ne :
  indexMarker ≠ rowMarker
  := by
  decide

theorem readKv_row (h : Laid t pk entries mark) :
  (tx.extend (entries ++ [(rowKey t.id pk, edit)] ++ mark)).readKv (rowKey t.id pk) = edit
  := by
  apply Overlay.lookup_extend_of_mem
  · simp
  · intro edit' hmem
    rw [mem_append, mem_append, mem_singleton] at hmem
    rcases hmem with (hmem | hmem) | hmem
    · obtain ⟨suffix, hkey⟩ := h.entries _ hmem
      exact absurd (tableHeader_append_inj hkey).2.1.symm marker_ne
    · cases hmem
      rfl
    · exact absurd (h.mark _ hmem) tableHeader_ne_taskHistoryKey

theorem readKv_rows (h : Laid t pk entries mark) {t' : TableDesc} {suffix : Bytes}
    (hne : tableHeader t'.id rowMarker ++ suffix ≠ rowKey t.id pk) :
  (tx.extend (entries ++ [(rowKey t.id pk, edit)] ++ mark)).readKv
      (tableHeader t'.id rowMarker ++ suffix)
    = tx.readKv (tableHeader t'.id rowMarker ++ suffix)
  := by
  apply Overlay.lookup_extend_of_forall_ne
  intro e hmem hkey
  rw [mem_append, mem_append, mem_singleton] at hmem
  rcases hmem with (hmem | rfl) | hmem
  · obtain ⟨suffix', hkey'⟩ := h.entries _ hmem
    exact marker_ne (tableHeader_append_inj (hkey'.symm.trans hkey)).2.1
  · exact hne hkey.symm
  · exact tableHeader_ne_taskHistoryKey (hkey.symm.trans (h.mark _ hmem))

theorem readKv_index (h : Laid t pk entries mark) (id : TableId) (suffix : Bytes) :
  (tx.extend (entries ++ [(rowKey t.id pk, edit)] ++ mark)).readKv
      (tableHeader id indexMarker ++ suffix)
    = (tx.extend entries).readKv (tableHeader id indexMarker ++ suffix)
  := by
  rw [extend_append, extend_append, readKv_of_untouched, readKv_of_untouched]
  · intro e he hkey
    rw [mem_singleton.mp he] at hkey
    exact marker_ne (tableHeader_append_inj hkey).2.1.symm
  · intro e he hkey
    exact tableHeader_ne_taskHistoryKey (hkey.symm.trans (h.mark e he))

end Laid

/-! ## The checks of a call -/

/-- The references of a row that was checked are to rows. -/
theorem references_of_checkForeignKeys (hvalid : validateRow t pk v = .ok ())
    (h : tx.checkForeignKeys t v = .ok ()) {fk : FkDesc} (hfk : fk ∈ t.fks) :
  ∃ id, v.get fk.column = some (.uint id)
    ∧ ∀ parent ∈ allTables, parent.id = fk.references →
      tx.readKv (rowKey parent.id [memcmpUint id]) ≠ none
  := by
  have hconstrained : fk.column ∈ t.constrained :=
    mem_append_right _ (mem_map_of_mem hfk)
  obtain ⟨x, hx⟩ := Option.ne_none_iff_exists'.mp (get_ne_none_of_validateRow hvalid hconstrained)
  have hcheck := forM_eq_ok.mp h fk hfk
  rw [hx] at hcheck
  cases x with
  | uint id =>
    use id, hx
    rintro parent hparent hid
    rw [← hid] at hcheck
    simp only [tableDesc_eq_some.mpr ⟨hparent, rfl⟩, encodeRowKey_eq, ok_bind, failIf_eq_ok]
      at hcheck
    exact hcheck
  | _ => cases hcheck

/-- No row references a row that was checked. -/
theorem not_referenced_of_checkReferences (h : tx.checkReferences t pk = .ok ())
    {child : TableDesc} (hchild : child ∈ allTables) {fk : FkDesc} (hfk : fk ∈ child.fks)
    (hreferences : fk.references = t.id) {pk' : List PkComponent} {id : UInt64}
    (hlive : Live tx.readKv child pk' v) (hget : v.get fk.column = some (.uint id)) :
  pk ≠ [memcmpUint id]
  := by
  obtain ⟨-, bytes, hbytes, hdecode⟩ := hlive
  have hfk' : fk ∈ child.fks.filter (·.references = t.id) := by
    rw [mem_filter]
    use hfk, decide_eq_true hreferences
  have hchecked := forM_eq_ok.mp (forM_eq_ok.mp h child hchild) fk hfk'
  simp only [rowRange_eq, ok_bind, forM_eq_ok] at hchecked
  have hmem : (rowKey child.id pk', bytes) ∈ tx.mergedRange (tableHeader child.id rowMarker)
      (tableHeader child.id (rowMarker + 1)) false := by
    apply Overlay.mem_range.mpr
    use mem_rowRange.mpr ⟨pk'.flatten, rfl⟩, hbytes
  have hentry := hchecked _ hmem
  simp only [hdecode, ok_bind, hget, failIf_eq_ok] at hentry
  exact hentry

theorem entry_of_insertIndex {e : Bytes × Option Bytes} (h : tx.insertIndex t pk v index = .ok e) :
  ∃ value, IndexEntry t index pk v e.1 value ∧ e.2 = some value
    ∧ (index.unique = true → tx.readKv e.1 = none)
  := by
  rw [Txn.insertIndex, bind_eq_ok] at h
  obtain ⟨cols, hcols, h⟩ := h
  split_ifs at h with hunique
  · simp only [encodeIndexKey_eq, ok_bind, bind_eq_ok, failIf_eq_ok, not_not] at h
    obtain ⟨_, hfree, he⟩ := h
    cases he
    refine ⟨indexValue pk, ⟨cols, hcols, ?_, ?_⟩, rfl, fun _ => hfree⟩
    · rw [if_pos hunique]
    · rw [if_pos hunique]
  · simp only [encodeIndexKey_eq, ok_bind] at h
    cases h
    refine ⟨[], ⟨cols, hcols, ?_, ?_⟩, rfl, fun h => absurd h hunique⟩
    · rw [if_neg hunique]
    · rw [if_neg hunique]

theorem entry_of_deleteIndex {e : Bytes × Option Bytes} (h : Txn.deleteIndex t pk v index = .ok e) :
  ∃ value, IndexEntry t index pk v e.1 value ∧ e.2 = none
  := by
  rw [Txn.deleteIndex, bind_eq_ok] at h
  obtain ⟨cols, hcols, h⟩ := h
  refine ⟨_, ⟨cols, hcols, ?_, rfl⟩, ?_⟩
  · split_ifs at h ⊢ with hunique
    · simp only [encodeIndexKey_eq, ok_bind] at h
      cases h
      rfl
    · simp only [encodeIndexKey_eq, ok_bind] at h
      cases h
      rfl
  · split_ifs at h with hunique
    · simp only [encodeIndexKey_eq, ok_bind] at h
      cases h
      rfl
    · simp only [encodeIndexKey_eq, ok_bind] at h
      cases h
      rfl

/-- What an update does to an index: nothing, or one entry for another. -/
structure Moves (tx : Txn) (t : TableDesc) (index : IndexDesc) (pk : List PkComponent)
    (old new : RowValue) (edits : Pending) (oldKey oldValue newKey newValue : Bytes) : Prop where
  old : IndexEntry t index pk old oldKey oldValue
  new : IndexEntry t index pk new newKey newValue
  edits : (edits = [] ∧ oldKey = newKey ∧ oldValue = newValue)
    ∨ (edits = [(oldKey, none), (newKey, some newValue)] ∧ oldKey ≠ newKey
      ∧ (index.unique = true → tx.readKv newKey = none))

/-- Entries of other columns have other keys. -/
theorem indexKey_ne_of_ne (ht : t ∈ allTables) (hindex : index ∈ t.indexes)
    (hold : validateRow t pk old = .ok ()) (hnew : validateRow t pk new = .ok ())
    {oldCols newCols : List PkComponent} (holdCols : indexColumns t index old = .ok oldCols)
    (hnewCols : indexColumns t index new = .ok newCols) (hne : oldCols ≠ newCols)
    (suffix : List PkComponent) :
  indexKey t.id index.id oldCols suffix ≠ indexKey t.id index.id newCols suffix
  := by
  intro hkey
  obtain ⟨_, hcols, htyped⟩ := exists_indexColumns ht hindex hold
  obtain ⟨_, hcols', htyped'⟩ := exists_indexColumns ht hindex hnew
  cases holdCols.symm.trans hcols
  cases hnewCols.symm.trans hcols'
  obtain ⟨-, -, htail⟩ := tableHeader_append_inj hkey
  exact hne (PrefixFree.flatten prefixFree_isComponent htyped htyped' (List.cons.inj htail).2).1

variable {edits : Pending}

theorem moves_of_updateIndex (ht : t ∈ allTables) (hindex : index ∈ t.indexes)
    (hold : validateRow t pk old = .ok ()) (hnew : validateRow t pk new = .ok ())
    (h : tx.updateIndex t pk old new index = .ok edits) :
  ∃ oldKey oldValue newKey newValue,
    Moves tx t index pk old new edits oldKey oldValue newKey newValue
  := by
  rw [Txn.updateIndex, bind_eq_ok] at h
  obtain ⟨oldCols, holdCols, h⟩ := h
  rw [bind_eq_ok] at h
  obtain ⟨newCols, hnewCols, h⟩ := h
  refine ⟨_, _, _, _, ⟨oldCols, holdCols, rfl, rfl⟩, ⟨newCols, hnewCols, rfl, rfl⟩, ?_⟩
  by_cases hcols : oldCols = newCols
  · rw [if_pos hcols] at h
    cases h
    exact .inl ⟨rfl, by rw [hcols], rfl⟩
  · rw [if_neg hcols] at h
    have hne := indexKey_ne_of_ne ht hindex hold hnew holdCols hnewCols hcols
    right
    split_ifs at h ⊢ with hunique
    · simp only [encodeIndexKey_eq, ok_bind, bind_eq_ok, failIf_eq_ok, not_not] at h
      obtain ⟨_, hfree, he⟩ := h
      cases he
      use rfl, hne [], fun _ => hfree
    · simp only [encodeIndexKey_eq, ok_bind] at h
      cases h
      exact ⟨rfl, hne pk, fun h => absurd h hunique⟩

/-- An index that is not touched has one entry for the old row and the new. -/
theorem Moves.same_of_untouched {oldKey oldValue newKey newValue key value : Bytes}
    (h : Moves tx t index pk old new edits oldKey oldValue newKey newValue)
    (huntouched : ∀ e ∈ edits, e.1 ≠ key) :
  IndexEntry t index pk old key value ↔ IndexEntry t index pk new key value
  := by
  rcases h.edits with ⟨-, rfl, rfl⟩ | ⟨rfl, -⟩
  · constructor
    · intro hentry
      obtain ⟨rfl, rfl⟩ := hentry.unique h.old
      exact h.new
    · intro hentry
      obtain ⟨rfl, rfl⟩ := hentry.unique h.new
      exact h.old
  · constructor
    · intro hentry
      exact absurd (h.old.unique hentry).1 (huntouched (oldKey, none) (by simp))
    · intro hentry
      exact absurd (h.new.unique hentry).1 (huntouched (newKey, some newValue) (by simp))

/-! ## Every call replaces a row -/

/-- A key that an entry of the row would have is free, or taken by an entry of the row. -/
theorem live_of_entry (hM : Consistent tx.readKv) (ht : t ∈ allTables) (hpk : WellKeyed t pk)
    (hvalid : validateRow t pk v = .ok ()) (hindex : index ∈ t.indexes) {key value value' : Bytes}
    (hentry : IndexEntry t index pk v key value)
    (hunique : index.unique = true → tx.readKv key = none) (hvalue : tx.readKv key = some value') :
  ∃ w, Live tx.readKv t pk w ∧ IndexEntry t index pk w key value'
  := by
  cases hu : index.unique with
  | true =>
    rw [hunique hu] at hvalue
    nomatch hvalue
  | false =>
    obtain ⟨suffix, rfl⟩ := hentry.exists_suffix
    obtain ⟨index', hindex', pk', w, hw, hentry'⟩ := (hM.entries t ht suffix value').mp hvalue
    obtain rfl := hentry.index_eq ht hindex hindex' hentry'
    have heq : value = value' := by
      obtain ⟨_, -, -, rfl⟩ := hentry
      obtain ⟨_, -, -, rfl⟩ := hentry'
      simp [hu]
    subst heq
    obtain rfl := hentry.pk_eq ht hindex hindex' hpk hw.1 hvalid (hM.rows.validateRow_of_live ht hw)
      hentry'
    exact ⟨w, hw, hentry'⟩

/-- Edits of index entries that take a table from the row `old` at `pk` to the row `new`.  An edit
takes out an entry that only the old row has, or adds one that only the new row has; what is not
edited is an entry of both rows or of none. -/
structure Edits (tx : Txn) (t : TableDesc) (pk : List PkComponent) (old new : Option RowValue)
    (entries : Pending) : Prop where
  edit : ∀ key edit, (key, edit) ∈ entries → ∃ index ∈ t.indexes,
    (edit = none ∧ (∃ w ∈ old, ∃ value, IndexEntry t index pk w key value)
      ∧ ∀ w ∈ new, ∀ value, ¬ IndexEntry t index pk w key value)
    ∨ ∃ w ∈ new, ∃ value, edit = some value ∧ IndexEntry t index pk w key value
      ∧ (index.unique = true → tx.readKv key = none)
      ∧ ∀ w ∈ old, ∀ value, ¬ IndexEntry t index pk w key value
  same : ∀ index ∈ t.indexes, ∀ key value, (∀ e ∈ entries, e.1 ≠ key) →
    ((∃ w ∈ old, IndexEntry t index pk w key value) ↔ ∃ w ∈ new, IndexEntry t index pk w key value)

theorem edits_of_insert {entries : Pending}
    (h : t.indexes.mapM (tx.insertIndex t pk v) = .ok entries) :
  Edits tx t pk none (some v) entries
  := by
  obtain ⟨hfrom, hto⟩ := mem_of_mapM h
  constructor
  · intro key edit he
    obtain ⟨index, hindex, hinsert⟩ := hfrom _ he
    obtain ⟨value, hentry, hedit, hunique⟩ := entry_of_insertIndex hinsert
    use index, hindex, .inr ⟨v, rfl, value, hedit, hentry, hunique, nofun⟩
  · intro index hindex key value huntouched
    constructor
    · rintro ⟨_, ⟨⟩, -⟩
    · rintro ⟨_, ⟨⟩, hentry⟩
      obtain ⟨e, he, hinsert⟩ := hto index hindex
      obtain ⟨_, hentry', -⟩ := entry_of_insertIndex hinsert
      exact absurd (hentry'.unique hentry).1 (huntouched e he)

theorem edits_of_delete {entries : Pending}
    (h : t.indexes.mapM (Txn.deleteIndex t pk v) = .ok entries) :
  Edits tx t pk (some v) none entries
  := by
  obtain ⟨hfrom, hto⟩ := mem_of_mapM h
  constructor
  · intro key edit he
    obtain ⟨index, hindex, hdelete⟩ := hfrom _ he
    obtain ⟨value, hentry, hedit⟩ := entry_of_deleteIndex hdelete
    use index, hindex, .inl ⟨hedit, ⟨v, rfl, value, hentry⟩, nofun⟩
  · intro index hindex key value huntouched
    constructor
    · rintro ⟨_, ⟨⟩, hentry⟩
      obtain ⟨e, he, hdelete⟩ := hto index hindex
      obtain ⟨_, hentry', -⟩ := entry_of_deleteIndex hdelete
      exact absurd (hentry'.unique hentry).1 (huntouched e he)
    · rintro ⟨_, ⟨⟩, -⟩

theorem edits_of_update (ht : t ∈ allTables) (hold : validateRow t pk old = .ok ())
    (hnew : validateRow t pk new = .ok ()) {entries : List Pending}
    (h : t.indexes.mapM (tx.updateIndex t pk old new) = .ok entries) :
  Edits tx t pk (some old) (some new) entries.flatten
  := by
  obtain ⟨hfrom, hto⟩ := mem_of_mapM h
  constructor
  · intro key edit he
    obtain ⟨edits, hedits, he⟩ := mem_flatten.mp he
    obtain ⟨index, hindex, hupdate⟩ := hfrom edits hedits
    obtain ⟨oldKey, oldValue, newKey, newValue, hmove⟩ :=
      moves_of_updateIndex ht hindex hold hnew hupdate
    use index, hindex
    rcases hmove.edits with ⟨rfl, -⟩ | ⟨rfl, hne, hunique⟩
    · nomatch he
    · rw [mem_pair] at he
      rcases he with ⟨rfl, rfl⟩ | ⟨rfl, rfl⟩
      · refine .inl ⟨rfl, ⟨old, rfl, oldValue, hmove.old⟩, ?_⟩
        rintro _ ⟨⟩ value hentry
        exact hne (hentry.unique hmove.new).1
      · refine .inr ⟨new, rfl, newValue, rfl, hmove.new, hunique, ?_⟩
        rintro _ ⟨⟩ value hentry
        exact hne (hmove.old.unique hentry).1
  · intro index hindex key value huntouched
    obtain ⟨edits, hmem, hupdate⟩ := hto index hindex
    obtain ⟨oldKey, oldValue, newKey, newValue, hmove⟩ :=
      moves_of_updateIndex ht hindex hold hnew hupdate
    simp only [Option.mem_some_iff, exists_eq_left']
    apply hmove.same_of_untouched
    intro e he
    apply huntouched e (mem_flatten.mpr ⟨edits, hmem, he⟩)

namespace Edits

variable {old new : Option RowValue} {entries mark : Pending} {key : Bytes} {edit edit' : Option Bytes}

section

variable (h : Edits tx t pk old new entries)
include h

theorem exists_entry (he : (key, edit) ∈ entries) :
  ∃ index ∈ t.indexes, ∃ w value, IndexEntry t index pk w key value
  := by
  obtain ⟨index, hindex, ⟨-, ⟨w, -, value, hentry⟩, -⟩ | ⟨w, -, value, -, hentry, -⟩⟩ :=
    h.edit key edit he
  · exact ⟨index, hindex, w, value, hentry⟩
  · exact ⟨index, hindex, w, value, hentry⟩

theorem agree (ht : t ∈ allTables) (he : (key, edit) ∈ entries) (he' : (key, edit') ∈ entries) :
  edit' = edit
  := by
  obtain ⟨index, hindex, hedit⟩ := h.edit key edit he
  obtain ⟨index', hindex', hedit'⟩ := h.edit key edit' he'
  -- Both edits are of a key of one index, so that they are of one kind.
  rcases hedit with ⟨rfl, ⟨w, hw, value, hentry⟩, hnew⟩ | ⟨w, hw, value, rfl, hentry, -, hold⟩
  · rcases hedit' with ⟨rfl, -⟩ | ⟨w', hw', value', rfl, hentry', -⟩
    · rfl
    · obtain rfl := hentry.index_eq ht hindex hindex' hentry'
      exact absurd hentry' (hnew w' hw' value')
  · rcases hedit' with ⟨rfl, ⟨w', hw', value', hentry'⟩, -⟩ | ⟨w', hw', value', rfl, hentry', -⟩
    · obtain rfl := hentry.index_eq ht hindex hindex' hentry'
      exact absurd hentry' (hold w' hw' value')
    · obtain rfl := hentry.index_eq ht hindex hindex' hentry'
      obtain rfl := Option.mem_unique hw hw'
      rw [(hentry.unique hentry').2]

theorem readKv_eq_some (hM : Consistent tx.readKv)
    (ht : t ∈ allTables) (hpk : WellKeyed t pk) (hold : ∀ w, Live tx.readKv t pk w ↔ w ∈ old)
    (hnew : ∀ w ∈ new, validateRow t pk w = .ok ()) (key value : Bytes) :
  (tx.extend entries).readKv key = some value
    ↔ (∃ w ∈ new, ∃ index ∈ t.indexes, IndexEntry t index pk w key value)
      ∨ (tx.readKv key = some value
        ∧ ¬ ∃ w ∈ old, ∃ index ∈ t.indexes, IndexEntry t index pk w key value)
  := by
  by_cases htouched : ∃ edit, (key, edit) ∈ entries
  · obtain ⟨edit, he⟩ := htouched
    rw [readKv_of_agree he fun edit' he' => h.agree ht he he']
    obtain ⟨index, hindex, ⟨rfl, ⟨w, hw, value', hentry⟩, hgone⟩
      | ⟨w, hw, value', rfl, hentry, hunique, hfresh⟩⟩ := h.edit key edit he
    · -- The old entry goes.
      constructor
      · nofun
      · rintro (⟨w', hw', index', hindex', hentry'⟩ | ⟨hvalue, hnone⟩)
        · obtain rfl := hentry.index_eq ht hindex hindex' hentry'
          exact absurd hentry' (hgone w' hw' value)
        · cases (hM.entry_of_live ht hindex ((hold w).mpr hw) hentry).symm.trans hvalue
          exact absurd ⟨w, hw, index, hindex, hentry⟩ hnone
    · -- The new entry comes; the key was free.
      constructor
      · rintro ⟨⟩
        exact .inl ⟨w, hw, index, hindex, hentry⟩
      · rintro (⟨w', hw', index', hindex', hentry'⟩ | ⟨hvalue, -⟩)
        · obtain rfl := hentry.index_eq ht hindex hindex' hentry'
          obtain rfl := Option.mem_unique hw hw'
          rw [(hentry.unique hentry').2]
        · obtain ⟨w', hw', hentry'⟩ :=
            live_of_entry hM ht hpk (hnew w hw) hindex hentry hunique hvalue
          exact absurd hentry' (hfresh w' ((hold w').mp hw') value)
  · have huntouched : ∀ e ∈ entries, e.1 ≠ key := by
      rintro ⟨_, edit⟩ he rfl
      exact htouched ⟨edit, he⟩
    rw [readKv_of_untouched huntouched]
    constructor
    · intro hvalue
      by_cases hentry : ∃ w ∈ old, ∃ index ∈ t.indexes, IndexEntry t index pk w key value
      · obtain ⟨w, hw, index, hindex, hentry⟩ := hentry
        obtain ⟨w', hw', hentry'⟩ :=
          (h.same index hindex key value huntouched).mp ⟨w, hw, hentry⟩
        exact .inl ⟨w', hw', index, hindex, hentry'⟩
      · exact .inr ⟨hvalue, hentry⟩
    · rintro (⟨w, hw, index, hindex, hentry⟩ | ⟨hvalue, -⟩)
      · obtain ⟨w', hw', hentry'⟩ :=
          (h.same index hindex key value huntouched).mpr ⟨w, hw, hentry⟩
        exact hM.entry_of_live ht hindex ((hold w').mpr hw') hentry'
      · exact hvalue

/-- Edits of the indexes, of the row and of the mark keep the catalog consistent, if the new row
was checked, or the references to the old one. -/
theorem consistent (hM : Consistent tx.readKv)
    (ht : t ∈ allTables) (hpk : WellKeyed t pk) (hold : ∀ w, Live tx.readKv t pk w ↔ w ∈ old)
    (hnew : ∀ w ∈ new, w.Fits ∧ validateRow t pk w = .ok ())
    (hfk : ∀ w ∈ new, tx.checkForeignKeys t w = .ok ())
    (hreferenced : new = none → tx.checkReferences t pk = .ok ())
    (hmark : ∀ e ∈ mark, e.1 = taskHistoryKey) :
  Consistent (tx.extend (entries ++ [(rowKey t.id pk, new.map RowValue.encode)] ++ mark)).readKv
  := by
  have hlaid : Laid t pk entries mark := by
    refine ⟨?_, hmark⟩
    rintro ⟨key, edit⟩ he
    obtain ⟨_, -, _, _, hentry⟩ := h.exists_entry he
    apply hentry.exists_suffix
  have hreplaces : Replaces tx.readKv
      (tx.extend (entries ++ [(rowKey t.id pk, new.map RowValue.encode)] ++ mark)).readKv t pk
      old new := by
    constructor
    · apply hlaid.readKv_row
    · intro t' _ suffix hne
      apply hlaid.readKv_rows hne
    · intro t' _ suffix value
      rw [hlaid.readKv_index, h.readKv_eq_some hM ht hpk hold fun w hw => (hnew w hw).2]
  apply hreplaces.consistent hM ht hpk hold hnew
  · -- A reference to the row itself is to a row, once it is there.
    intro w hw fk hmem
    obtain ⟨id, hget, hthere⟩ := references_of_checkForeignKeys (hnew w hw).2 (hfk w hw) hmem
    use id, hget
    intro parent hparent hid
    by_cases hkey : rowKey parent.id [memcmpUint id] = rowKey t.id pk
    · rw [hkey, hreplaces.row, hw]
      nofun
    · exact (hreplaces.rows parent hparent _ hkey).trans_ne (hthere parent hparent hid)
  · intro hnone child hchild fk hfk hreferences pk' w id hw hget
    apply not_referenced_of_checkReferences (hreferenced hnone) hchild hfk hreferences hw hget

end

end Edits

theorem Live.iff_mem {M : Bytes → Option Bytes} (h : Live M t pk v) (w : RowValue) :
  Live M t pk w ↔ w ∈ some v
  := by
  constructor
  · intro hw
    rw [hw.unique h]
    rfl
  · rintro ⟨⟩
    exact h

variable {pending : Pending}

theorem consistent_of_insertPending (hM : Consistent tx.readKv) (ht : t ∈ allTables)
    (hpk : WellKeyed t pk) (hfits : v.Fits) (h : tx.insertPending sha256 t pk v = .ok pending) :
  Consistent (tx.extend pending).readKv
  := by
  simp only [Txn.insertPending, encodeRowKey_eq, ok_bind, bind_eq_ok, failIf_eq_ok, not_not] at h
  obtain ⟨_, hrow, _, hvalid, _, hfk, entries, hentries, mark, hmark, hpending⟩ := h
  cases hpending
  apply (edits_of_insert hentries).consistent hM ht hpk
  · rintro w
    constructor
    · rintro ⟨-, bytes, hbytes, -⟩
      rw [hrow] at hbytes
      cases hbytes
    · simp
  · rintro w ⟨⟩
    use hfits, hvalid
  · rintro w ⟨⟩
    exact hfk
  · simp
  · apply key_of_markTaskChange hmark

theorem fits_foldl {changes : List (ColumnId × ColumnValue)} (hchanges : ∀ c ∈ changes, c.2.Fits)
    (hfits : v.Fits) :
  (changes.foldl (fun row c => row.set c.1 c.2) v).Fits
  := by
  induction changes generalizing v with
  | nil => exact hfits
  | cons c changes ih =>
    apply ih fun c' hc' => hchanges c' (mem_cons_of_mem c hc')
    apply hfits.set (hchanges c (mem_cons_self ..))

theorem consistent_of_updatePending (hM : Consistent tx.readKv) (ht : t ∈ allTables)
    (hpk : WellKeyed t pk) {changes : List (ColumnId × ColumnValue)}
    (hchanges : ∀ c ∈ changes, c.2.Fits) (h : tx.updatePending sha256 t pk changes = .ok pending) :
  Consistent (tx.extend pending).readKv
  := by
  simp only [Txn.updatePending, encodeRowKey_eq, ok_bind] at h
  split at h
  · nomatch h
  · rename_i bytes hbytes
    simp only [bind_eq_ok] at h
    obtain ⟨old, hdecode, _, hvalid, _, hfk, entries, hentries, mark, hmark, hpending⟩ := h
    cases hpending
    have hlive : Live tx.readKv t pk old := ⟨hpk, bytes, hbytes, hdecode⟩
    have hold := hM.rows.validateRow_of_live ht hlive
    apply (edits_of_update ht hold hvalid hentries).consistent hM ht hpk hlive.iff_mem
    · rintro w ⟨⟩
      use fits_foldl hchanges hlive.fits, hvalid
    · rintro w ⟨⟩
      exact hfk
    · nofun
    · rw [Txn.markUpdate] at hmark
      split_ifs at hmark
      · apply key_of_markTaskChange hmark
      · cases hmark
        nofun

theorem consistent_of_deletePending (hM : Consistent tx.readKv) (ht : t ∈ allTables)
    (hpk : WellKeyed t pk) (h : tx.deletePending sha256 t pk = .ok pending) :
  Consistent (tx.extend pending).readKv
  := by
  simp only [Txn.deletePending, encodeRowKey_eq, ok_bind] at h
  split at h
  · cases h
    exact hM
  · rename_i bytes hbytes
    simp only [bind_eq_ok] at h
    obtain ⟨_, hchecked, v, hdecode, entries, hentries, mark, hmark, hpending⟩ := h
    cases hpending
    have hlive : Live tx.readKv t pk v := ⟨hpk, bytes, hbytes, hdecode⟩
    apply (edits_of_delete hentries).consistent hM ht hpk hlive.iff_mem
    · nofun
    · nofun
    · intro _
      exact hchecked
    · apply key_of_markTaskChange hmark

/-- A row that is asked for is the row that can be read. -/
theorem live_iff_of_get {old : Option RowValue} (hpk : WellKeyed t pk)
    (h : tx.get t pk = .ok old) (w : RowValue) :
  Live tx.readKv t pk w ↔ w ∈ old
  := by
  simp only [Txn.get, encodeRowKey_eq, ok_bind] at h
  split at h
  · rename_i hrow
    cases h
    constructor
    · rintro ⟨-, bytes, hbytes, -⟩
      rw [hrow] at hbytes
      nomatch hbytes
    · nofun
  · rename_i bytes hbytes
    simp only [bind_eq_ok] at h
    obtain ⟨v, hdecode, _, -, hold⟩ := h
    cases hold
    have hlive : Live tx.readKv t pk v := ⟨hpk, bytes, hbytes, hdecode⟩
    apply hlive.iff_mem

/-- The row of a sequence. -/
def sequenceRow (kind : SequenceKind) (next : UInt64) : RowValue :=
  (RowValue.new.set 1 (.uint kind.code)).set 2 (.uint next)

theorem validateRow_sequenceRow (kind : SequenceKind) (next : UInt64) :
  validateRow idSequencesDesc [memcmpUint kind.code] (sequenceRow kind next) = .ok ()
  := by
  simp [validateRow, idSequencesDesc, TableDesc.pkColumns, TableDesc.constrained, checkPkColumn,
    checkColumn, sequenceRow, RowValue.get, RowValue.set, RowValue.new, setColumn,
    ColumnValue.component, ColumnValue.hasType]

theorem fits_uint (n : UInt64) :
  (ColumnValue.uint n).Fits
  := by
  refine ⟨?_, nofun⟩
  rw [ColumnValue.payload, length_be64]
  decide

theorem fits_sequenceRow (kind : SequenceKind) (next : UInt64) :
  (sequenceRow kind next).Fits
  := by
  have hnew : RowValue.new.Fits := nofun
  apply (hnew.set (fits_uint _)).set (fits_uint _)

theorem consistent_of_allocatePending (hM : Consistent tx.readKv) {kind : SequenceKind}
    {id : UInt64} (h : tx.allocatePending kind = .ok (id, pending)) :
  Consistent (tx.extend pending).readKv
  := by
  have ht : idSequencesDesc ∈ allTables := by
    decide
  have hpk : WellKeyed idSequencesDesc [memcmpUint kind.code] := .cons ⟨_, rfl⟩ .nil
  rw [Txn.allocatePending, bind_eq_ok] at h
  obtain ⟨old, hget, h⟩ := h
  obtain ⟨successor, rfl⟩ : ∃ successor, pending = [(rowKey idSequencesDesc.id
      [memcmpUint kind.code], some (sequenceRow kind successor).encode)] := by
    rw [bind_eq_ok] at h
    obtain ⟨next, -, h⟩ := h
    split at h
    · cases h
    · rename_i successor _
      simp only [bind_eq_ok, encodeRowKey_eq, ok_bind] at h
      obtain ⟨_, -, h⟩ := h
      cases h
      exact ⟨successor, rfl⟩
  have hedits : Edits tx idSequencesDesc [memcmpUint kind.code] old
      (some (sequenceRow kind successor)) [] := ⟨by simp, by simp [idSequencesDesc]⟩
  apply hedits.consistent hM ht hpk (live_iff_of_get hpk hget)
  · rintro w ⟨⟩
    use fits_sequenceRow kind successor, validateRow_sequenceRow kind successor
  · rintro w -
    rfl
  · simp
  · exact (by simp : ∀ e ∈ ([] : Pending), e.1 = taskHistoryKey)

/-! ## Runs of a transaction -/

/-- A call on a transaction. -/
inductive Call where
  | insert (table : TableDesc) (pk : List PkComponent) (value : RowValue)
  | update (table : TableDesc) (pk : List PkComponent) (changes : List (ColumnId × ColumnValue))
  | delete (table : TableDesc) (pk : List PkComponent)
  | allocateId (kind : SequenceKind)

namespace Call

/-- Make a call.  Only an allocation has an answer. -/
def apply (sha256 : Bytes → RootDigest) (tx : Txn) : Call → Except Error (Option UInt64) × Txn
  | .insert table pk value => (tx.insert sha256 table pk value).map (·.map fun _ => none) id
  | .update table pk changes => (tx.update sha256 table pk changes).map (·.map fun _ => none) id
  | .delete table pk => (tx.delete sha256 table pk).map (·.map fun _ => none) id
  | .allocateId kind => (tx.allocateId kind).map (·.map some) id

/-- The call names a table of the catalog, and a primary key with the parts the table calls for. -/
def WellFormed : Call → Prop
  | .insert table pk _ | .update table pk _ | .delete table pk =>
    table ∈ allTables ∧ WellKeyed table pk
  | .allocateId _ => True

/-- Every value of the call is one that a stored row can carry. -/
def Fits : Call → Prop
  | .insert _ _ value => value.Fits
  | .update _ _ changes => ∀ c ∈ changes, c.2.Fits
  | .delete .. | .allocateId _ => True

/-- Make calls one after the other. -/
def run (sha256 : Bytes → RootDigest) (tx : Txn) (calls : List Call) : Txn :=
  calls.foldl (fun tx c => (c.apply sha256 tx).2) tx

end Call

theorem finish_snd {α : Type} (tx : Txn) (plan : Except Error (α × Pending)) :
  (tx.finish plan).2 = tx ∨ ∃ answer pending, plan = .ok (answer, pending)
    ∧ (tx.finish plan).2 = tx.extend pending
  := by
  cases plan with
  | error e => exact .inl rfl
  | ok p => exact .inr ⟨p.1, p.2, rfl, rfl⟩

theorem consistent_of_finish {α : Type} {plan : Except Error (α × Pending)}
    (hM : Consistent tx.readKv)
    (h : ∀ answer pending, plan = .ok (answer, pending) → Consistent (tx.extend pending).readKv) :
  Consistent (tx.finish plan).2.readKv
  := by
  rcases finish_snd tx plan with heq | ⟨answer, pending, hplan, heq⟩
  · rw [heq]
    exact hM
  · rw [heq]
    apply h answer pending hplan

theorem map_unit_eq_ok {plan : Except Error Pending} {answer : Unit}
    (h : plan.map ((), ·) = .ok (answer, pending)) :
  plan = .ok pending
  := by
  cases plan with
  | error e => nomatch h
  | ok p =>
    cases h
    rfl

theorem Call.consistent {c : Call} (hM : Consistent tx.readKv) (hc : c.WellFormed)
    (hfits : c.Fits) :
  Consistent (c.apply sha256 tx).2.readKv
  := by
  cases c with
  | insert table pk value =>
    apply consistent_of_finish hM
    intro answer pending h
    apply consistent_of_insertPending hM hc.1 hc.2 hfits (map_unit_eq_ok h)
  | update table pk changes =>
    apply consistent_of_finish hM
    intro answer pending h
    apply consistent_of_updatePending hM hc.1 hc.2 hfits (map_unit_eq_ok h)
  | delete table pk =>
    apply consistent_of_finish hM
    intro answer pending h
    apply consistent_of_deletePending hM hc.1 hc.2 (map_unit_eq_ok h)
  | allocateId kind =>
    apply consistent_of_finish hM
    intro answer pending h
    apply consistent_of_allocatePending hM h

theorem snd_of_finish_error {α : Type} {plan : Except Error (α × Pending)} {e : Error}
    (h : (tx.finish plan).1 = .error e) :
  (tx.finish plan).2 = tx
  := by
  cases plan with
  | error e => rfl
  | ok p => nomatch h

theorem eq_error_of_map {α β : Type} {f : α → β} {x : Except Error α} {e : Error}
    (h : x.map f = .error e) :
  x = .error e
  := by
  cases x with
  | error e' =>
    cases h
    rfl
  | ok a => nomatch h

theorem Call.unchanged {c : Call} {e : Error} (h : (c.apply sha256 tx).1 = .error e) :
  (c.apply sha256 tx).2 = tx
  := by
  cases c <;> apply snd_of_finish_error (eq_error_of_map h)

theorem Call.consistent_run {calls : List Call} (hM : Consistent tx.readKv)
    (hcalls : ∀ c ∈ calls, c.WellFormed ∧ c.Fits) :
  Consistent (Call.run sha256 tx calls).readKv
  := by
  induction calls generalizing tx with
  | nil => exact hM
  | cons c calls ih =>
    obtain ⟨hc, hfits⟩ := hcalls c (mem_cons_self ..)
    apply ih (c.consistent hM hc hfits)
    intro c' hc'
    apply hcalls c' (mem_cons_of_mem c hc')

/-- A transaction over a consistent view sees a consistent catalog after any calls, if every value
it stores is one that a stored row can carry; and a call that fails leaves what it sees as it
was. -/
theorem transaction_keeps_catalog_consistent {view : OrderedMap Bytes Bytes} {calls : List Call}
    (hview : Consistent (Txn.start view).readKv) (hcalls : ∀ c ∈ calls, c.WellFormed ∧ c.Fits) :
  Consistent (Call.run sha256 (Txn.start view) calls).readKv
  ∧ ∀ (c : Call) e, (c.apply sha256 (Call.run sha256 (Txn.start view) calls)).1 = .error e →
      ∀ key, (c.apply sha256 (Call.run sha256 (Txn.start view) calls)).2.readKv key
        = (Call.run sha256 (Txn.start view) calls).readKv key
  := by
  use Call.consistent_run hview hcalls
  intro c e he key
  rw [Call.unchanged he]

/-! ### Two transactions -/

/-- The row of a tenant. -/
def sampleTenant (name : String) : RowValue :=
  (RowValue.new.set 1 (.uint 7)).set 2 (.text name)

/-- A digest for the examples. -/
def sampleSha256 : Bytes → RootDigest := fun _ => RootDigest.zero

theorem wellKeyed_sampleTenant :
  WellKeyed tenantsDesc [memcmpUint 7]
  := .cons ⟨7, rfl⟩ .nil

theorem consistent_empty :
  Consistent (Txn.start ∅).readKv
  := by
  have hdead : ∀ t pk v, ¬ Live (Txn.start ∅).readKv t pk v := by
    rintro t pk v ⟨-, bytes, hbytes, -⟩
    nomatch hbytes
  constructor
  · intro t _ suffix bytes hbytes
    nomatch hbytes
  · intro t _ suffix value
    constructor
    · nofun
    · rintro ⟨_, _, _, _, hlive, -⟩
      exact absurd hlive (hdead _ _ _)
  · intro t _ index _ _ pk v pk' v' hlive
    exact absurd hlive (hdead _ _ _)
  · intro t _ pk v hlive
    exact absurd hlive (hdead _ _ _)

theorem insert_sampleTenant (name : String) :
  (Call.insert tenantsDesc [memcmpUint 7] (sampleTenant name)).apply sampleSha256 (Txn.start ∅)
    = (.ok none, (Txn.start ∅).extend
      [(indexKey tenantsDesc.id 1 [memcmpText name] [], some (memcmpUint 7)),
        (rowKey tenantsDesc.id [memcmpUint 7], some (sampleTenant name).encode)])
  := by
  rfl

/-- A name of zeros. -/
def zeros (n : ℕ) : String := String.ofList (List.replicate n '\x00')

theorem toUTF8_zeros (n : ℕ) :
  (zeros n).toUTF8.data.toList = List.replicate n 0
  := by
  have hbytes : (List.replicate n '\x00').flatMap String.utf8EncodeChar = List.replicate n 0 := by
    induction n with
    | zero => rfl
    | succ n ih =>
      rw [replicate_succ, flatMap_cons, ih]
      rfl
  have hutf8 : (zeros n).toUTF8 = (List.replicate n '\x00').utf8Encode := String.toByteArray_ofList
  rw [hutf8, List.utf8Encode, hbytes, data_toByteArray]

theorem replicate_seven_add (n : ℕ) :
  List.replicate (7 + n) (0 : UInt8) = [0, 0, 0, 0, 0, 0, 0] ++ List.replicate n 0
  := by
  rw [replicate_add]
  rfl

theorem decodeColumns_empty_text (fuel : ℕ) (rest : Bytes) (row : RowValue) :
  RowValue.decodeColumns (fuel + 1) ([0, 2, 1, 0, 0, 0, 0] ++ rest) row
    = RowValue.decodeColumns fuel rest (row.set 2 (.text ""))
  := by
  have htext : ColumnValue.ofPayload 1 [] = .ok (.text "") := rfl
  change (do
    failIf (rest.length < 0) (Error.malformedKey "truncated row value payload")
    let value ← ColumnValue.ofPayload 1 []
    RowValue.decodeColumns fuel rest (row.set 2 value)) = _
  rw [failIf_neg (Nat.not_lt_zero _), ok_bind, htext, ok_bind]

theorem decodeColumns_zeros (fuel : ℕ) (rest : Bytes) (row : RowValue) :
  RowValue.decodeColumns (fuel + 1) ([0, 0, 0, 0, 0, 0, 0] ++ rest) row
    = .error (.malformedKey "bad uint payload width")
  := by
  rfl

/-- A name whose length is stored as zero makes a row that cannot be read. -/
theorem decode_sampleTenant_zeros {n : ℕ} (hlength : be 4 n = [0, 0, 0, 0]) (hn : 7 ≤ n) :
  RowValue.decode (sampleTenant (zeros n)).encode
    = .error (.malformedKey "bad uint payload width")
  := by
  obtain ⟨k, rfl⟩ := Nat.exists_eq_add_of_le hn
  have hname : RowValue.encodeColumn (2, .text (zeros (7 + k)))
      = [0, 2, 1, 0, 0, 0, 0] ++ ([0, 0, 0, 0, 0, 0, 0] ++ List.replicate k 0) := by
    have hcol : be 2 (2 : ColumnId).toNat = [0, 2] := by
      decide
    rw [RowValue.encodeColumn, ColumnValue.payload, toUTF8_zeros, length_replicate, hlength,
      replicate_seven_add, hcol]
    rfl
  have hencode : (sampleTenant (zeros (7 + k))).encode = RowValue.encodeColumn (1, .uint 7)
      ++ ([0, 2, 1, 0, 0, 0, 0] ++ ([0, 0, 0, 0, 0, 0, 0] ++ List.replicate k 0)) := by
    rw [← hname, ← append_nil (RowValue.encodeColumn (2, _))]
    rfl
  obtain ⟨fuel, hfuel⟩ : ∃ fuel, (sampleTenant (zeros (7 + k))).encode.length = fuel + 3 := by
    exact ⟨_, by rw [Nat.add_right_comm]; rfl⟩
  rw [RowValue.decode, hfuel, hencode, RowValue.decodeColumns_encodeColumn (fits_uint 7),
    decodeColumns_empty_text, decodeColumns_zeros]

/-- The length of a column is stored in four bytes: a tenant with a name of `2 ^ 32` bytes is
inserted, with an entry of its name, and its row cannot be read. -/
theorem long_name_breaks_catalog :
  ∃ name : String, name.toUTF8.data.toList.length = 2 ^ 32
    ∧ Consistent (Txn.start ∅).readKv
    ∧ (Call.insert tenantsDesc [memcmpUint 7] (sampleTenant name)).WellFormed
    ∧ ((Call.insert tenantsDesc [memcmpUint 7] (sampleTenant name)).apply sampleSha256
      (Txn.start ∅)).1 = .ok none
    ∧ ¬ Consistent ((Call.insert tenantsDesc [memcmpUint 7] (sampleTenant name)).apply sampleSha256
      (Txn.start ∅)).2.readKv
  := by
  have hlength : be 4 (2 ^ 32) = [0, 0, 0, 0] := rfl
  have hseven : 7 ≤ 2 ^ 32 := by
    norm_num
  -- The length is a variable from here on, so that no term is evaluated.
  generalize 2 ^ 32 = n at hlength hseven
  refine ⟨zeros n, ?_, consistent_empty, ⟨by decide, wellKeyed_sampleTenant⟩, ?_, ?_⟩
  · rw [toUTF8_zeros, length_replicate]
  · rw [insert_sampleTenant]
  · intro h
    have hlaid : Laid tenantsDesc [memcmpUint 7]
        [(indexKey tenantsDesc.id 1 [memcmpText (zeros n)] [], some (memcmpUint 7))] [] := by
      refine ⟨?_, nofun⟩
      intro e he
      rw [mem_singleton.mp he]
      exact ⟨_, rfl⟩
    obtain ⟨_, _, -, -, hdecode, -⟩ := h.rows tenantsDesc (by decide) _ _ hlaid.readKv_row
    rw [decode_sampleTenant_zeros hlength hseven] at hdecode
    nomatch hdecode

/-- A tenant with a short name. -/
theorem transaction_keeps_catalog_consistent_tenant :
  ((Call.insert tenantsDesc [memcmpUint 7] (sampleTenant "a")).apply sampleSha256
      (Txn.start ∅)).1 = .ok none
  ∧ Consistent (Call.run sampleSha256 (Txn.start ∅)
    [.insert tenantsDesc [memcmpUint 7] (sampleTenant "a")]).readKv
  := by
  use by rw [insert_sampleTenant]
  apply (transaction_keeps_catalog_consistent consistent_empty _).1
  intro c hc
  rw [mem_singleton.mp hc]
  have hnew : RowValue.new.Fits := nofun
  refine ⟨⟨by decide, wellKeyed_sampleTenant⟩, (hnew.set (fits_uint 7)).set ⟨?_, nofun⟩⟩
  decide

end Kv9.Meta
