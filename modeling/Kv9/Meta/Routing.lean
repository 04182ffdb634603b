import Kv9.Meta.Transactions
import Kv9.Meta.Reads

/-!
# Routing a key to its region

A key of a keyspace is routed by the index of the regions' start keys: one step back from the
key finds the region that starts last at or before it, and the key is in that region if it is
before its end.  Where the intervals of a keyspace are not empty and disjoint, no other region
can hold the key.
-/

namespace Kv9.Meta

open Codec Except OrderedMap List

/-! ## Regions -/

/-- A row of the regions, read. -/
structure Region where
  id : RegionId
  keyspaceId : KeyspaceId
  startKey : Bytes
  endKey : Bytes
  epochConf : UInt64
  epochVer : UInt64
  leaderNode : UInt64
deriving DecidableEq

/-- `required_uint`. -/
def requiredUint (v : RowValue) (c : ColumnId) : Except Error UInt64 :=
  match v.get c with
  | some (.uint n) => .ok n
  | _ => .error (.malformedKey s!"required catalog uint {c} missing or mistyped")

/-- `required_bytes`. -/
def requiredBytes (v : RowValue) (c : ColumnId) : Except Error Bytes :=
  match v.get c with
  | some (.bytes b) => .ok b
  | _ => .error (.malformedKey s!"required catalog bytes {c} missing or mistyped")

/-- `checked_keyspace`. -/
def checkedKeyspace (id : UInt64) : Except Error KeyspaceId := do
  failIf (maxKeyspace.toUInt64 < id)
    (.malformedKey "catalog keyspace id exceeds encoded namespace")
  return id.toUInt32

/-- `decode_region`. -/
def decodeRegion (id : RegionId) (v : RowValue) : Except Error Region := do
  let keyspaceId ← checkedKeyspace (← requiredUint v 2)
  let startKey ← requiredBytes v 3
  let endKey ← requiredBytes v 4
  let epochConf ← requiredUint v 5
  let epochVer ← requiredUint v 6
  let leaderNode ← requiredUint v 7
  return ⟨id, keyspaceId, startKey, endKey, epochConf, epochVer, leaderNode⟩

/-- `region_for_key_in`. -/
def Txn.regionForKeyIn (tx : Txn) (keyspace : KeyspaceId) (key : Bytes) :
    Except Error (Option Region) := do
  let ksComp := memcmpUint keyspace.toUInt64
  let target := memcmpBytes key
  match ← tx.indexRevFirstLe regionsDesc 1 [ksComp] target with
  | none => return none
  | some (suffix, _) =>
    let rest := suffix.drop ksComp.length
    let comps ← splitComponents [.bytes, .uint] rest true
    let regionId ← decodeUintComponent (comps.getD 1 [])
    match ← tx.get regionsDesc [memcmpUint regionId] with
    | none => return none
    | some value =>
      let region ← decodeRegion regionId value
      failIf (region.keyspaceId ≠ keyspace ∨ memcmpBytes region.startKey ≠ comps.getD 0 []
          ∨ key < region.startKey)
        (.malformedKey "region row disagrees with routing index")
      -- an empty end key is the end of the keyspace
      if region.endKey = [] ∨ key < region.endKey then return some region
      else return none

/-- The keys of a region. -/
def Region.Contains (r : Region) (key : Bytes) : Prop :=
  r.startKey ≤ key ∧ (r.endKey = [] ∨ key < r.endKey)

instance (r : Region) (key : Bytes) : Decidable (r.Contains key) :=
  inferInstanceAs (Decidable (_ ∧ _))

/-- The transaction sees the region among the rows. -/
def Txn.HasRegion (tx : Txn) (r : Region) : Prop :=
  ∃ v, Live tx.readKv regionsDesc [memcmpUint r.id] v ∧ decodeRegion r.id v = .ok r

/-- The region rows of a keyspace: they can be read as regions, and the regions are disjoint. -/
structure RegionsDisjoint (tx : Txn) (keyspace : KeyspaceId) : Prop where
  decodes : ∀ id v, Live tx.readKv regionsDesc [memcmpUint id] v →
    v.get 2 = some (.uint keyspace.toUInt64) → ∃ r, decodeRegion id v = .ok r
  disjoint : ∀ r r', tx.HasRegion r → tx.HasRegion r' → r.keyspaceId = keyspace →
    r'.keyspaceId = keyspace → r ≠ r' → ∀ key, r.Contains key → ¬ r'.Contains key

/-! ## The routing index -/

/-- The index of the regions by their ranges. -/
def byRange : IndexDesc := ⟨1, "by_range", [2, 3], false⟩

theorem regionsDesc_mem :
  regionsDesc ∈ allTables
  := by
  decide

/-- The key of the index entry of a region. -/
def routeKey (keyspace : UInt64) (start : Bytes) (id : RegionId) : Bytes :=
  indexKey regions 1 [memcmpUint keyspace, memcmpBytes start] [memcmpUint id]

theorem routeKey_eq (keyspace : UInt64) (start : Bytes) (id : RegionId) :
  routeKey keyspace start id
    = indexKey regions 1 [memcmpUint keyspace] [] ++ (memcmpBytes start ++ memcmpUint id)
  := by
  simp [routeKey, indexKey]

variable {start : Bytes}

variable {keyspace : KeyspaceId} {start' key stop : Bytes} {keyspace' : UInt64} {x : ColumnValue}
  {t : TableDesc} {c : ColumnId} {r : Region} {tx : Txn}

/-- A region that starts earlier has an entry that is earlier. -/
theorem routeKey_lt {keyspace : UInt64} (h : start < start') (id id' : RegionId) :
  routeKey keyspace start id < routeKey keyspace start' id'
  := by
  rw [routeKey_eq, routeKey_eq]
  apply List.Lex.append_left
  apply keepsOrder_memcmpBytes h

variable {id : RegionId}

theorem indexKey_prefix_routeKey {keyspace : UInt64} :
  indexKey regions 1 [memcmpUint keyspace] [] <+: routeKey keyspace' start id
    ↔ keyspace' = keyspace
  := by
  have hlen : ∀ k : UInt64, (indexKey regions 1 [memcmpUint k] []).length = 18 := by
    intro k
    have hk : (memcmpUint k).length = 8 := length_be64 k
    simp [indexKey, tableHeader, hk]
  rw [routeKey_eq]
  constructor
  · rintro ⟨rest, hrest⟩
    obtain ⟨hlead, -⟩ := append_inj hrest (by rw [hlen, hlen])
    obtain ⟨-, -, htail⟩ := tableHeader_append_inj hlead
    simp only [flatten_cons, flatten_nil, append_nil, singleton_append,
      List.cons.injEq, true_and] at htail
    apply (memcmpUint_inj.mp htail).symm
  · rintro rfl
    apply prefix_append

/-- The entries at or below a key are those of the regions of the keyspace that start at or
before it. -/
theorem atOrBelow_routeKey {keyspace : UInt64} :
  AtOrBelow regions 1 [memcmpUint keyspace] (memcmpBytes key) (routeKey keyspace' start id)
    ↔ keyspace' = keyspace ∧ start ≤ key
  := by
  have hbound : indexKey regions 1 ([memcmpUint keyspace] ++ [memcmpBytes key]) []
      = indexKey regions 1 [memcmpUint keyspace] [] ++ memcmpBytes key := by
    simp [indexKey]
  rw [AtOrBelow, indexKey_prefix_routeKey, hbound]
  apply and_congr_right
  rintro rfl
  rw [routeKey_eq]
  rcases lt_trichotomy start key with hlt | rfl | hgt
  · have hbelow := keepsOrder_memcmpBytes hlt (memcmpUint id) []
    rw [append_nil] at hbelow
    apply iff_of_true (Or.inl (List.Lex.append_left _ hbelow _)) hlt.le
  · apply iff_of_true (Or.inr _) le_rfl
    apply prefix_append
  · apply iff_of_false _ (not_le.mpr hgt)
    have habove : ∀ r, indexKey regions 1 [memcmpUint keyspace'] [] ++ memcmpBytes key ++ r
        < indexKey regions 1 [memcmpUint keyspace'] [] ++ (memcmpBytes start ++ memcmpUint id) := by
      intro r
      rw [append_assoc]
      apply List.Lex.append_left
      apply keepsOrder_memcmpBytes hgt
    rintro (hlt | ⟨r, hr⟩)
    · have hself := habove []
      rw [append_nil] at hself
      apply lt_asymm hlt hself
    · apply (habove r).ne hr

theorem eq_uint_of_hasType (h : x.hasType .uint = true) :
  ∃ n, x = .uint n
  := by
  cases x with
  | uint n => exact ⟨n, rfl⟩
  | _ => nomatch h

theorem eq_bytes_of_hasType (h : x.hasType .bytes = true) :
  ∃ b, x = .bytes b
  := by
  cases x with
  | bytes b => exact ⟨b, rfl⟩
  | _ => nomatch h

variable {pk : List PkComponent} {v : RowValue}

/-- The columns of a valid region row that the index reads. -/
theorem exists_columns_of_validateRow (h : validateRow regionsDesc pk v = .ok ()) :
  ∃ keyspace start, v.get 2 = some (.uint keyspace) ∧ v.get 3 = some (.bytes start)
    ∧ indexColumns regionsDesc byRange v = .ok [memcmpUint keyspace, memcmpBytes start]
  := by
  obtain ⟨x, hx⟩ := Option.ne_none_iff_exists'.mp
    (get_ne_none_of_validateRow h (show 2 ∈ regionsDesc.constrained by decide))
  obtain ⟨y, hy⟩ := Option.ne_none_iff_exists'.mp
    (get_ne_none_of_validateRow h (show 3 ∈ regionsDesc.constrained by decide))
  obtain ⟨keyspace, rfl⟩ := eq_uint_of_hasType (hasType_of_validateRow h
    (show ⟨2, "keyspace_id", .uint, false⟩ ∈ regionsDesc.columns by decide) hx)
  obtain ⟨start, rfl⟩ := eq_bytes_of_hasType (hasType_of_validateRow h
    (show ⟨3, "start_key", .bytes, false⟩ ∈ regionsDesc.columns by decide) hy)
  use keyspace, start, hx, hy
  rw [indexColumns, byRange]
  simp only [mapM_cons, mapM_nil, hx, hy, ColumnValue.component]
  rfl

theorem eq_of_wellKeyed (h : WellKeyed regionsDesc pk) :
  ∃ id, pk = [memcmpUint id]
  := by
  obtain ⟨c, cs, ⟨id, rfl⟩, hcs, rfl⟩ := forall₂_cons_left_iff.mp h
  rw [forall₂_nil_left_iff.mp hcs]
  use id

section

variable {tx : Txn} (h : Consistent tx.readKv)
include h

/-- What the index holds of a region row. -/
theorem exists_columns_of_live (hv : Live tx.readKv regionsDesc [memcmpUint id] v) :
  ∃ keyspace start, v.get 2 = some (.uint keyspace) ∧ v.get 3 = some (.bytes start)
    ∧ tx.readKv (routeKey keyspace start id) = some []
  := by
  obtain ⟨keyspace, start, hkeyspace, hstart, hcols⟩ :=
    exists_columns_of_validateRow (h.rows.validateRow_of_live regionsDesc_mem hv)
  use keyspace, start, hkeyspace, hstart
  apply h.entry_of_live regionsDesc_mem (show byRange ∈ regionsDesc.indexes by decide) hv
  use [memcmpUint keyspace, memcmpBytes start], hcols
  constructor <;> rfl

/-- Every entry of the index is the entry of a region row. -/
theorem exists_live_of_entry {lead : List PkComponent} {value : Bytes}
    (hkey : tx.readKv key = some value) (hlead : indexKey regions 1 lead [] <+: key) :
  ∃ id v keyspace start, Live tx.readKv regionsDesc [memcmpUint id] v
    ∧ v.get 2 = some (.uint keyspace) ∧ v.get 3 = some (.bytes start)
    ∧ key = routeKey keyspace start id
  := by
  obtain ⟨rest, rfl⟩ := hlead
  obtain ⟨index, hindex, pk, v, hv, cols, hcols, hentry, -⟩ :=
    (h.entries regionsDesc regionsDesc_mem _ _).mp hkey
  obtain rfl : index = byRange := mem_singleton.mp hindex
  obtain ⟨id, rfl⟩ := eq_of_wellKeyed hv.1
  obtain ⟨keyspace, start, hkeyspace, hstart, hcols'⟩ :=
    exists_columns_of_validateRow (h.rows.validateRow_of_live regionsDesc_mem hv)
  cases hcols.symm.trans hcols'
  use id, v, keyspace, start, hv, hkeyspace, hstart, hentry

/-- A row that can be read is found by its primary key. -/
theorem get_of_live (ht : t ∈ allTables) (hv : Live tx.readKv t pk v) :
  tx.get t pk = .ok (some v)
  := by
  obtain ⟨hpk, bytes, hbytes, hdecode⟩ := hv
  have hvalid := h.rows.validateRow_of_live ht ⟨hpk, bytes, hbytes, hdecode⟩
  rw [Txn.get, encodeRowKey_eq, ok_bind, hbytes]
  simp [hdecode, hvalid]

end

/-! ## One step back -/

theorem requiredUint_eq_ok {n : UInt64} :
  requiredUint v c = .ok n ↔ v.get c = some (.uint n)
  := by
  unfold requiredUint
  split
  · next m hm =>
      rw [hm]
      simp
  · next hne =>
      constructor
      · nofun
      · intro hget
        apply absurd hget (hne n)

theorem requiredBytes_eq_ok {b : Bytes} :
  requiredBytes v c = .ok b ↔ v.get c = some (.bytes b)
  := by
  unfold requiredBytes
  split
  · next m hm =>
      rw [hm]
      simp
  · next hne =>
      constructor
      · nofun
      · intro hget
        apply absurd hget (hne b)

theorem checkedKeyspace_eq_ok {id : UInt64} (h : checkedKeyspace id = .ok keyspace) :
  keyspace.toUInt64 = id
  := by
  simp only [checkedKeyspace, bind_eq_ok, failIf_eq_ok, pure_eq_ok] at h
  obtain ⟨⟨⟩, hle, hid⟩ := h
  cases hid
  have hid : id.toNat ≤ 0x00FFFFFF := UInt64.le_iff_toNat_le.mp (UInt64.not_lt.mp hle)
  rw [← UInt64.toNat_inj, UInt32.toNat_toUInt64, UInt64.toNat_toUInt32]
  omega

/-- What a region says is what its row says. -/
theorem columns_of_decodeRegion (h : decodeRegion id v = .ok r) :
  r.id = id ∧ v.get 2 = some (.uint r.keyspaceId.toUInt64) ∧ v.get 3 = some (.bytes r.startKey)
  := by
  simp only [decodeRegion, bind_eq_ok, requiredUint_eq_ok, requiredBytes_eq_ok] at h
  obtain ⟨n, hn, keyspace, hkeyspace, start, hstart, _, -, _, -, _, -, _, -, hr⟩ := h
  cases hr
  rw [checkedKeyspace_eq_ok hkeyspace]
  use rfl

theorem splitComponents_routeKey (keyspace : UInt64) (start : Bytes) (id : RegionId) :
  splitComponents [.bytes, .uint] (((routeKey keyspace start id).drop 10).drop (memcmpUint keyspace).length)
    true = .ok [memcmpBytes start, memcmpUint id]
  := by
  have hlen : (indexKey regions 1 [memcmpUint keyspace] []).length = 10 + (memcmpUint keyspace).length := by
    simp [indexKey, tableHeader]
    omega
  rw [drop_drop, routeKey_eq, drop_left' hlen]
  have hsplit := splitComponents_flatMap [.bytes start, .uint id] [] true fun _ => rfl
  simpa [KeyValue.type, KeyValue.component] using hsplit

/-- The entries of the regions of a keyspace that start at or before a key. -/
def Txn.candidates (tx : Txn) (keyspace : KeyspaceId) (key : Bytes) : List (Bytes × Bytes) :=
  tx.merged.toList.filter fun e =>
    decide (AtOrBelow regions 1 [memcmpUint keyspace.toUInt64] (memcmpBytes key) e.1)

theorem Txn.indexRevFirstLe_candidates (tx : Txn) (keyspace : KeyspaceId) (key : Bytes) :
  tx.indexRevFirstLe regionsDesc 1 [memcmpUint keyspace.toUInt64] (memcmpBytes key)
    = .ok ((tx.candidates keyspace key).getLast?.map entrySuffix)
  := tx.indexRevFirstLe_eq ..

section

variable {tx : Txn} (h : Consistent tx.readKv) {keyspace : KeyspaceId} {key : Bytes}
include h

/-- A region that starts at or before the key has its entry among the candidates. -/
theorem mem_candidates (hr : tx.HasRegion r) (hkeyspace : r.keyspaceId = keyspace)
    (hstart : r.startKey ≤ key) :
  (routeKey keyspace.toUInt64 r.startKey r.id, []) ∈ tx.candidates keyspace key
  := by
  obtain ⟨v, hv, hdecode⟩ := hr
  subst hkeyspace
  obtain ⟨-, hks, hstartKey⟩ := columns_of_decodeRegion hdecode
  obtain ⟨ks, start, hks', hstartKey', hentry⟩ := exists_columns_of_live h hv
  cases hks.symm.trans hks'
  cases hstartKey.symm.trans hstartKey'
  apply mem_filter.mpr
  rw [mem_toList, tx.getElem?_merged, decide_eq_true_eq, atOrBelow_routeKey]
  use hentry

/-- A candidate is the entry of a region that starts at or before the key. -/
theorem region_of_mem_candidates (hregions : RegionsDisjoint tx keyspace) {e : Bytes × Bytes}
    (he : e ∈ tx.candidates keyspace key) :
  ∃ r, tx.HasRegion r ∧ r.keyspaceId = keyspace ∧ r.startKey ≤ key
    ∧ e.1 = routeKey keyspace.toUInt64 r.startKey r.id
  := by
  obtain ⟨hmem, hbelow⟩ := mem_filter.mp he
  rw [mem_toList, tx.getElem?_merged] at hmem
  rw [decide_eq_true_eq] at hbelow
  obtain ⟨id, v, ks, start, hv, hks, hstart, hkey⟩ := exists_live_of_entry h hmem hbelow.1
  rw [hkey, atOrBelow_routeKey] at hbelow
  obtain ⟨rfl, hle⟩ := hbelow
  obtain ⟨r, hr⟩ := hregions.decodes id v hv hks
  obtain ⟨rfl, hks', hstart'⟩ := columns_of_decodeRegion hr
  cases hstart.symm.trans hstart'
  have hsame : r.keyspaceId.toUInt64 = keyspace.toUInt64 :=
    ColumnValue.uint.inj (Option.some.inj (hks'.symm.trans hks))
  use r, ⟨v, hv, hr⟩, UInt32.toUInt64_inj.mp hsame

/-- The region that one step back finds is the one that starts last at or before the key. -/
theorem regionForKeyIn_cases (hregions : RegionsDisjoint tx keyspace) (key : Bytes) :
  (tx.regionForKeyIn keyspace key = .ok none
      ∧ ∀ r, tx.HasRegion r → r.keyspaceId = keyspace → key < r.startKey)
    ∨ ∃ r, tx.HasRegion r ∧ r.keyspaceId = keyspace ∧ r.startKey ≤ key
      ∧ (∀ r', tx.HasRegion r' → r'.keyspaceId = keyspace → r'.startKey ≤ key →
        r'.startKey ≤ r.startKey)
      ∧ tx.regionForKeyIn keyspace key
        = .ok (if r.endKey = [] ∨ key < r.endKey then some r else none)
  := by
  rw [Txn.regionForKeyIn]
  simp only [tx.indexRevFirstLe_candidates, ok_bind]
  cases hlast : (tx.candidates keyspace key).getLast? with
  | none =>
    left
    use rfl
    intro r hr hkeyspace
    rw [← not_le]
    intro hstart
    have hmem := mem_candidates h hr hkeyspace hstart
    rw [List.getLast?_eq_none_iff.mp hlast] at hmem
    cases hmem
  | some e =>
    obtain ⟨r, hr, hkeyspace, hle, hkey⟩ :=
      region_of_mem_candidates h hregions (mem_of_getLast? hlast)
    right
    use r, hr, hkeyspace, hle
    constructor
    · -- a region that starts later has a later entry
      intro r' hr' hkeyspace' hle'
      rw [← not_lt]
      intro hlater
      have hgreatest := ((ascending_toList tx.merged).filter _).le_of_getLast? hlast
        (mem_candidates h hr' hkeyspace' hle')
      rw [hkey] at hgreatest
      apply absurd (routeKey_lt hlater r.id r'.id) (not_lt.mpr hgreatest)
    · obtain ⟨v, hv, hdecode⟩ := hr
      have hagrees : ¬ (r.keyspaceId ≠ keyspace
          ∨ memcmpBytes r.startKey ≠ memcmpBytes r.startKey ∨ key < r.startKey) := by
        simp [hkeyspace, hle]
      simp only [Option.map_some, entrySuffix, hkey, splitComponents_routeKey, ok_bind,
        getD_cons_succ, getD_cons_zero, decodeUintComponent_memcmpUint,
        get_of_live h regionsDesc_mem hv, hdecode]
      rw [failIf_neg hagrees]
      split_ifs <;> rfl

end

/-- Where the regions of a keyspace are disjoint and none is empty, a key is routed to the
region that has it, and to none if no region has it. -/
theorem regionForKeyIn_iff {tx : Txn} (h : Consistent tx.readKv) {keyspace : KeyspaceId}
    (hregions : RegionsDisjoint tx keyspace)
    (hnonempty : ∀ r, tx.HasRegion r → r.keyspaceId = keyspace → ∃ key, r.Contains key)
    (key : Bytes) :
  (∃ answer, tx.regionForKeyIn keyspace key = .ok answer)
    ∧ (∀ r, tx.regionForKeyIn keyspace key = .ok (some r)
      ↔ tx.HasRegion r ∧ r.keyspaceId = keyspace ∧ r.Contains key)
    ∧ (tx.regionForKeyIn keyspace key = .ok none
      ↔ ∀ r, tx.HasRegion r → r.keyspaceId = keyspace → ¬ r.Contains key)
  := by
  have hunique : ∀ r r', tx.HasRegion r → tx.HasRegion r' → r.keyspaceId = keyspace →
      r'.keyspaceId = keyspace → ∀ key, r.Contains key → r'.Contains key → r = r' := by
    intro r r' hr hr' hks hks' key hkey hkey'
    by_contra hne
    apply hregions.disjoint r r' hr hr' hks hks' hne key hkey hkey'
  have hstarts : ∀ r, tx.HasRegion r → r.keyspaceId = keyspace → r.Contains r.startKey := by
    intro r hr hks
    obtain ⟨key, hle, hend⟩ := hnonempty r hr hks
    use le_rfl
    apply hend.imp_right hle.trans_lt
  rcases regionForKeyIn_cases h hregions key with
    ⟨hanswer, hbefore⟩ | ⟨r, hr, hks, hle, hlast, hanswer⟩
  · have hnone : ∀ r, tx.HasRegion r → r.keyspaceId = keyspace → ¬ r.Contains key := by
      intro r hr hks hkey
      apply not_lt.mpr hkey.1 (hbefore r hr hks)
    rw [hanswer]
    use ⟨none, rfl⟩
    constructor
    · intro r
      apply iff_of_false nofun
      rintro ⟨hr, hks, hkey⟩
      apply hnone r hr hks hkey
    · apply iff_of_true rfl hnone
  · rw [hanswer]
    use ⟨_, rfl⟩
    by_cases hend : r.endKey = [] ∨ key < r.endKey
    · rw [if_pos hend]
      constructor
      · intro r'
        rw [Except.ok.injEq, Option.some.injEq]
        constructor
        · rintro rfl
          use hr, hks, hle, hend
        · rintro ⟨hr', hks', hkey'⟩
          apply hunique r r' hr hr' hks hks' key ⟨hle, hend⟩ hkey'
      · apply iff_of_false nofun
        intro hnone
        apply hnone r hr hks ⟨hle, hend⟩
    · -- a region with the key would have the start of the one that starts last
      have hnone : ∀ r', tx.HasRegion r' → r'.keyspaceId = keyspace → ¬ r'.Contains key := by
        intro r' hr' hks' hkey'
        have hsame : r = r' := hunique r r' hr hr' hks hks' r.startKey (hstarts r hr hks)
          ⟨hlast r' hr' hks' hkey'.1, hkey'.2.imp_right hle.trans_lt⟩
        apply hend (hsame ▸ hkey'.2)
      rw [if_neg hend]
      constructor
      · intro r'
        apply iff_of_false nofun
        rintro ⟨hr', hks', hkey'⟩
        apply hnone r' hr' hks' hkey'
      · apply iff_of_true rfl hnone

/-! ### Two catalogs -/

/-- The region rows, read as regions. -/
def Txn.regionRows (tx : Txn) : List (Except Error Region) :=
  (tx.entriesAfter regionsDesc none).map fun e => do
    let row ← readRow regionsDesc e
    let id ← decodeUintComponent (row.pk.getD 0 [])
    decodeRegion id row.value

theorem mem_regionRows (h : Consistent tx.readKv)
    (hv : Live tx.readKv regionsDesc [memcmpUint id] v) :
  decodeRegion id v ∈ tx.regionRows
  := by
  have hvalid := h.rows.validateRow_of_live regionsDesc_mem hv
  obtain ⟨-, bytes, hbytes, hdecode⟩ := hv
  have hsplit : splitComponents regionsDesc.pkTypes (memcmpUint id) true
      = .ok [memcmpUint id] := by
    have htypes : regionsDesc.pkTypes = [.uint] := by decide
    have hone := splitComponents_flatMap [.uint id] [] true fun _ => rfl
    rw [htypes]
    simpa [KeyValue.type, KeyValue.component] using hone
  have hread : readRow regionsDesc (rowKey regionsDesc.id [memcmpUint id], bytes)
      = .ok ⟨[memcmpUint id], v⟩ := by
    rw [readRow, rowKey, flatten_singleton, rowKeySuffix_tableHeader, ok_bind, hsplit,
      ok_bind, hdecode, ok_bind, hvalid]
    rfl
  apply mem_map.mpr
  use (rowKey regionsDesc.id [memcmpUint id], bytes)
  constructor
  · apply mem_filter.mpr
    rw [mem_toList, tx.getElem?_merged]
    use hbytes
    rw [decide_eq_true_eq]
    use prefix_append ..
    simp
  · rw [hread, ok_bind, getD_cons_zero, decodeUintComponent_memcmpUint, ok_bind]

/-- A catalog whose region rows are two regions. -/
theorem regionsDisjoint_of_regionRows (h : Consistent tx.readKv) {r₁ r₂ : Region}
    (hrows : tx.regionRows = [.ok r₁, .ok r₂])
    (hdisjoint : ∀ key, r₁.Contains key → ¬ r₂.Contains key) :
  RegionsDisjoint tx keyspace ∧ ∀ r, tx.HasRegion r → r = r₁ ∨ r = r₂
  := by
  have hlisted : ∀ r, tx.HasRegion r → r = r₁ ∨ r = r₂ := by
    rintro r ⟨v, hv, hdecode⟩
    have hmem := mem_regionRows h hv
    rw [hrows, hdecode] at hmem
    simpa using hmem
  refine ⟨⟨?_, ?_⟩, hlisted⟩
  · intro id v hv _
    have hmem := mem_regionRows h hv
    rw [hrows, mem_cons, mem_singleton] at hmem
    rcases hmem with hdecode | hdecode
    · use r₁
    · use r₂
  · intro r r' hr hr' _ _ hne key hkey hkey'
    rcases hlisted r hr with rfl | rfl
    · rcases hlisted r' hr' with rfl | rfl
      · apply hne rfl
      · apply hdisjoint key hkey hkey'
    · rcases hlisted r' hr' with rfl | rfl
      · apply hdisjoint key hkey' hkey
      · apply hne rfl

/-- The row of a region of keyspace 9. -/
def sampleRegion (id : RegionId) (start stop : Bytes) : RowValue :=
  ((((((RowValue.new.set 1 (.uint id)).set 2 (.uint 9)).set 3 (.bytes start)).set 4
    (.bytes stop)).set 5 (.uint 1)).set 6 (.uint 1)).set 7 (.uint 0)

/-- The row of keyspace 9. -/
def sampleKeyspace : RowValue :=
  ((RowValue.new.set 1 (.uint 9)).set 2 (.text "k")).set 3 (.uint 7)

/-- A transaction that inserts a tenant, a keyspace of it and two of the keyspace's regions. -/
def twoRegions (start stop start' stop' : Bytes) : Txn :=
  Call.run sampleSha256 (Txn.start ∅)
    [.insert tenantsDesc [memcmpUint 7] (sampleTenant "a"),
      .insert keyspacesDesc [memcmpUint 9] sampleKeyspace,
      .insert regionsDesc [memcmpUint 1] (sampleRegion 1 start stop),
      .insert regionsDesc [memcmpUint 2] (sampleRegion 2 start' stop')]

theorem fits_new :
  RowValue.new.Fits
  := nofun

theorem keyed_uint (id : UInt64) (htypes : t.pkColumns.map (·.ty) = [.uint]) :
  WellKeyed t [memcmpUint id]
  := by
  rw [WellKeyed, htypes]
  exact .cons ⟨id, rfl⟩ .nil

theorem fits_sampleRegion (id : RegionId) (hstart : start.length < 2 ^ 32)
    (hstop : stop.length < 2 ^ 32) :
  (sampleRegion id start stop).Fits
  := by
  have hbytes : ∀ {b : Bytes}, b.length < 2 ^ 32 → (ColumnValue.bytes b).Fits :=
    fun hb => ⟨hb, nofun⟩
  apply ((((((fits_new.set (fits_uint id)).set (fits_uint 9)).set (hbytes hstart)).set
    (hbytes hstop)).set (fits_uint 1)).set (fits_uint 1)).set (fits_uint 0)

theorem consistent_twoRegions {stop' : Bytes}
    (hlength : ∀ b ∈ [start, stop, start', stop'], b.length < 2 ^ 32) :
  Consistent (twoRegions start stop start' stop').readKv
  := by
  simp only [forall_mem_cons] at hlength
  obtain ⟨hstart, hstop, hstart', hstop', -⟩ := hlength
  apply Call.consistent_run consistent_empty
  simp only [forall_mem_cons]
  refine ⟨⟨⟨by decide, keyed_uint 7 (by decide)⟩, ?_⟩, ⟨⟨by decide, keyed_uint 9 (by decide)⟩, ?_⟩,
    ⟨⟨by decide, keyed_uint 1 (by decide)⟩, fits_sampleRegion 1 hstart hstop⟩,
    ⟨⟨by decide, keyed_uint 2 (by decide)⟩, fits_sampleRegion 2 hstart' hstop'⟩, nofun⟩
  · apply (fits_new.set (fits_uint 7)).set
    exact ⟨by decide, nofun⟩
  · apply ((fits_new.set (fits_uint 9)).set _).set (fits_uint 7)
    exact ⟨by decide, nofun⟩

theorem regionRows_twoRegions :
  (twoRegions [1] [5] [5] []).regionRows
      = [.ok ⟨1, 9, [1], [5], 1, 1, 0⟩, .ok ⟨2, 9, [5], [], 1, 1, 0⟩]
    ∧ (twoRegions [1] [9] [5] [5]).regionRows
      = [.ok ⟨1, 9, [1], [9], 1, 1, 0⟩, .ok ⟨2, 9, [5], [5], 1, 1, 0⟩]
  := by
  decide +kernel

/-- Two regions next to each other. -/
theorem regionForKeyIn_iff_twoRegions :
  (∃ answer, (twoRegions [1] [5] [5] []).regionForKeyIn 9 [6] = .ok answer)
    ∧ (∀ r, (twoRegions [1] [5] [5] []).regionForKeyIn 9 [6] = .ok (some r)
      ↔ (twoRegions [1] [5] [5] []).HasRegion r ∧ r.keyspaceId = 9 ∧ r.Contains [6])
    ∧ ((twoRegions [1] [5] [5] []).regionForKeyIn 9 [6] = .ok none
      ↔ ∀ r, (twoRegions [1] [5] [5] []).HasRegion r → r.keyspaceId = 9 → ¬ r.Contains [6])
  := by
  have hconsistent : Consistent (twoRegions [1] [5] [5] []).readKv :=
    consistent_twoRegions (by decide)
  obtain ⟨hregions, hlisted⟩ := regionsDisjoint_of_regionRows hconsistent regionRows_twoRegions.1
    fun key hkey hkey' => not_lt.mpr hkey'.1 (hkey.2.resolve_left (by decide))
  apply regionForKeyIn_iff hconsistent hregions
  intro r hr _
  rcases hlisted r hr with rfl | rfl
  · use [1]
    decide
  · use [5]
    decide

/-- A region with no key hides the region around it, though no key is in both. -/
theorem regionForKeyIn_emptyRegion :
  Consistent (twoRegions [1] [9] [5] [5]).readKv ∧ RegionsDisjoint (twoRegions [1] [9] [5] [5]) 9
    ∧ (∃ r, (twoRegions [1] [9] [5] [5]).HasRegion r ∧ r.keyspaceId = 9 ∧ r.Contains [6])
    ∧ (twoRegions [1] [9] [5] [5]).regionForKeyIn 9 [6] = .ok none
  := by
  have hconsistent : Consistent (twoRegions [1] [9] [5] [5]).readKv :=
    consistent_twoRegions (by decide)
  obtain ⟨hregions, hlisted⟩ := regionsDisjoint_of_regionRows hconsistent regionRows_twoRegions.2
    fun key _ hkey' => not_lt.mpr hkey'.1 (hkey'.2.resolve_left (by decide))
  use hconsistent, hregions
  constructor
  · use ⟨1, 9, [1], [9], 1, 1, 0⟩
    refine ⟨⟨sampleRegion 1 [1] [9], ⟨.cons ⟨1, rfl⟩ .nil, (sampleRegion 1 [1] [9]).encode, ?_, ?_⟩,
      rfl⟩, rfl, by decide⟩
    · decide +kernel
    · apply RowValue.decode_encode (fits_sampleRegion 1 (by decide) (by decide))
  · decide +kernel

end Kv9.Meta
