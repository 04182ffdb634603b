import Kv9.Common.Keys
import Kv9.Meta.Schema

/-!
# Catalog keys and rows

The catalog lives under the system keyspace.  A row is stored at the table and the primary key,
an index entry at the table, the index, the indexed columns and, unless the index is unique, the
primary key.  The parts of a key are memcomparable: numbers have eight bytes, byte strings are
escaped and terminated.  A row is a list of tagged columns.
-/

namespace Kv9.Meta

open Codec Except List

/-! ## Keys -/

/-- One part of a primary key or an index key, already memcomparable. -/
abbrev PkComponent := Bytes

def rowMarker : UInt8 := 0x72

def indexMarker : UInt8 := 0x69

/-- Put a catalog key under the system keyspace. -/
def wrapSystem (suffix : Bytes) : Except Error Bytes := encodeKey .system systemKeyspace suffix

/-- The key of a row. -/
def encodeRowKey (table : TableId) (pk : List PkComponent) : Except Error Bytes :=
  wrapSystem (be32 table ++ ([rowMarker] ++ pk.flatten))

/-- The bounds of the rows of a table. -/
def rowRange (table : TableId) : Except Error (Bytes × Bytes) := do
  let start ← wrapSystem (be32 table ++ [rowMarker])
  let stop ← wrapSystem (be32 table ++ [rowMarker + 1])
  return (start, stop)

/-- The key of an index entry. -/
def encodeIndexKey (table : TableId) (index : IndexId) (cols pk : List PkComponent) :
    Except Error Bytes :=
  wrapSystem (be32 table ++ ([indexMarker, index] ++ (cols.flatten ++ pk.flatten)))

/-- The value of an entry of a unique index. -/
def indexValue (pk : List PkComponent) : Bytes := pk.flatten

/-- A number, so that the order of the bytes is the order of the numbers. -/
def memcmpUint (v : UInt64) : PkComponent := be64 v

/-- The byte that starts an escape. -/
def escape : UInt8 := 0x00

/-- After `escape`, a zero of the payload. -/
def escapedZero : UInt8 := 0xFF

/-- After `escape`, the end of the payload. -/
def terminator : UInt8 := 0x01

/-- A byte string, escaped and terminated. -/
def memcmpBytes (v : Bytes) : PkComponent :=
  v.flatMap (fun b => if b = escape then [escape, escapedZero] else [b]) ++ [escape, terminator]

/-- Take an escaped byte string off the front. -/
def splitBytesComponent : Bytes → Except Error (Bytes × Bytes)
  | [] => .error (.malformedKey "unterminated bytes component")
  | b :: buf =>
    if b ≠ escape then do
      let (payload, rest) ← splitBytesComponent buf
      return (b :: payload, rest)
    else
      match buf with
      | c :: buf =>
        if c = escapedZero then do
          let (payload, rest) ← splitBytesComponent buf
          return (0 :: payload, rest)
        else if c = terminator then .ok ([], buf)
        else .error (.malformedKey "bad escape sequence in bytes component")
      | [] => .error (.malformedKey "bad escape sequence in bytes component")

/-- A text, as its bytes. -/
def memcmpText (v : String) : PkComponent := memcmpBytes v.toUTF8.data.toList

/-! ## Rows -/

/-- The value of a column.  A value of a newer writer keeps its type tag. -/
inductive ColumnValue where
  | uint (v : UInt64)
  | text (s : String)
  | bytes (b : Bytes)
  | unknown (typeTag : UInt8) (payload : Bytes)
deriving DecidableEq

namespace ColumnValue

/-- The tag of the type of a value. -/
def typeTag : ColumnValue → UInt8
  | .uint _ => 0
  | .text _ => 1
  | .bytes _ => 2
  | .unknown tag _ => tag

/-- The stored bytes of a value. -/
def payload : ColumnValue → Bytes
  | .uint v => be64 v
  | .text s => s.toUTF8.data.toList
  | .bytes b => b
  | .unknown _ payload => payload

/-- Read a value back. -/
def ofPayload (tag : UInt8) (payload : Bytes) : Except Error ColumnValue :=
  if tag = 0 then do
    failIf (payload.length ≠ 8) (.malformedKey "bad uint payload width")
    return .uint (fromBe64 payload)
  else if tag = 1 then
    match String.fromUTF8? ⟨payload.toArray⟩ with
    | some s => .ok (.text s)
    | none => .error (.malformedKey "bad utf-8 text column")
  else if tag = 2 then .ok (.bytes payload)
  else .ok (.unknown tag payload)

end ColumnValue

/-- Replace the value of a column, or append the column. -/
def setColumn (col : ColumnId) (value : ColumnValue) :
    List (ColumnId × ColumnValue) → List (ColumnId × ColumnValue)
  | [] => [(col, value)]
  | c :: cs => if c.1 = col then (c.1, value) :: cs else c :: setColumn col value cs

variable {col : ColumnId} {value : ColumnValue} {cs : List (ColumnId × ColumnValue)}

theorem mem_map_setColumn {c : ColumnId} :
  c ∈ (setColumn col value cs).map (·.1) ↔ c = col ∨ c ∈ cs.map (·.1)
  := by
  induction cs with
  | nil => simp [setColumn]
  | cons d cs ih =>
    rw [setColumn]
    split_ifs with hd
    · simp [hd]
    · rw [map_cons, mem_cons, map_cons, mem_cons]
      tauto

variable {c : ColumnId × ColumnValue}

theorem mem_setColumn (h : c ∈ setColumn col value cs) :
  c = (col, value) ∨ c ∈ cs
  := by
  induction cs with
  | nil =>
    simpa [setColumn] using h
  | cons d cs ih =>
    rw [setColumn] at h
    split_ifs at h with hd
    · rcases mem_cons.mp h with rfl | h
      · rw [hd]
        left
        rfl
      · right
        apply mem_cons_of_mem d h
    · rcases mem_cons.mp h with rfl | h
      · right
        apply mem_cons_self
      · rcases ih h with rfl | hmem
        · left
          rfl
        · right
          apply mem_cons_of_mem d hmem

theorem nodup_setColumn (h : (cs.map (·.1)).Nodup) :
  ((setColumn col value cs).map (·.1)).Nodup
  := by
  induction cs with
  | nil => simp [setColumn]
  | cons d cs ih =>
    rw [map_cons, nodup_cons] at h
    rw [setColumn]
    split_ifs with hd
    · rw [map_cons, nodup_cons]
      exact h
    · rw [map_cons, nodup_cons, mem_map_setColumn]
      refine ⟨?_, ih h.2⟩
      rintro (heq | hmem)
      · exact hd heq
      · exact h.1 hmem

/-- A row: its columns, no two of one identifier. -/
structure RowValue where
  columns : List (ColumnId × ColumnValue)
  nodup : (columns.map (·.1)).Nodup
deriving DecidableEq

namespace RowValue

/-- The row without columns. -/
def new : RowValue := ⟨[], List.nodup_nil⟩

/-- Set the value of a column. -/
def set (row : RowValue) (col : ColumnId) (value : ColumnValue) : RowValue :=
  ⟨setColumn col value row.columns, nodup_setColumn row.nodup⟩

/-- The value of a column. -/
def get (row : RowValue) (col : ColumnId) : Option ColumnValue :=
  (row.columns.find? (fun c => c.1 = col)).map (·.2)

/-- One stored column.  The length is written modulo `2 ^ 32`. -/
def encodeColumn (c : ColumnId × ColumnValue) : Bytes :=
  be 2 c.1.toNat ++ ([c.2.typeTag] ++ (be 4 c.2.payload.length ++ c.2.payload))

/-- The stored row. -/
def encode (row : RowValue) : Bytes := row.columns.flatMap encodeColumn

/-- Read the columns one after the other; each takes seven bytes at least. -/
def decodeColumns : ℕ → Bytes → RowValue → Except Error RowValue
  | 0, _, row => .ok row
  | fuel + 1, buf, row =>
    if buf = [] then .ok row
    else do
      failIf (buf.length < 7) (.malformedKey "truncated row value header")
      let col := UInt16.ofNat (fromBe (buf.take 2))
      let tag := buf.getD 2 0
      let len := fromBe ((buf.drop 3).take 4)
      let buf := buf.drop 7
      failIf (buf.length < len) (.malformedKey "truncated row value payload")
      let value ← ColumnValue.ofPayload tag (buf.take len)
      decodeColumns fuel (buf.drop len) (row.set col value)

/-- Read a row back. -/
def decode (buf : Bytes) : Except Error RowValue := decodeColumns buf.length buf new

end RowValue

/-! ## Keys are told apart by what they are made of -/

/-- What the keys of a table start with: the system keyspace, the table, and whether the key is
a row's or an index entry's. -/
def tableHeader (table : TableId) (marker : UInt8) : Bytes :=
  [0x73, 0, 0, 0] ++ (be32 table ++ [marker])

/-- The key of a row, without the check of the keyspace. -/
def rowKey (table : TableId) (pk : List PkComponent) : Bytes :=
  tableHeader table rowMarker ++ pk.flatten

/-- The key of an index entry, without the check of the keyspace. -/
def indexKey (table : TableId) (index : IndexId) (cols pk : List PkComponent) : Bytes :=
  tableHeader table indexMarker ++ ([index] ++ (cols.flatten ++ pk.flatten))

@[simp]
theorem encodeRowKey_eq (table : TableId) (pk : List PkComponent) :
  encodeRowKey table pk = .ok (rowKey table pk)
  := by
  rfl

@[simp]
theorem encodeIndexKey_eq (table : TableId) (index : IndexId) (cols pk : List PkComponent) :
  encodeIndexKey table index cols pk = .ok (indexKey table index cols pk)
  := by
  rfl

@[simp]
theorem rowRange_eq (table : TableId) :
  rowRange table = .ok (tableHeader table rowMarker, tableHeader table (rowMarker + 1))
  := rfl

variable {m m' : UInt8} {key buf : Bytes} {v : ColumnValue} {fuel : ℕ}

theorem tableHeader_append_inj {t t' : TableId} {r s : Bytes}
    (h : tableHeader t m ++ r = tableHeader t' m' ++ s) :
  t = t' ∧ m = m' ∧ r = s
  := by
  simp only [tableHeader, append_assoc] at h
  obtain ⟨-, h⟩ := append_inj h rfl
  obtain ⟨hid, h⟩ := append_inj h (by rw [length_be32, length_be32])
  obtain ⟨hm, hr⟩ := append_inj h rfl
  refine ⟨?_, singleton_inj.mp hm, hr⟩
  rw [← fromBe32_be32 t, hid, fromBe32_be32]

/-- The byte strings between a beginning and the next one of its length are those that start
with it. -/
theorem le_and_lt_iff_append {h : Bytes} (hm : ∀ b, m ≤ b ∧ b < m' ↔ b = m) :
  h ++ [m] ≤ key ∧ key < h ++ [m'] ↔ ∃ suffix, key = h ++ [m] ++ suffix
  := by
  rw [← not_lt]
  induction h generalizing key with
  | nil =>
    cases key with
    | nil => simp
    | cons b key =>
      have hb := hm b
      rw [← not_lt] at hb
      have hnil : ¬ key < [] := not_lt_nil key
      simp only [nil_append, cons_lt_cons_iff, cons_append, List.cons.injEq,
        hnil, and_false, or_false, exists_and_left, exists_eq', and_true]
      exact hb
  | cons a h ih =>
    cases key with
    | nil => simp
    | cons b key =>
      simp only [cons_append, cons_lt_cons_iff, List.cons.injEq, exists_and_left, ← ih]
      rcases lt_trichotomy a b with hab | rfl | hab
      · simp [not_lt_of_gt hab, hab.ne']
      · simp
      · simp [hab, hab.ne]

/-- The keys in the bounds of a table's rows are those that start like a row's key. -/
theorem mem_rowRange {table : TableId} :
  tableHeader table rowMarker ≤ key ∧ key < tableHeader table (rowMarker + 1)
    ↔ ∃ suffix, key = tableHeader table rowMarker ++ suffix
  := by
  simp only [tableHeader, ← append_assoc]
  apply le_and_lt_iff_append
  intro b
  rw [← UInt8.toNat_inj]
  change 114 ≤ b.toNat ∧ b.toNat < 115 ↔ b.toNat = 114
  omega

/-! ## The parts of a key -/

/-- A part of a key that a column of the type is encoded as. -/
def IsComponent : ColumnType → PkComponent → Prop
  | .uint, c => ∃ v, c = memcmpUint v
  | .text, c => ∃ s, c = memcmpText s
  | .bytes, c => ∃ b, c = memcmpBytes b

/-- A byte string is read back, whatever follows it. -/
theorem splitBytesComponent_memcmpBytes (b rest : Bytes) :
  splitBytesComponent (memcmpBytes b ++ rest) = .ok (b, rest)
  := by
  induction b with
  | nil => rfl
  | cons a b ih =>
    rw [memcmpBytes, append_assoc] at ih ⊢
    rw [flatMap_cons, append_assoc]
    split_ifs with ha
    · rw [ha, cons_append, cons_append, nil_append, splitBytesComponent.eq_def]
      simp only [ne_eq, not_true, if_false, if_true, ih, ok_bind, pure_eq_ok]
      rfl
    · rw [cons_append, nil_append, splitBytesComponent.eq_def]
      simp only [ne_eq, ha, not_false_iff, if_true, ih, ok_bind, pure_eq_ok]

theorem prefixFree_memcmpBytes :
  PrefixFree fun c => ∃ b, c = memcmpBytes b
  := by
  apply prefixFree_of_read fun buf => (splitBytesComponent buf).toOption
  intro b rest
  rw [splitBytesComponent_memcmpBytes]
  rfl

/-- A part of a key is told from what follows it. -/
theorem prefixFree_isComponent (ty : ColumnType) :
  PrefixFree (IsComponent ty)
  := by
  cases ty with
  | uint =>
    apply prefixFree_of_length (n := 8)
    rintro c ⟨v, rfl⟩
    apply length_be64
  | text =>
    rintro c d r s ⟨v, rfl⟩ ⟨w, rfl⟩ h
    apply prefixFree_memcmpBytes ⟨_, rfl⟩ ⟨_, rfl⟩ h
  | bytes => apply prefixFree_memcmpBytes

theorem memcmpUint_inj {v w : UInt64} :
  memcmpUint v = memcmpUint w ↔ v = w
  := by
  constructor
  · intro h
    rw [← fromBe64_be64 v, ← fromBe64_be64 w]
    apply congrArg fromBe64 h
  · rintro rfl
    rfl

/-! ## Rows are read back -/

theorem fromUTF8_toUTF8 (s : String) :
  String.fromUTF8? ⟨s.toUTF8.data.toList.toArray⟩ = some s
  := by
  have hvalid : s.toUTF8.IsValidUTF8 := s.isValidUTF8
  rw [String.fromUTF8?, dif_pos hvalid]
  rfl

/-- A value the stored row can carry: its length fits four bytes, and a tag of a newer writer is
none of the known ones. -/
structure ColumnValue.Fits (v : ColumnValue) : Prop where
  length_lt : v.payload.length < 2 ^ 32
  unknown : ∀ tag payload, v = .unknown tag payload → tag ≠ 0 ∧ tag ≠ 1 ∧ tag ≠ 2

theorem ColumnValue.ofPayload_payload (h : v.Fits) :
  ofPayload v.typeTag v.payload = .ok v
  := by
  cases v with
  | uint v =>
    have hlength : ¬ (be64 v).length ≠ 8 := by
      exact not_not.mpr rfl
    rw [ofPayload, payload, fromBe64_be64]
    rfl
  | text s =>
    rw [ofPayload, typeTag, payload, if_neg (by decide), if_pos rfl, fromUTF8_toUTF8]
  | bytes b => rfl
  | unknown tag payload =>
    obtain ⟨h0, h1, h2⟩ := h.unknown tag payload rfl
    rw [ofPayload, typeTag, if_neg h0, if_neg h1, if_neg h2]
    rfl

theorem ColumnValue.fits_of_ofPayload {tag : UInt8} {payload : Bytes}
    (hlength : payload.length < 2 ^ 32) (h : ofPayload tag payload = .ok v) :
  v.Fits
  := by
  rw [ofPayload] at h
  split_ifs at h with h0 h1 h2
  · rw [bind_eq_ok] at h
    obtain ⟨_, -, hv⟩ := h
    cases hv
    refine ⟨?_, by simp⟩
    rw [ColumnValue.payload, length_be64]
    decide
  · split at h
    · rename_i s hs
      cases h
      refine ⟨?_, by simp⟩
      rw [String.fromUTF8?] at hs
      split_ifs at hs with hvalid
      cases hs
      exact hlength
    · cases h
  · cases h
    use hlength, (by simp)
  · cases h
    use hlength
    rintro _ _ ⟨⟩
    use h0, h1, h2

namespace RowValue

/-- Every column fits. -/
def Fits (row : RowValue) : Prop := ∀ c ∈ row.columns, c.2.Fits

variable {row : RowValue}

theorem mem_set (h : c ∈ (row.set col value).columns) :
  c = (col, value) ∨ c ∈ row.columns
  := mem_setColumn h

theorem Fits.set (h : row.Fits) (hvalue : value.Fits) :
  (row.set col value).Fits
  := by
  intro c hc
  rcases mem_set hc with rfl | hmem
  · exact hvalue
  · apply h c hmem

theorem columns_set_of_not_mem (h : col ∉ row.columns.map (·.1)) :
  (row.set col value).columns = row.columns ++ [(col, value)]
  := by
  obtain ⟨cs, hnodup⟩ := row
  simp only [set] at h ⊢
  clear hnodup
  induction cs with
  | nil => rfl
  | cons c cs ih =>
    rw [map_cons, mem_cons, not_or] at h
    rw [setColumn, if_neg (Ne.symm h.1), ih h.2]
    rfl

theorem length_encodeColumn (c : ColumnId × ColumnValue) :
  (encodeColumn c).length = 7 + c.2.payload.length
  := by
  simp only [encodeColumn, length_append, length_be, length_singleton]
  omega

theorem decodeColumns_encodeColumn (hc : c.2.Fits) (fuel : ℕ) (rest : Bytes) (row : RowValue) :
  decodeColumns (fuel + 1) (encodeColumn c ++ rest) row = decodeColumns fuel rest (row.set c.1 c.2)
  := by
  have hlength : 7 ≤ (encodeColumn c ++ rest).length := by
    rw [length_append, length_encodeColumn]
    omega
  have hne : encodeColumn c ++ rest ≠ [] := by
    intro hnil
    rw [hnil] at hlength
    exact absurd hlength (by decide)
  have hbytes : encodeColumn c ++ rest = be 2 c.1.toNat ++ ([c.2.typeTag]
      ++ (be 4 c.2.payload.length ++ (c.2.payload ++ rest))) := by
    simp [encodeColumn]
  have hcol : UInt16.ofNat (fromBe ((encodeColumn c ++ rest).take 2)) = c.1 := by
    rw [hbytes, take_left' (length_be ..), fromBe_be c.1.toNat_lt, UInt16.ofNat_toNat]
  have htag : (encodeColumn c ++ rest).getD 2 0 = c.2.typeTag := by
    rfl
  have hlen : fromBe (((encodeColumn c ++ rest).drop 3).take 4) = c.2.payload.length := by
    rw [hbytes, ← append_assoc, drop_left' (by simp [length_be]),
      take_left' (length_be ..), fromBe_be hc.length_lt]
  have hdrop : (encodeColumn c ++ rest).drop 7 = c.2.payload ++ rest := by
    rw [hbytes, ← append_assoc, ← append_assoc, drop_left' (by simp [length_be])]
  have hpayload : ¬ (c.2.payload ++ rest).length < c.2.payload.length := by
    rw [length_append]
    omega
  rw [decodeColumns, if_neg hne, failIf_neg (Nat.not_lt.mpr hlength)]
  simp only [hcol, htag, hlen, hdrop, failIf_neg hpayload, ok_bind, take_left,
    drop_left, ColumnValue.ofPayload_payload hc]

theorem decodeColumns_flatMap (hcs : ∀ c ∈ cs, c.2.Fits) (hfuel : cs.length ≤ fuel)
    (hnodup : ((row.columns ++ cs).map (·.1)).Nodup) :
  ∃ row', decodeColumns fuel (cs.flatMap encodeColumn) row = .ok row'
    ∧ row'.columns = row.columns ++ cs
  := by
  induction cs generalizing fuel row with
  | nil =>
    refine ⟨row, ?_, by simp⟩
    cases fuel with
    | zero => rfl
    | succ fuel => rfl
  | cons c cs ih =>
    obtain ⟨fuel, rfl⟩ := Nat.exists_eq_add_of_le' (Nat.le_trans (by simp) hfuel : 1 ≤ fuel)
    have hfresh : c.1 ∉ row.columns.map (·.1) := by
      rw [map_append, nodup_append] at hnodup
      intro hmem
      apply hnodup.2.2 _ hmem c.1 (by simp) rfl
    have hset : (row.set c.1 c.2).columns = row.columns ++ [c] :=
      columns_set_of_not_mem hfresh
    have hnodup' : (((row.set c.1 c.2).columns ++ cs).map (·.1)).Nodup := by
      rw [hset, append_assoc]
      exact hnodup
    obtain ⟨row', hdecode, hcolumns⟩ := ih (fun d hd => hcs d (mem_cons_of_mem c hd))
      (Nat.le_of_succ_le_succ hfuel) hnodup'
    refine ⟨row', ?_, ?_⟩
    · rw [flatMap_cons, decodeColumns_encodeColumn (hcs c (mem_cons_self ..)), hdecode]
    · rw [hcolumns, hset, append_assoc]
      rfl

theorem length_le_encode (cs : List (ColumnId × ColumnValue)) :
  cs.length ≤ (cs.flatMap encodeColumn).length
  := by
  induction cs with
  | nil => simp
  | cons c cs ih =>
    rw [flatMap_cons, length_append, length_encodeColumn, length_cons]
    omega

theorem decode_encode (h : row.Fits) :
  decode row.encode = .ok row
  := by
  have hnodup : ((new.columns ++ row.columns).map (·.1)).Nodup := row.nodup
  obtain ⟨row', hdecode, hcolumns⟩ :=
    decodeColumns_flatMap h (length_le_encode row.columns) hnodup
  rw [decode, encode, hdecode]
  obtain ⟨cs, hcs⟩ := row'
  cases hcolumns
  rfl

theorem fits_of_decodeColumns {row' : RowValue} (hrow : row.Fits)
    (h : decodeColumns fuel buf row = .ok row') :
  row'.Fits
  := by
  induction fuel generalizing buf row with
  | zero =>
    cases h
    exact hrow
  | succ fuel ih =>
    rw [decodeColumns] at h
    split_ifs at h with hbuf
    · cases h
      exact hrow
    · simp only [bind_eq_ok, failIf_eq_ok] at h
      obtain ⟨_, -, _, -, value, hvalue, hrest⟩ := h
      apply ih (hrow.set _) hrest
      apply ColumnValue.fits_of_ofPayload _ hvalue
      apply Nat.lt_of_le_of_lt (length_take_le _ _)
      have hlt := fromLe_lt ((buf.drop 3).take 4).reverse
      apply Nat.lt_of_lt_of_le hlt
      rw [length_reverse, length_take]
      apply Nat.pow_le_pow_right (by decide) (Nat.min_le_left ..)

theorem fits_of_decode (h : decode buf = .ok row) :
  row.Fits
  := by
  have hnew : new.Fits := nofun
  apply fits_of_decodeColumns hnew h

end RowValue

end Kv9.Meta
