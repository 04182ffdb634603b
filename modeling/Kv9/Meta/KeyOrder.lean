import Kv9.Meta.Codec

/-!
# The order of catalog keys

The columns of a primary key or of an index are written one after the other, each so that the
order of the bytes is the order of the values.  The whole is then ordered as the tuples of values
are, it splits into its columns whatever follows it, and the entries of an index whose leading
columns are given lie between two bounds.
-/

namespace Kv9.Meta

open Codec Except List

/-! ## Taking a key apart -/

/-- The number of a component. -/
def decodeUintComponent (comp : PkComponent) : Except Error UInt64 := do
  let width := comp.length
  failIf (width ≠ 8) (.malformedKey s!"uint component width {width} != 8")
  return fromBe64 comp

/-- The byte string of a component. -/
def decodeBytesComponent (comp : PkComponent) : Except Error Bytes := do
  let (payload, rest) ← splitBytesComponent comp
  failIf (rest ≠ []) (.malformedKey "trailing bytes after bytes component")
  return payload

/-- Take a component of the type off the front, still encoded. -/
def splitComponent : ColumnType → Bytes → Except Error (PkComponent × Bytes)
  | .uint, buf => do
    failIf (buf.length < 8) (.malformedKey "truncated uint component")
    return (buf.take 8, buf.drop 8)
  | .text, buf | .bytes, buf => do
    let (_, rest) ← splitBytesComponent buf
    let consumed := buf.length - rest.length
    return (buf.take consumed, rest)

/-- Split a key into the components of the given types. -/
def splitComponents : List ColumnType → Bytes → Bool → Except Error (List PkComponent)
  | [], buf, expectEnd => do
    let left := buf.length
    failIf (expectEnd = true ∧ buf ≠ []) (.malformedKey s!"{left} trailing bytes after components")
    return []
  | ty :: types, buf, expectEnd => do
    let (comp, buf) ← splitComponent ty buf
    let comps ← splitComponents types buf expectEnd
    return comp :: comps

/-! ## The bounds of an index prefix -/

/-- Bump the last byte that can be bumped, dropping those after it.  The last byte comes first. -/
def bumpLast : Bytes → Bytes
  | [] => []
  | last :: rest => if last = 0xff then bumpLast rest else (last + 1) :: rest

/-- The first byte string above those that start with the given one. -/
def prefixSuccessor (buf : Bytes) : Bytes := (bumpLast buf.reverse).reverse

/-- The bounds of the entries of an index with the given leading columns. -/
def indexPrefixRange (table : TableId) (index : IndexId) (cols : List PkComponent) :
    Except Error (Bytes × Bytes) := do
  let start ← encodeIndexKey table index cols []
  return (start, prefixSuccessor start)

theorem prefixSuccessor_append (h : Bytes) (m : UInt8) :
  prefixSuccessor (h ++ [m]) = if m = 0xff then prefixSuccessor h else h ++ [m + 1]
  := by
  rw [prefixSuccessor, reverse_append, reverse_singleton, singleton_append, bumpLast]
  split_ifs with hm
  · rfl
  · rw [reverse_cons, reverse_reverse]

/-- A byte string is at most what starts with it. -/
theorem le_append (h suffix : Bytes) :
  h ≤ h ++ suffix
  := by
  rw [← not_lt]
  intro hlt
  induction h with
  | nil => apply not_lt_nil _ hlt
  | cons a h ih =>
    rw [cons_append, cons_lt_cons_iff] at hlt
    rcases hlt with hlt | ⟨-, hlt⟩
    · apply lt_irrefl a hlt
    · apply ih hlt

/-- The byte strings from one on and below its successor are those that start with it. -/
theorem le_and_lt_prefixSuccessor_iff {buf key : Bytes} (hbuf : ∃ b ∈ buf, b ≠ 0xff) :
  buf ≤ key ∧ key < prefixSuccessor buf ↔ ∃ suffix, key = buf ++ suffix
  := by
  induction buf using List.reverseRecOn with
  | nil => simp at hbuf
  | append_singleton h m ih =>
    rw [prefixSuccessor_append]
    split_ifs with hm
    · have hh : ∃ b ∈ h, b ≠ 0xff := by
        obtain ⟨b, hmem, hb⟩ := hbuf
        rcases mem_append.mp hmem with hmem | hmem
        · use b
        · rw [mem_singleton.mp hmem] at hb
          apply absurd hm hb
      constructor
      · rintro ⟨hle, hlt⟩
        obtain ⟨suffix, rfl⟩ := (ih hh).mp ⟨(le_append h [m]).trans hle, hlt⟩
        -- What follows is at least the largest byte, so it starts with it.
        cases suffix with
        | nil =>
          rw [append_nil, ← not_lt] at hle
          apply absurd _ hle
          nth_rewrite 1 [← append_nil h]
          apply List.Lex.append_left
          apply List.Lex.nil
        | cons b suffix =>
          have hb : m ≤ b := by
            rw [← not_lt] at hle ⊢
            intro hbm
            apply hle
            apply List.Lex.append_left
            apply List.Lex.rel hbm
          use suffix
          have hbm : b = m := by
            rw [← UInt8.toNat_inj, hm]
            rw [hm] at hb
            change 255 ≤ b.toNat at hb
            change b.toNat = 255
            have := b.toNat_lt
            omega
          rw [hbm, append_assoc]
          rfl
      · rintro ⟨suffix, rfl⟩
        use le_append ..
        apply ((ih hh).mpr ⟨[m] ++ suffix, append_assoc ..⟩).2
    · apply le_and_lt_iff_append
      intro b
      have hm' : m.toNat ≠ 255 := by
        intro h255
        apply hm
        rw [← UInt8.toNat_inj, h255]
        rfl
      have hlt := m.toNat_lt
      rw [← UInt8.toNat_inj]
      change m.toNat ≤ b.toNat ∧ b.toNat < (m.toNat + 1) % 256 ↔ b.toNat = m.toNat
      omega

/-- The bounds of an index prefix hold between them what starts like an entry of the index with
the leading columns. -/
theorem mem_indexPrefixRange {table : TableId} {index : IndexId} {cols : List PkComponent}
    {key : Bytes} :
  indexKey table index cols [] ≤ key ∧ key < prefixSuccessor (indexKey table index cols [])
    ↔ ∃ suffix, key = indexKey table index cols [] ++ suffix
  := by
  apply le_and_lt_prefixSuccessor_iff
  use 0x73
  constructor
  · apply mem_cons_self
  · decide

theorem indexPrefixRange_eq (table : TableId) (index : IndexId) (cols : List PkComponent) :
  indexPrefixRange table index cols
    = .ok (indexKey table index cols [], prefixSuccessor (indexKey table index cols []))
  := by
  rfl

/-! ## The values of a key -/

/-- The value of a column of a key. -/
inductive KeyValue where
  | uint (v : UInt64)
  | text (s : String)
  | bytes (b : Bytes)
deriving DecidableEq

namespace KeyValue

/-- The type of the column. -/
def type : KeyValue → ColumnType
  | .uint _ => .uint
  | .text _ => .text
  | .bytes _ => .bytes

/-- The encoded column. -/
def component : KeyValue → PkComponent
  | .uint v => memcmpUint v
  | .text s => memcmpText s
  | .bytes b => memcmpBytes b

/-- Numbers compare as numbers, texts and byte strings by their bytes. -/
inductive Lt : KeyValue → KeyValue → Prop where
  | uint {v w : UInt64} (h : v < w) : Lt (.uint v) (.uint w)
  | text {s t : String} (h : s.toUTF8.data.toList < t.toUTF8.data.toList) : Lt (.text s) (.text t)
  | bytes {b c : Bytes} (h : b < c) : Lt (.bytes b) (.bytes c)

end KeyValue

theorem toUTF8_inj {s t : String} (h : s.toUTF8.data.toList = t.toUTF8.data.toList) :
  s = t
  := by
  have hs := fromUTF8_toUTF8 s
  rw [h, fromUTF8_toUTF8] at hs
  cases hs
  rfl

theorem KeyValue.trichotomy {v w : KeyValue} (h : v.type = w.type) :
  v.Lt w ∨ v = w ∨ w.Lt v
  := by
  cases v with
  | uint v =>
    cases w with
    | uint w => apply (lt_trichotomy v w).imp Lt.uint (Or.imp (congrArg _) Lt.uint)
    | text t => nomatch h
    | bytes c => nomatch h
  | text s =>
    cases w with
    | uint w => nomatch h
    | text t =>
      apply (lt_trichotomy s.toUTF8.data.toList t.toUTF8.data.toList).imp Lt.text
      apply Or.imp (fun heq => congrArg _ (toUTF8_inj heq)) Lt.text
    | bytes c => nomatch h
  | bytes b =>
    cases w with
    | uint w => nomatch h
    | text t => nomatch h
    | bytes c => apply (lt_trichotomy b c).imp Lt.bytes (Or.imp (congrArg _) Lt.bytes)

/-! ## The components keep the order -/

theorem memcmpBytes_cons (a : UInt8) (b : Bytes) :
  memcmpBytes (a :: b) = (if a = escape then [escape, escapedZero] else [a]) ++ memcmpBytes b
  := by
  rw [memcmpBytes, flatMap_cons, append_assoc]
  rfl

/-- The end of a byte string is below what an added byte starts with. -/
theorem memcmpBytes_nil_append_lt (a : UInt8) (b r s : Bytes) :
  memcmpBytes [] ++ r < memcmpBytes (a :: b) ++ s
  := by
  rw [memcmpBytes_cons]
  split_ifs with ha
  · apply List.Lex.cons
    apply List.Lex.rel
    decide
  · apply List.Lex.rel
    apply UInt8.pos_iff_ne_zero.mpr ha

theorem memcmpBytes_cons_append_lt {a a' : UInt8} (h : a < a') (b b' r s : Bytes) :
  memcmpBytes (a :: b) ++ r < memcmpBytes (a' :: b') ++ s
  := by
  have ha' : a' ≠ escape := by
    rintro rfl
    apply UInt8.not_lt_zero h
  rw [memcmpBytes_cons, memcmpBytes_cons]
  split_ifs with ha
  · rw [ha] at h
    apply List.Lex.rel h
  · apply List.Lex.rel h

/-- A smaller byte string is encoded as a smaller one, whatever follows the two. -/
theorem keepsOrder_memcmpBytes :
  KeepsOrder (· < ·) memcmpBytes
  := by
  intro b c h r s
  induction h with
  | nil => apply memcmpBytes_nil_append_lt
  | rel h => apply memcmpBytes_cons_append_lt h
  | cons _ ih =>
    rw [memcmpBytes_cons, memcmpBytes_cons, append_assoc, append_assoc]
    apply List.Lex.append_left
    apply ih

theorem keepsOrder_component :
  KeepsOrder KeyValue.Lt KeyValue.component
  := by
  intro v w h r s
  cases h with
  | uint h => apply be_append_lt h (UInt64.toNat_lt _)
  | text h
  | bytes h => apply keepsOrder_memcmpBytes h

/-! ## A key splits into its components -/

theorem decodeUintComponent_memcmpUint (v : UInt64) :
  decodeUintComponent (memcmpUint v) = .ok v
  := by
  apply congrArg _ (fromBe64_be64 v)

theorem decodeBytesComponent_memcmpBytes (b : Bytes) :
  decodeBytesComponent (memcmpBytes b) = .ok b
  := by
  have hsplit := splitBytesComponent_memcmpBytes b []
  rw [append_nil] at hsplit
  rw [decodeBytesComponent, hsplit]
  rfl

/-- An escaped byte string is taken off the front, whatever follows it. -/
theorem take_memcmpBytes (b rest : Bytes) :
  (do
    let (_, rest') ← splitBytesComponent (memcmpBytes b ++ rest)
    let consumed := (memcmpBytes b ++ rest).length - rest'.length
    return ((memcmpBytes b ++ rest).take consumed, rest') : Except Error (PkComponent × Bytes))
    = .ok (memcmpBytes b, rest)
  := by
  rw [splitBytesComponent_memcmpBytes]
  simp

theorem splitComponent_component (v : KeyValue) (rest : Bytes) :
  splitComponent v.type (v.component ++ rest) = .ok (v.component, rest)
  := by
  cases v with
  | uint v =>
    rfl
  | _ => apply take_memcmpBytes

/-- The components of a key are found, whatever follows them. -/
theorem splitComponents_flatMap (values : List KeyValue) (rest : Bytes) (expectEnd : Bool)
    (hend : expectEnd = true → rest = []) :
  splitComponents (values.map KeyValue.type) (values.flatMap KeyValue.component ++ rest) expectEnd
    = .ok (values.map KeyValue.component)
  := by
  induction values with
  | nil =>
    have hleft : ¬ (expectEnd = true ∧ rest ≠ []) := by
      rintro ⟨htrue, hne⟩
      apply hne (hend htrue)
    rw [map_nil, flatMap_nil, nil_append, splitComponents]
    simp only [failIf_neg hleft, ok_bind]
    rfl
  | cons v values ih =>
    rw [map_cons, flatMap_cons, append_assoc, splitComponents, splitComponent_component]
    simp [ih]

/-! ## The entries of an index with given leading columns -/

/-- Tuples of the same types with the same components are the same. -/
theorem eq_of_map_component {values values' : List KeyValue}
    (htypes : values.map KeyValue.type = values'.map KeyValue.type)
    (h : values.map KeyValue.component = values'.map KeyValue.component) :
  values = values'
  := by
  apply (keepsOrder_component.flatMap_inj (fun _ _ => KeyValue.trichotomy) htypes).mp
  rw [flatMap_def, flatMap_def, h]

/-- The leading columns of a key are read off its beginning. -/
theorem isPrefix_of_flatMap {lead values : List KeyValue} {suffix : Bytes}
    (htypes : lead.map KeyValue.type <+: values.map KeyValue.type)
    (h : values.flatMap KeyValue.component = lead.flatMap KeyValue.component ++ suffix) :
  lead <+: values
  := by
  obtain ⟨types, htypes⟩ := htypes
  obtain ⟨first, last, rfl, hfirst, -⟩ := map_eq_append_iff.mp htypes.symm
  -- Both beginnings are split off with the same types.
  have hlead := splitComponents_flatMap lead suffix false nofun
  rw [flatMap_append] at h
  rw [← h, ← hfirst, splitComponents_flatMap first _ false nofun] at hlead
  use last
  rw [eq_of_map_component hfirst (Except.ok.inj hlead)]

/-- An entry of an index is between the bounds of the leading columns exactly if they are its
own. -/
theorem indexKey_mem_indexPrefixRange {table table' : TableId} {index index' : IndexId}
    {lead cols pk : List KeyValue}
    (htypes : table' = table → index' = index →
      lead.map KeyValue.type <+: (cols ++ pk).map KeyValue.type) :
  (∃ suffix, indexKey table' index' (cols.map KeyValue.component) (pk.map KeyValue.component)
      = indexKey table index (lead.map KeyValue.component) [] ++ suffix)
    ↔ table' = table ∧ index' = index ∧ lead <+: cols ++ pk
  := by
  have hlead (suffix : Bytes) : indexKey table index (lead.map KeyValue.component) [] ++ suffix
      = tableHeader table indexMarker
        ++ ([index] ++ (lead.flatMap KeyValue.component ++ suffix)) := by
    simp [indexKey, flatMap_def]
  have hentry : indexKey table' index' (cols.map KeyValue.component) (pk.map KeyValue.component)
      = tableHeader table' indexMarker
        ++ ([index'] ++ ((cols ++ pk).flatMap KeyValue.component)) := by
    rw [indexKey, flatMap_append, flatMap_def, flatMap_def]
  simp only [hlead, hentry]
  constructor
  · rintro ⟨suffix, h⟩
    obtain ⟨rfl, -, hindex⟩ := tableHeader_append_inj h
    rw [singleton_append, singleton_append, List.cons.injEq] at hindex
    obtain ⟨rfl, hvalues⟩ := hindex
    use rfl, rfl
    apply isPrefix_of_flatMap (htypes rfl rfl) hvalues
  · rintro ⟨rfl, rfl, last, hlast⟩
    use last.flatMap KeyValue.component
    rw [← hlast, flatMap_append]

/-! ## The encoding is exact -/

/-- A row is read back exactly if its columns fit. -/
theorem RowValue.decode_encode_iff {row : RowValue} :
  decode row.encode = .ok row ↔ row.Fits
  := ⟨fits_of_decode, decode_encode⟩

/-- The encoding of tuples of column values is injective and keeps their order, and it splits into
its components whatever follows it; the bounds of an index prefix hold between them exactly the
entries with the leading columns; and a row is read back exactly if each column is shorter than
`2 ^ 32` bytes and none of an unknown type has a known tag. -/
theorem catalog_encoding_is_exact (row : RowValue) :
  (∀ values values' : List KeyValue, values.map KeyValue.type = values'.map KeyValue.type →
    (indexValue (values.map KeyValue.component) = indexValue (values'.map KeyValue.component)
      ↔ values = values')
    ∧ (indexValue (values.map KeyValue.component) < indexValue (values'.map KeyValue.component)
      ↔ List.Lex KeyValue.Lt values values'))
  ∧ (∀ (values : List KeyValue) (rest : Bytes),
    splitComponents (values.map KeyValue.type)
        (indexValue (values.map KeyValue.component) ++ rest) false
      = .ok (values.map KeyValue.component)
    ∧ splitComponents (values.map KeyValue.type) (indexValue (values.map KeyValue.component)) true
      = .ok (values.map KeyValue.component))
  ∧ (∀ v, decodeUintComponent (memcmpUint v) = .ok v)
  ∧ (∀ b, decodeBytesComponent (memcmpBytes b) = .ok b)
  ∧ (∀ (table : TableId) (index : IndexId) (lead : List KeyValue), ∃ start stop,
    indexPrefixRange table index (lead.map KeyValue.component) = .ok (start, stop)
    ∧ (∀ key : Bytes, start ≤ key ∧ key < stop ↔ start <+: key)
    ∧ ∀ (table' : TableId) (index' : IndexId) (cols pk : List KeyValue) (key : Bytes),
      encodeIndexKey table' index' (cols.map KeyValue.component) (pk.map KeyValue.component)
        = .ok key →
      (table' = table → index' = index →
        lead.map KeyValue.type <+: (cols ++ pk).map KeyValue.type) →
      (start ≤ key ∧ key < stop ↔ table' = table ∧ index' = index ∧ lead <+: cols ++ pk))
  ∧ (RowValue.decode row.encode = .ok row ↔ row.Fits)
  := by
  refine ⟨?_, ?_, decodeUintComponent_memcmpUint, decodeBytesComponent_memcmpBytes, ?_,
    RowValue.decode_encode_iff⟩
  · intro values values' htypes
    constructor
    · apply keepsOrder_component.flatMap_inj (fun _ _ => KeyValue.trichotomy) htypes
    · apply keepsOrder_component.flatMap_lt_iff (fun _ _ => KeyValue.trichotomy) htypes
  · intro values rest
    constructor
    · apply splitComponents_flatMap values rest false nofun
    · have hend := splitComponents_flatMap values [] true fun _ => rfl
      rw [append_nil] at hend
      exact hend
  · intro table index lead
    refine ⟨_, _, indexPrefixRange_eq table index _, ?_, ?_⟩
    · intro key
      rw [mem_indexPrefixRange]
      constructor
      · rintro ⟨suffix, rfl⟩
        apply prefix_append
      · rintro ⟨suffix, rfl⟩
        use suffix
    · intro table' index' cols pk key hkey htypes
      rw [encodeIndexKey_eq] at hkey
      cases hkey
      rw [mem_indexPrefixRange, indexKey_mem_indexPrefixRange htypes]

/-- A row with a column of an unknown type is read back. -/
theorem catalog_encoding_is_exact_unknown :
  RowValue.decode (RowValue.new.set 1 (.unknown 9 [7])).encode
    = .ok (RowValue.new.set 1 (.unknown 9 [7]))
  := by
  have hnew : RowValue.new.Fits := nofun
  apply (catalog_encoding_is_exact _).2.2.2.2.2.mpr
  apply hnew.set
  constructor
  · decide
  · rintro _ _ ⟨⟩
    decide

/-- A column of `2 ^ 32` bytes, whose length is written as zero: the row is not read back. -/
theorem long_column_is_not_read_back :
  ∃ b : Bytes, b.length = 2 ^ 32
    ∧ RowValue.decode (RowValue.new.set 1 (.bytes b)).encode ≠ .ok (RowValue.new.set 1 (.bytes b))
  := by
  use List.replicate (2 ^ 32) 0, length_replicate ..
  intro h
  have hfits := (RowValue.fits_of_decode h) (1, .bytes (List.replicate (2 ^ 32) 0))
    (mem_singleton.mpr rfl)
  have hlt := hfits.length_lt
  rw [ColumnValue.payload, length_replicate] at hlt
  apply Nat.lt_irrefl _ hlt

end Kv9.Meta
