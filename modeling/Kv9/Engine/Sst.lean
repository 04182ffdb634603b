import Kv9.Engine.Wal.Crc
import Kv9.Lib.OrderedMap

/-!
# Sorted tables

A table holds rows of one column family, in ascending order of their keys, between a header and a
footer with the first and the last key and a checksum.  The writer is told the number of rows and
the size of the table before it sees the rows, and refuses rows that disagree.  The reader refuses
a table unless everything it says agrees with its rows, under the limits of the writer.
-/

namespace Kv9.Engine.Sst

open Codec Except OrderedMap Wal List

/-- A length field of a table. -/
inductive Field where
  | key
  | value
  | smallestKey
  | largestKey
deriving DecidableEq, Repr

/-- Why a table is not written or not read. -/
inductive SstError where
  | emptyTable
  | fieldTooLong (what : Field) (length limit : ℕ)
  | fieldDoesNotFit (what : Field) (length : ℕ)
  | tooManyEntries (count limit : ℕ)
  | wouldExceedEntries (limit : ℕ)
  | countDoesNotFit (count : ℕ)
  | tableTooLarge (encoded limit : ℕ)
  | notAscending
  | mismatch
  | lengthOverflow
  | bufferTooLarge (length limit : ℕ)
  | tooShort
  | checksumMismatch (stored actual : UInt32)
  | truncated (wanted offset remain : ℕ)
  | lengthField (length limit : ℕ)
  | badMagic
  | unknownVersion (version : UInt8)
  | unknownColumnFamily (code : UInt8)
  | outOfOrder (index : ℕ)
  | trailingBytes (count : ℕ)
  | noEntries
  | rangeDisagrees
deriving DecidableEq, Repr

/-- The limits of writer and reader. -/
structure Limits where
  fieldLen : ℕ
  entries : ℕ
  totalBytes : ℕ

/-- The limits in use. -/
def Limits.production : Limits where
  fieldLen := 64 * 2 ^ 20
  entries := 16 * 2 ^ 20
  totalBytes := 2 ^ 30

/-- Add two sizes, unless the sum exceeds 64 bits. -/
def addOr (e : SstError) (a b : ℕ) : Except SstError ℕ := do
  failIf (2 ^ 64 ≤ a + b) e
  return a + b

/-- The stored length of a field. -/
def onDiskLen (n : ℕ) (what : Field) (limit : ℕ) : Except SstError UInt32 := do
  failIf (limit < n) (.fieldTooLong what n limit)
  failIf (2 ^ 32 ≤ n) (.fieldDoesNotFit what n)
  return UInt32.ofNat n

/-- The stored number of rows. -/
def onDiskCount (n limit : ℕ) : Except SstError UInt32 := do
  failIf (limit < n) (.tooManyEntries n limit)
  failIf (2 ^ 32 ≤ n) (.countDoesNotFit n)
  return UInt32.ofNat n

/-- Refuse a table above the limit. -/
def checkTotalSize (encoded limit : ℕ) : Except SstError Unit :=
  failIf (limit < encoded) (.tableTooLarge encoded limit)

/-- The column family of a code. -/
def cfFromCode : UInt8 → Except SstError ColumnFamily
  | 0 => .ok .default
  | 1 => .ok .lock
  | 2 => .ok .write
  | other => .error (.unknownColumnFamily other)

/-- The checksum, a bit at a time. -/
def crc32 (bytes : Bytes) : UInt32 :=
  ~~~ bytes.foldl (fun crc b => Nat.iterate crcBit 8 (crc ^^^ b.toUInt32)) 0xFFFFFFFF

/-- `KV9S` -/
def magic : Bytes := [0x4B, 0x56, 0x39, 0x53]

def version : UInt8 := 1

/-- The size of a table, from the size of its rows and of its first and last key. -/
def tableBytes (entries smallest largest : ℕ) : Except SstError ℕ := do
  let n ← addOr .lengthOverflow entries 22
  let n ← addOr .lengthOverflow n smallest
  addOr .lengthOverflow n largest

/-! ## Writing -/

/-- The end of an append, unless it exceeds the size announced. -/
def checkAppend (current extra encoded : ℕ) : Except SstError ℕ := do
  let stop ← addOr .mismatch current extra
  failIf (encoded < stop) .mismatch
  return stop

/-- A table being written: its bytes so far, the first and the last key, the number of rows. -/
structure Frame where
  out : Bytes
  first : Option Bytes
  last : Option Bytes
  seen : ℕ

/-- The size of a row. -/
def rowBytes (e : SstError) (row : ScanEntry) : Except SstError ℕ := do
  let n ← addOr e row.1.length row.2.length
  addOr e n 8

/-- Append a row. -/
def encodeRow (count encoded : ℕ) (limits : Limits) (t : Frame) (row : ScanEntry) :
    Except SstError Frame := do
  failIf (t.seen = count) .mismatch
  let keyLen ← onDiskLen row.1.length .key limits.fieldLen
  let valueLen ← onDiskLen row.2.length .value limits.fieldLen
  failIf (∃ previous ∈ t.last, row.1 ≤ previous) .notAscending
  let size ← rowBytes .mismatch row
  let _ ← checkAppend t.out.length size encoded
  return {
    out := t.out ++ (le32 keyLen ++ (row.1 ++ (le32 valueLen ++ row.2)))
    first := t.first.or (some row.1)
    last := some row.1
    seen := t.seen + 1 }

/-- A key that a table with rows has. -/
def orMismatch : Option Bytes → Except SstError Bytes
  | none => .error .mismatch
  | some key => .ok key

/-- Write a table of `count` rows and `encoded` bytes. -/
def encodeRows (cf : ColumnFamily) (count encoded : ℕ) (limits : Limits)
    (rows : List ScanEntry) : Except SstError Bytes := do
  failIf (count = 0) .emptyTable
  let diskCount ← onDiskCount count limits.entries
  checkTotalSize encoded limits.totalBytes
  let _ ← checkAppend 0 10 encoded
  let t ← rows.foldlM (encodeRow count encoded limits)
    ⟨magic ++ ([version] ++ ([cfCode cf] ++ le32 diskCount)), none, none, 0⟩
  failIf (t.seen ≠ count) .mismatch
  let smallest ← orMismatch t.first
  let largest ← orMismatch t.last
  let footer ← addOr .mismatch smallest.length largest.length
  let footer ← addOr .mismatch footer 12
  let stop ← checkAppend t.out.length footer encoded
  failIf (stop ≠ encoded) .mismatch
  let smallestLen ← onDiskLen smallest.length .smallestKey limits.fieldLen
  let largestLen ← onDiskLen largest.length .largestKey limits.fieldLen
  let out := t.out ++ (le32 smallestLen ++ (smallest ++ (le32 largestLen ++ largest)))
  return out ++ le32 (crc32 out)

/-- Write a table under the limits in use. -/
def encodeBorrowed (cf : ColumnFamily) (count encoded : ℕ) (rows : List ScanEntry) :
    Except SstError Bytes :=
  encodeRows cf count encoded .production rows

/-! ## Reading -/

/-- A table that passed the checks: what it says, and the bytes of its rows. -/
structure Validated where
  cf : ColumnFamily
  limits : Limits
  count : ℕ
  entries : Bytes
  smallest : Bytes
  largest : Bytes

/-- Take bytes of a buffer of `total` bytes. -/
def take (total n : ℕ) : Parser SstError Bytes := fun bs =>
  Codec.take (.truncated n (total - bs.length) bs.length) n bs

/-- Take a number. -/
def takeU32 (total : ℕ) : Parser SstError UInt32 := do
  let bs ← take total 4
  return UInt32.ofNat (fromLe bs)

/-- Take a byte string with its length. -/
def lenPrefixed (total : ℕ) (limits : Limits) : Parser SstError Bytes := do
  let n ← takeU32 total
  guardOr (n.toNat ≤ limits.fieldLen) (.lengthField n.toNat limits.fieldLen)
  take total n.toNat

/-- Check `n` rows from the `i`-th on; answer the first and the last key. -/
def checkEntries (total : ℕ) (limits : Limits) :
    ℕ → ℕ → Option Bytes → Option Bytes → Parser SstError (Option Bytes × Option Bytes)
  | _, 0, first, prev => pure (first, prev)
  | i, n + 1, first, prev => do
    let key ← lenPrefixed total limits
    let _ ← lenPrefixed total limits
    guardOr (¬ ∃ p ∈ prev, key ≤ p) (.outOfOrder i)
    checkEntries total limits (i + 1) n (first.or (some key)) (some key)

/-- Check the part of a table before its checksum. -/
def readBody (total : ℕ) (limits : Limits) : Parser SstError Validated := do
  let m ← take total 4
  guardOr (m = magic) .badMagic
  let v ← take total 1
  guardOr (v = [version]) (.unknownVersion (v.headD 0))
  let code ← take total 1
  let cf ← liftM (cfFromCode (code.headD 0))
  let count ← takeU32 total
  guardOr (count.toNat ≤ limits.entries) (.tooManyEntries count.toNat limits.entries)
  let ((first, prev), entries) ←
    consumed (checkEntries total limits 0 count.toNat none none)
  let smallest ← lenPrefixed total limits
  let largest ← lenPrefixed total limits
  let rest ← get
  guardOr (rest = []) (.trailingBytes rest.length)
  guardOr (count ≠ 0) .noEntries
  guardOr (some smallest = first ∧ some largest = prev) .rangeDisagrees
  return ⟨cf, limits, count.toNat, entries, smallest, largest⟩

/-- Check a table.  Nothing in it is looked at before its checksum. -/
def validate (bytes : Bytes) (limits : Limits) : Except SstError Validated := do
  failIf (limits.totalBytes < bytes.length) (.bufferTooLarge bytes.length limits.totalBytes)
  failIf (bytes.length < 4) .tooShort
  let body := bytes.take (bytes.length - 4)
  let stored := UInt32.ofNat (fromLe (bytes.drop (bytes.length - 4)))
  let actual := crc32 body
  failIf (stored ≠ actual) (.checksumMismatch stored actual)
  let (v, _) ← readBody body.length limits body
  return v

/-- Read a row. -/
def readEntry (total : ℕ) (limits : Limits) : Parser SstError ScanEntry := do
  let key ← lenPrefixed total limits
  let value ← lenPrefixed total limits
  return (key, value)

namespace Validated

/-- Check a table under the limits in use. -/
def parse (bytes : Bytes) : Except SstError Validated := validate bytes .production

/-- The rows of a table.  The code reads them a second time, and panics where this fails. -/
def iter (v : Validated) : Except SstError (List ScanEntry) := do
  let (rows, _) ← times (readEntry v.entries.length v.limits) v.count v.entries
  return rows

end Validated

/-! ## The bytes of a table -/

/-- Lengths and counts within the limits fit their fields. -/
structure Limits.Sound (limits : Limits) : Prop where
  fieldLen : limits.fieldLen < 2 ^ 32
  entries : limits.entries < 2 ^ 32
  totalBytes : limits.totalBytes < 2 ^ 64

theorem sound_production :
  Limits.production.Sound
  := by
  constructor
  · decide
  · decide
  · decide

/-- A byte string with its length. -/
def field (bytes : Bytes) : Bytes := le32 (UInt32.ofNat bytes.length) ++ bytes

/-- A row. -/
def entry (row : ScanEntry) : Bytes := field row.1 ++ field row.2

/-- The first key. -/
def smallest (rows : List ScanEntry) : Bytes := (rows.head?.map (·.1)).getD []

/-- The last key. -/
def largest (rows : List ScanEntry) : Bytes := (rows.getLast?.map (·.1)).getD []

/-- What comes before the rows. -/
def header (cf : ColumnFamily) (count : ℕ) : Bytes :=
  magic ++ ([version] ++ ([cfCode cf] ++ le32 (UInt32.ofNat count)))

/-- A table without its checksum. -/
def body (cf : ColumnFamily) (rows : List ScanEntry) : Bytes :=
  header cf rows.length ++ (rows.flatMap entry ++ (field (smallest rows) ++ field (largest rows)))

/-- A table. -/
def image (cf : ColumnFamily) (rows : List ScanEntry) : Bytes :=
  body cf rows ++ le32 (crc32 (body cf rows))

/-- The size of rows. -/
def entryBytes (rows : List ScanEntry) : ℕ :=
  (rows.map fun row => row.1.length + row.2.length + 8).sum

/-- The size of a table. -/
def tableSize (rows : List ScanEntry) : ℕ :=
  entryBytes rows + 22 + (smallest rows).length + (largest rows).length

/-- Rows a table can hold. -/
structure Fits (limits : Limits) (rows : List ScanEntry) : Prop where
  ne_nil : rows ≠ []
  ascending : Ascending rows
  count : rows.length ≤ limits.entries
  size : tableSize rows ≤ limits.totalBytes
  fields : ∀ row ∈ rows, row.1.length ≤ limits.fieldLen ∧ row.2.length ≤ limits.fieldLen

/-- Rows that may follow the key `prev`. -/
structure Admits (limits : Limits) (prev : Option Bytes) (rows : List ScanEntry) : Prop where
  ascending : Ascending rows
  follows : ∀ p ∈ prev, ∀ row ∈ rows, p < row.1
  fields : ∀ row ∈ rows, row.1.length ≤ limits.fieldLen ∧ row.2.length ≤ limits.fieldLen

theorem admits_nil (limits : Limits) (prev : Option Bytes) :
  Admits limits prev []
  := ⟨List.Pairwise.nil, nofun, nofun⟩

variable {prev : Option Bytes} {rows : List ScanEntry}

variable {limits : Limits} {row : ScanEntry} {limit : ℕ} {t : Frame} {bytes : Bytes}
  {cf : ColumnFamily}

theorem admits_cons :
  Admits limits prev (row :: rows) ↔ row.1.length ≤ limits.fieldLen
    ∧ row.2.length ≤ limits.fieldLen ∧ (¬ ∃ p ∈ prev, row.1 ≤ p)
    ∧ Admits limits (some row.1) rows
  := by
  constructor
  · rintro ⟨hascending, hfollows, hfields⟩
    rw [forall_mem_cons] at hfields
    use hfields.1.1, hfields.1.2
    constructor
    · rintro ⟨p, hp, hle⟩
      apply not_lt_of_ge hle (hfollows p hp row mem_cons_self)
    · use hascending.tail
      · rintro p ⟨⟩ row' hrow'
        apply hascending.lt_of_mem hrow'
      · exact hfields.2
  · rintro ⟨hkey, hvalue, hprev, hascending, hfollows, hfields⟩
    have hrow := hfollows row.1 rfl
    use pairwise_cons.mpr ⟨hrow, hascending⟩
    · intro p hp
      have hlt : p < row.1 := lt_of_not_ge fun hle => hprev ⟨p, hp, hle⟩
      rw [forall_mem_cons]
      use hlt, fun row' hrow' => lt_trans hlt (hrow row' hrow')
    · rw [forall_mem_cons]
      use ⟨hkey, hvalue⟩, hfields

theorem Fits.admits (h : Fits limits rows) :
  Admits limits none rows
  := ⟨h.ascending, nofun, h.fields⟩

theorem length_field (bytes : Bytes) :
  (field bytes).length = bytes.length + 4
  := by
  rw [field, length_append, length_le32, Nat.add_comm]

theorem length_entry (row : ScanEntry) :
  (entry row).length = row.1.length + row.2.length + 8
  := by
  rw [entry, length_append, length_field, length_field]
  omega

theorem length_flatMap_entry (rows : List ScanEntry) :
  (rows.flatMap entry).length = entryBytes rows
  := by
  rw [entryBytes]
  simp [length_entry]

theorem length_header (cf : ColumnFamily) (count : ℕ) :
  (header cf count).length = 10
  := by
  rfl

theorem length_body (cf : ColumnFamily) (rows : List ScanEntry) :
  (body cf rows).length + 4 = tableSize rows
  := by
  simp only [body, length_append, length_header, length_flatMap_entry, length_field, tableSize]
  omega

theorem length_image (cf : ColumnFamily) (rows : List ScanEntry) :
  (image cf rows).length = tableSize rows
  := by
  rw [image, length_append, length_le32, length_body]

/-! ## Rows are written as announced -/

variable {n : ℕ}

theorem addOr_eq_ok {e : SstError} {a b : ℕ} :
  addOr e a b = .ok n ↔ a + b < 2 ^ 64 ∧ n = a + b
  := by
  rw [addOr, bind_eq_ok]
  simp only [failIf_eq_ok, not_le]
  constructor
  · rintro ⟨_, hlt, hn⟩
    cases hn
    exact ⟨hlt, rfl⟩
  · rintro ⟨hlt, rfl⟩
    exact ⟨(), hlt, rfl⟩

theorem onDiskLen_eq (what : Field) (hn : n ≤ limit) (hlimit : limit < 2 ^ 32) :
  onDiskLen n what limit = .ok (UInt32.ofNat n)
  := by
  rw [onDiskLen, failIf_neg (Nat.not_lt.mpr hn), ok_bind,
    failIf_neg (Nat.not_le.mpr (Nat.lt_of_le_of_lt hn hlimit)), ok_bind]
  rfl

theorem onDiskCount_eq (hn : n ≤ limit) (hlimit : limit < 2 ^ 32) :
  onDiskCount n limit = .ok (UInt32.ofNat n)
  := by
  rw [onDiskCount, failIf_neg (Nat.not_lt.mpr hn), ok_bind,
    failIf_neg (Nat.not_le.mpr (Nat.lt_of_le_of_lt hn hlimit)), ok_bind]
  rfl

theorem checkAppend_eq {current extra encoded : ℕ} (h : current + extra ≤ encoded)
    (hencoded : encoded < 2 ^ 64) :
  checkAppend current extra encoded = .ok (current + extra)
  := by
  rw [checkAppend, addOr_eq_ok.mpr ⟨Nat.lt_of_le_of_lt h hencoded, rfl⟩, ok_bind,
    failIf_neg (Nat.not_lt.mpr h), ok_bind]
  rfl

section

variable {limits : Limits} {count encoded : ℕ}

theorem encodeRow_eq (hlimits : limits.Sound) (hencoded : encoded < 2 ^ 64) (hseen : t.seen < count) (hkey : row.1.length ≤ limits.fieldLen)
    (hvalue : row.2.length ≤ limits.fieldLen) (hlast : ¬ ∃ previous ∈ t.last, row.1 ≤ previous)
    (hsize : t.out.length + (row.1.length + row.2.length + 8) ≤ encoded) :
  encodeRow count encoded limits t row
    = .ok ⟨t.out ++ entry row, t.first.or (some row.1), some row.1, t.seen + 1⟩
  := by
  have hrow : rowBytes .mismatch row = .ok (row.1.length + row.2.length + 8) := by
    rw [rowBytes, bind_eq_ok]
    use row.1.length + row.2.length
    rw [addOr_eq_ok, addOr_eq_ok]
    omega
  rw [encodeRow, failIf_neg hseen.ne, ok_bind, onDiskLen_eq _ hkey hlimits.fieldLen, ok_bind,
    onDiskLen_eq _ hvalue hlimits.fieldLen, ok_bind, failIf_neg hlast, ok_bind, hrow,
    ok_bind, checkAppend_eq hsize hencoded, ok_bind, entry, field, field]
  simp

theorem foldlM_encodeRow (hlimits : limits.Sound) (hencoded : encoded < 2 ^ 64)
    (hrows : Admits limits t.last rows) (hseen : t.seen + rows.length ≤ count)
    (hsize : t.out.length + entryBytes rows ≤ encoded) :
  rows.foldlM (encodeRow count encoded limits) t
    = .ok ⟨t.out ++ rows.flatMap entry, t.first.or (rows.head?.map (·.1)),
      (rows.getLast?.map (·.1)).or t.last, t.seen + rows.length⟩
  := by
  induction rows generalizing t with
  | nil => simp
  | cons row rows ih =>
    obtain ⟨hkey, hvalue, hlast, hrows⟩ := admits_cons.mp hrows
    rw [length_cons] at hseen
    simp only [entryBytes, map_cons, sum_cons] at hsize
    rw [foldlM_cons, encodeRow_eq hlimits hencoded (by omega) hkey hvalue hlast (by omega),
      ok_bind, ih hrows]
    · rw [List.getLast?_cons]
      cases t.first <;> cases hl : rows.getLast? <;> simp [Nat.add_assoc, Nat.add_comm 1]
    · change t.seen + 1 + rows.length ≤ count
      omega
    · change (t.out ++ entry row).length + entryBytes rows ≤ encoded
      rw [length_append, length_entry, entryBytes]
      omega

theorem exists_head (h : rows ≠ []) :
  rows.head?.map (·.1) = some (smallest rows)
  := by
  obtain ⟨row, rows, rfl⟩ := exists_cons_of_ne_nil h
  rfl

theorem exists_last (h : rows ≠ []) :
  rows.getLast?.map (·.1) = some (largest rows)
  := by
  rw [largest, List.getLast?_eq_some_getLast h]
  rfl

theorem Admits.smallest_le (h : Admits limits prev rows) (hnil : rows ≠ []) :
  (smallest rows).length ≤ limits.fieldLen
  := by
  obtain ⟨row, hrow, hkey⟩ := Option.map_eq_some_iff.mp (exists_head hnil)
  rw [← hkey]
  apply (h.fields row (mem_of_mem_head? hrow)).1

theorem Admits.largest_le (h : Admits limits prev rows) (hnil : rows ≠ []) :
  (largest rows).length ≤ limits.fieldLen
  := by
  obtain ⟨row, hrow, hkey⟩ := Option.map_eq_some_iff.mp (exists_last hnil)
  rw [← hkey]
  apply (h.fields row (mem_of_getLast? hrow)).1

/-- Rows that fit are written, in exactly the bytes announced. -/
theorem encodeRows_eq (hlimits : limits.Sound) (h : Fits limits rows) (cf : ColumnFamily) :
  encodeRows cf rows.length (tableSize rows) limits rows = .ok (image cf rows)
  := by
  have hsize : tableSize rows < 2 ^ 64 := Nat.lt_of_le_of_lt h.size hlimits.totalBytes
  have hnil : rows.length ≠ 0 := fun hlength => h.ne_nil (length_eq_zero_iff.mp hlength)
  have hout : (header cf rows.length ++ rows.flatMap entry).length = 10 + entryBytes rows := by
    rw [length_append, length_header, length_flatMap_entry]
  have htable : tableSize rows = 10 + entryBytes rows
      + ((smallest rows).length + (largest rows).length + 12) := by
    rw [tableSize]
    omega
  have hrows : rows.foldlM (encodeRow rows.length (tableSize rows) limits)
      ⟨header cf rows.length, none, none, 0⟩ = .ok ⟨header cf rows.length ++ rows.flatMap entry,
        some (smallest rows), some (largest rows), rows.length⟩ := by
    rw [foldlM_encodeRow hlimits hsize h.admits (Nat.zero_add _).le
      (by rw [length_header]; omega), exists_head h.ne_nil, exists_last h.ne_nil, Nat.zero_add]
    rfl
  have hfooter : checkAppend (header cf rows.length ++ rows.flatMap entry).length
      ((smallest rows).length + (largest rows).length + 12) (tableSize rows)
      = .ok (tableSize rows) := by
    rw [hout, checkAppend_eq (by omega) hsize, htable]
  rw [encodeRows, failIf_neg hnil, ok_bind, onDiskCount_eq h.count hlimits.entries, ok_bind,
    checkTotalSize, failIf_neg (Nat.not_lt.mpr h.size), ok_bind, checkAppend_eq (by omega) hsize,
    ok_bind, ← header, hrows, ok_bind]
  simp only [orMismatch]
  rw [failIf_neg (not_not.mpr rfl), ok_bind, ok_bind, ok_bind,
    addOr_eq_ok.mpr ⟨by omega, rfl⟩, ok_bind, addOr_eq_ok.mpr ⟨by omega, rfl⟩, ok_bind, hfooter,
    ok_bind, failIf_neg (not_not.mpr rfl), ok_bind,
    onDiskLen_eq _ (h.admits.smallest_le h.ne_nil) hlimits.fieldLen, ok_bind,
    onDiskLen_eq _ (h.admits.largest_le h.ne_nil) hlimits.fieldLen, ok_bind]
  simp [image, body, field]

/-! ## What is read -/

theorem toNat_ofNat_of_le (hn : n ≤ limit) (hlimit : limit < 2 ^ 32) :
  (UInt32.ofNat n).toNat = n
  := by
  apply Nat.mod_eq_of_lt (Nat.lt_of_le_of_lt hn hlimit)

variable {total : ℕ} {bs : Bytes}

theorem take_bind_eq_ok {α : Type} {f : Bytes → Parser SstError α} {answer : α × Bytes} :
  (take total n >>= f) bs = .ok answer
    ↔ ∃ cs rest, (cs.length = n ∧ bs = cs ++ rest) ∧ f cs rest = .ok answer
  := by
  rw [bind_apply_eq_ok]
  simp [take, take_eq_ok]

variable {rest : Bytes}

theorem takeU32_eq_ok {x : UInt32} :
  takeU32 total bs = .ok (x, rest) ↔ bs = le32 x ++ rest
  := by
  rw [takeU32, take_bind_eq_ok]
  constructor
  · rintro ⟨cs, rest', ⟨hlength, rfl⟩, hanswer⟩
    cases hanswer
    rw [le32_fromLe hlength]
  · rintro rfl
    use le32 x, rest, ⟨length_le32 x, rfl⟩
    rw [fromLe_le32]
    rfl

theorem lenPrefixed_eq_ok (hlimits : limits.Sound) :
  lenPrefixed total limits bs = .ok (bytes, rest)
    ↔ bytes.length ≤ limits.fieldLen ∧ bs = field bytes ++ rest
  := by
  simp only [lenPrefixed, bind_apply_eq_ok (p := takeU32 total), takeU32_eq_ok, guardOr_bind_eq_ok,
    take, take_eq_ok]
  constructor
  · rintro ⟨n, rest', rfl, hle, hlength, rfl⟩
    rw [field, hlength, UInt32.ofNat_toNat]
    exact ⟨hle, rfl⟩
  · rintro ⟨hle, rfl⟩
    have hlength := toNat_ofNat_of_le hle hlimits.fieldLen
    use UInt32.ofNat bytes.length, bytes ++ rest
    rw [hlength]
    exact ⟨rfl, hle, rfl, rfl⟩

theorem checkEntries_eq_ok (hlimits : limits.Sound) {i : ℕ} {first : Option Bytes}
    {ends : Option Bytes × Option Bytes} :
  checkEntries total limits i n first prev bs = .ok (ends, rest)
    ↔ ∃ rows : List ScanEntry, (rows.length = n ∧ Admits limits prev rows)
      ∧ bs = rows.flatMap entry ++ rest
      ∧ ends = (first.or (rows.head?.map (·.1)), (rows.getLast?.map (·.1)).or prev)
  := by
  induction n generalizing i first prev bs with
  | zero =>
    constructor
    · rintro ⟨⟩
      use [], ⟨rfl, admits_nil limits prev⟩, rfl
      simp
    · rintro ⟨rows, ⟨hlength, -⟩, rfl, rfl⟩
      rw [length_eq_zero_iff.mp hlength]
      simp [checkEntries, pure, StateT.pure, Except.pure]
  | succ n ih =>
    have hends (row : ScanEntry) (rows : List ScanEntry) : (first.or ((row :: rows).head?.map
        (·.1)), ((row :: rows).getLast?.map (·.1)).or prev)
        = ((first.or (some row.1)).or (rows.head?.map (·.1)),
          (rows.getLast?.map (·.1)).or (some row.1)) := by
      cases first <;> cases hl : rows.getLast? <;> simp [List.getLast?_cons, hl]
    simp only [checkEntries, bind_apply_eq_ok (p := lenPrefixed total limits),
      lenPrefixed_eq_ok hlimits, guardOr_bind_eq_ok, ih]
    constructor
    · rintro ⟨key, _, ⟨hkey, rfl⟩, value, _, ⟨hvalue, rfl⟩, hprev, rows, ⟨rfl, hrows⟩, rfl, rfl⟩
      use (key, value) :: rows, ⟨rfl, admits_cons.mpr ⟨hkey, hvalue, hprev, hrows⟩⟩
      rw [hends, flatMap_cons, entry]
      simp
    · rintro ⟨rows, ⟨hlength, hrows⟩, rfl, rfl⟩
      obtain ⟨row, rows, rfl⟩ := exists_cons_of_length_eq_add_one hlength
      obtain ⟨hkey, hvalue, hprev, hrows⟩ := admits_cons.mp hrows
      rw [hends, flatMap_cons, entry, append_assoc, append_assoc]
      exact ⟨row.1, _, ⟨hkey, rfl⟩, row.2, _, ⟨hvalue, rfl⟩, hprev, rows,
        ⟨Nat.succ.inj hlength, hrows⟩, rfl, rfl⟩

theorem consumed_checkEntries_eq_ok (hlimits : limits.Sound)
    {answer : (Option Bytes × Option Bytes) × Bytes} :
  consumed (checkEntries total limits 0 n none none) bs = .ok (answer, rest)
    ↔ ∃ rows : List ScanEntry, (rows.length = n ∧ Admits limits none rows)
      ∧ bs = rows.flatMap entry ++ rest
      ∧ answer = ((rows.head?.map (·.1), rows.getLast?.map (·.1)), rows.flatMap entry)
  := by
  rw [consumed_eq_ok, checkEntries_eq_ok hlimits]
  constructor
  · rintro ⟨⟨rows, hrows, rfl, hends⟩, hfront⟩
    rw [length_append, Nat.add_sub_cancel, take_left] at hfront
    rw [Option.or_none] at hends
    use rows, hrows, rfl, Prod.ext hends hfront
  · rintro ⟨rows, hrows, rfl, rfl⟩
    rw [length_append, Nat.add_sub_cancel, take_left]
    simp only [and_true]
    use rows, hrows, rfl
    rw [Option.none_or, Option.or_none]

theorem cfFromCode_eq_ok {code : UInt8} :
  cfFromCode code = .ok cf ↔ code = cfCode cf
  := by
  constructor
  · intro h
    unfold cfFromCode at h
    split at h <;> cases h <;> rfl
  · rintro rfl
    cases cf <;> rfl

/-- What a table says of its rows. -/
def described (limits : Limits) (cf : ColumnFamily) (rows : List ScanEntry) : Validated :=
  ⟨cf, limits, rows.length, rows.flatMap entry, smallest rows, largest rows⟩

/-- The part before the checksum is accepted exactly when it is that of rows in order. -/
theorem readBody_eq_ok (hlimits : limits.Sound) {answer : Validated × Bytes} :
  readBody total limits bs = .ok answer
    ↔ ∃ cf rows, (rows ≠ [] ∧ rows.length ≤ limits.entries ∧ Admits limits none rows)
      ∧ bs = body cf rows ∧ answer = (described limits cf rows, [])
  := by
  simp only [readBody, take_bind_eq_ok, guardOr_bind_eq_ok, lift_bind_eq_ok, cfFromCode_eq_ok,
    bind_apply_eq_ok (p := takeU32 total), takeU32_eq_ok,
    bind_apply_eq_ok (p := consumed _), consumed_checkEntries_eq_ok hlimits,
    bind_apply_eq_ok (p := lenPrefixed total limits), lenPrefixed_eq_ok hlimits, get_bind_apply]
  constructor
  · rintro ⟨_, _, ⟨-, rfl⟩, rfl, _, _, ⟨-, rfl⟩, rfl, code, _, ⟨hcode, rfl⟩, cf, hcf, count, _, rfl,
      hcount, _, _, ⟨rows, ⟨hlength, hrows⟩, rfl, rfl⟩, least, _, ⟨-, rfl⟩, most, _, ⟨-, rfl⟩, rfl,
      hzero, ⟨hleast, hmost⟩, hanswer⟩
    have hnil : rows ≠ [] := by
      rintro rfl
      apply hzero (UInt32.toNat_inj.mp hlength.symm)
    rw [exists_head hnil] at hleast
    rw [exists_last hnil] at hmost
    obtain ⟨b, rfl⟩ := length_eq_one_iff.mp hcode
    cases hleast
    cases hmost
    cases hanswer
    use cf, rows, ⟨hnil, hlength.le.trans hcount, hrows⟩
    rw [described, body, header, hlength, ← hcf]
    simp
  · rintro ⟨cf, rows, ⟨hnil, hcount, hrows⟩, rfl, rfl⟩
    have hlength := toNat_ofNat_of_le hcount hlimits.entries
    have hzero : UInt32.ofNat rows.length ≠ 0 := by
      intro hzero
      rw [hzero] at hlength
      apply hnil (length_eq_zero_iff.mp hlength.symm)
    simp only [body, header, append_assoc]
    refine ⟨_, _, ⟨rfl, rfl⟩, rfl, _, _, ⟨rfl, rfl⟩, rfl, _, _, ⟨rfl, rfl⟩, cf, rfl, _, _, rfl, ?_, _, _,
      ⟨rows, ⟨hlength.symm, hrows⟩, rfl, rfl⟩, _, _, ⟨hrows.smallest_le hnil, rfl⟩, largest rows, [],
      ⟨hrows.largest_le hnil, (append_nil _).symm⟩, rfl, hzero,
      ⟨(exists_head hnil).symm, (exists_last hnil).symm⟩, ?_⟩
    · rw [hlength]
      exact hcount
    · rw [hlength]
      rfl

/-- The bytes of a table end with its checksum. -/
theorem eq_image (hlong : ¬ bytes.length < 4) :
  bytes = image cf rows
    ↔ bytes.take (bytes.length - 4) = body cf rows
      ∧ UInt32.ofNat (fromLe (bytes.drop (bytes.length - 4))) = crc32 (body cf rows)
  := by
  have hdrop : (bytes.drop (bytes.length - 4)).length = 4 := by
    rw [length_drop]
    omega
  constructor
  · intro h
    have hbody : bytes.length - 4 = (body cf rows).length := by
      rw [h, length_image, ← length_body, Nat.add_sub_cancel]
    rw [hbody, h, image, take_left, drop_left, fromLe_le32]
    exact ⟨rfl, rfl⟩
  · rintro ⟨hbody, hcrc⟩
    rw [image, ← hcrc, ← hbody, le32_fromLe hdrop, take_append_drop]

/-- A table passes the checks exactly when it is that of rows that fit. -/
theorem validate_eq_ok (hlimits : limits.Sound) {v : Validated} :
  validate bytes limits = .ok v
    ↔ ∃ cf rows, Fits limits rows ∧ bytes = image cf rows ∧ v = described limits cf rows
  := by
  simp only [validate, bind_eq_ok, failIf_eq_ok, readBody_eq_ok hlimits]
  constructor
  · rintro ⟨_, hsize, _, hlong, _, hcrc, _, ⟨cf, rows, ⟨hnil, hcount, hrows⟩, hbody, rfl⟩, hanswer⟩
    cases hanswer
    have himage := (eq_image hlong).mpr ⟨hbody, by rw [← hbody]; exact not_not.mp hcrc⟩
    rw [himage, length_image, not_lt] at hsize
    exact ⟨cf, rows, ⟨hnil, hrows.ascending, hcount, hsize, hrows.fields⟩, himage, rfl⟩
  · rintro ⟨cf, rows, h, himage, rfl⟩
    have hlong : ¬ bytes.length < 4 := by
      rw [himage, length_image, tableSize]
      omega
    obtain ⟨hbody, hcrc⟩ := (eq_image hlong).mp himage
    refine ⟨(), ?_, (), hlong, (), ?_, _, ⟨cf, rows, ⟨h.ne_nil, h.count, h.admits⟩, hbody, rfl⟩, rfl⟩
    · rw [himage, length_image, not_lt]
      exact h.size
    · rw [hbody, hcrc, not_not]

theorem validate_image (hlimits : limits.Sound) (h : Fits limits rows) (cf : ColumnFamily) :
  validate (image cf rows) limits = .ok (described limits cf rows)
  := (validate_eq_ok hlimits).mpr ⟨cf, rows, h, rfl, rfl⟩

theorem iter_eq (hlimits : limits.Sound) (h : Fits limits rows) (cf : ColumnFamily) :
  (described limits cf rows).iter = .ok rows
  := by
  have hfield (total : ℕ) {bytes : Bytes} (hle : bytes.length ≤ limits.fieldLen) :
      Reads (lenPrefixed total limits) (field bytes) bytes :=
    fun _ => (lenPrefixed_eq_ok hlimits).mpr ⟨hle, rfl⟩
  have hread : Reads (times (readEntry (rows.flatMap entry).length limits) rows.length)
      (rows.flatMap entry) rows := by
    apply reads_times
    intro row hrow
    have hfields := h.fields row hrow
    apply (hfield _ hfields.1).bind
    apply (hfield _ hfields.2).map
  simp only [Validated.iter, described]
  rw [hread.run]
  rfl

end

/-! ## The checksum -/

/-- The checksum of the log, of any parts of a byte string, and the checksum of a table are the
bitwise one: the reflected polynomial, from all ones, and complemented. -/
theorem checksums_are_bitwise (parts : List Bytes) :
  crc32Parts parts = crc32Bitwise parts.flatten ∧ crc32 parts.flatten = crc32Bitwise parts.flatten
  := by
  use crc32Parts_eq_bitwise parts
  simp only [crc32, crc32Bitwise, foldl_flatMap, foldl_bitsOf]

end Kv9.Engine.Sst
