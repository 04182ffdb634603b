import Kv9.Engine.Sst
import Kv9.Lib.Search

/-!
# Writing tables and looking rows up

A writer is given the rows of a table one at a time and refuses a row that the reader would
refuse.  It succeeds exactly on the rows that fit a table, in exactly the size it predicts.  A
table that was read answers with exactly those rows, and is what the writer makes of them.
-/

namespace Kv9.Engine.Sst

open Codec Except OrderedMap Wal List

/-- A table being collected, and the size of its rows. -/
structure SstWriter where
  cf : ColumnFamily
  entries : List ScanEntry
  entryBytes : ℕ
  limits : Limits

namespace SstWriter

def new (cf : ColumnFamily) : SstWriter := ⟨cf, [], 0, .production⟩

def nextEntryBytes (w : SstWriter) (key value : ℕ) : Except SstError ℕ := do
  let n ← addOr .lengthOverflow w.entryBytes 8
  let n ← addOr .lengthOverflow n key
  addOr .lengthOverflow n value

/-- The last key so far. -/
def last (w : SstWriter) : Option Bytes := w.entries.getLast?.map (·.1)

/-- Append a row. -/
def add (w : SstWriter) (row : ScanEntry) : Except SstError SstWriter := do
  let _ ← onDiskLen row.1.length .key w.limits.fieldLen
  let _ ← onDiskLen row.2.length .value w.limits.fieldLen
  failIf (w.limits.entries ≤ w.entries.length) (.wouldExceedEntries w.limits.entries)
  failIf (∃ last ∈ w.last, row.1 ≤ last) .notAscending
  let n ← w.nextEntryBytes row.1.length row.2.length
  return { w with entries := w.entries ++ [row], entryBytes := n }

/-- The size of the table. -/
def encodedLen (w : SstWriter) : Except SstError ℕ :=
  tableBytes w.entryBytes (smallest w.entries).length (largest w.entries).length

/-- Write the table. -/
def finish (w : SstWriter) : Except SstError Bytes := do
  let encoded ← w.encodedLen
  encodeRows w.cf w.entries.length encoded w.limits w.entries

/-- Collect rows. -/
def collect (cf : ColumnFamily) (rows : List ScanEntry) : Except SstError SstWriter :=
  rows.foldlM add (new cf)

end SstWriter

/-- A table that was read. -/
structure ParsedSst where
  cf : ColumnFamily
  entries : List ScanEntry
  smallest : Bytes
  largest : Bytes

namespace ParsedSst

/-- Read a table. -/
def parse (bytes : Bytes) : Except SstError ParsedSst := do
  let view ← Validated.parse bytes
  let entries ← view.iter
  return ⟨view.cf, entries, view.smallest, view.largest⟩

/-- Look a key up. -/
def get (t : ParsedSst) (key : Bytes) : Option Bytes :=
  BinarySearch.lookup key t.entries

/-- The rows from `start` on and before `stop`. -/
def range (t : ParsedSst) (start stop : Bytes) : List ScanEntry :=
  t.entries.filter fun row => start ≤ row.1 ∧ row.1 < stop

def iter (t : ParsedSst) : List ScanEntry := t.entries

end ParsedSst

/-! ## What is written -/

variable {n : ℕ} {w' : SstWriter} {bytes : Bytes}

theorem onDiskLen_eq_ok {limit : ℕ} {what : Field} {x : UInt32} (hlimit : limit < 2 ^ 32) :
  onDiskLen n what limit = .ok x ↔ n ≤ limit ∧ x = UInt32.ofNat n
  := by
  constructor
  · intro h
    have hle : n ≤ limit := by
      rw [onDiskLen, bind_eq_ok] at h
      obtain ⟨_, hle, -⟩ := h
      apply not_lt.mp (failIf_eq_ok.mp hle)
    rw [onDiskLen_eq what hle hlimit] at h
    cases h
    exact ⟨hle, rfl⟩
  · rintro ⟨hle, rfl⟩
    apply onDiskLen_eq what hle hlimit

variable {rows : List ScanEntry} {cf : ColumnFamily}

namespace SstWriter

variable {w : SstWriter}

theorem nextEntryBytes_eq_ok {key value : ℕ} :
  w.nextEntryBytes key value = .ok n
    ↔ w.entryBytes + (key + value + 8) < 2 ^ 64 ∧ n = w.entryBytes + (key + value + 8)
  := by
  simp only [nextEntryBytes, bind_eq_ok, addOr_eq_ok]
  constructor
  · rintro ⟨_, ⟨-, rfl⟩, _, ⟨-, rfl⟩, hlt, rfl⟩
    omega
  · rintro ⟨hlt, rfl⟩
    exact ⟨_, ⟨by omega, rfl⟩, _, ⟨by omega, rfl⟩, by omega, by omega⟩

/-- The writer after a row. -/
def push (w : SstWriter) (row : ScanEntry) : SstWriter :=
  { w with
    entries := w.entries ++ [row]
    entryBytes := w.entryBytes + (row.1.length + row.2.length + 8) }

theorem add_eq_ok {row : ScanEntry} (hlimits : w.limits.Sound) :
  w.add row = .ok w' ↔ row.1.length ≤ w.limits.fieldLen ∧ row.2.length ≤ w.limits.fieldLen
    ∧ (¬ ∃ last ∈ w.last, row.1 ≤ last)
    ∧ (w.push row).entries.length ≤ w.limits.entries ∧ (w.push row).entryBytes < 2 ^ 64
    ∧ w' = w.push row
  := by
  simp only [add, bind_eq_ok, onDiskLen_eq_ok hlimits.fieldLen, failIf_eq_ok, not_le,
    nextEntryBytes_eq_ok, push, length_append, length_singleton, Nat.succ_le_iff]
  constructor
  · rintro ⟨_, ⟨hkey, -⟩, _, ⟨hvalue, -⟩, _, hcount, _, hlast, _, ⟨hsize, rfl⟩, hw⟩
    cases hw
    exact ⟨hkey, hvalue, hlast, hcount, hsize, rfl⟩
  · rintro ⟨hkey, hvalue, hlast, hcount, hsize, rfl⟩
    exact ⟨_, ⟨hkey, rfl⟩, _, ⟨hvalue, rfl⟩, (), hcount, (), hlast, _, ⟨hsize, rfl⟩, rfl⟩

theorem foldlM_add_eq_ok (hlimits : w.limits.Sound)
    (hcount : w.entries.length ≤ w.limits.entries) (hsize : w.entryBytes < 2 ^ 64) :
  rows.foldlM add w = .ok w' ↔ Admits w.limits w.last rows
    ∧ w.entries.length + rows.length ≤ w.limits.entries
    ∧ w.entryBytes + Sst.entryBytes rows < 2 ^ 64
    ∧ w' = ⟨w.cf, w.entries ++ rows, w.entryBytes + Sst.entryBytes rows, w.limits⟩
  := by
  induction rows generalizing w with
  | nil =>
    constructor
    · rintro ⟨⟩
      use admits_nil _ _, hcount, hsize
      rw [append_nil]
      rfl
    · rintro ⟨-, -, -, rfl⟩
      rw [append_nil]
      rfl
  | cons row rows ih =>
    have hlast : (w.push row).last = some row.1 := by
      rw [push, last, List.getLast?_concat, Option.map_some]
    have hlength : (w.push row).entries.length + rows.length
        = w.entries.length + (row :: rows).length := by
      simp only [push, length_append, length_cons, length_nil]
      omega
    have hbytes : (w.push row).entryBytes + Sst.entryBytes rows
        = w.entryBytes + Sst.entryBytes (row :: rows) := by
      simp only [push, Sst.entryBytes, map_cons, sum_cons]
      omega
    have hentries : (w.push row).entries ++ rows = w.entries ++ row :: rows := by
      rw [push, append_assoc, singleton_append]
    rw [foldlM_cons, bind_eq_ok, admits_cons, ← hlength, ← hbytes, ← hentries]
    constructor
    · rintro ⟨next, hadd, hrows⟩
      obtain ⟨hkey, hvalue, hascending, hcount, hsize, rfl⟩ := (add_eq_ok hlimits).mp hadd
      obtain ⟨hadmits, hrest⟩ := (ih (w := w.push row) hlimits hcount hsize).mp hrows
      rw [hlast] at hadmits
      exact ⟨⟨hkey, hvalue, hascending, hadmits⟩, hrest⟩
    · rintro ⟨⟨hkey, hvalue, hascending, hadmits⟩, hrest⟩
      have hcount : (w.push row).entries.length ≤ w.limits.entries := by omega
      have hsize : (w.push row).entryBytes < 2 ^ 64 := by omega
      use w.push row, (add_eq_ok hlimits).mpr ⟨hkey, hvalue, hascending, hcount, hsize, rfl⟩
      rw [ih (w := w.push row) hlimits hcount hsize, hlast]
      exact ⟨hadmits, hrest⟩

theorem collect_eq_ok :
  collect cf rows = .ok w ↔ Admits .production none rows
    ∧ rows.length ≤ Limits.production.entries ∧ Sst.entryBytes rows < 2 ^ 64
    ∧ w = ⟨cf, rows, Sst.entryBytes rows, .production⟩
  := by
  rw [collect, foldlM_add_eq_ok (w := new cf) sound_production (Nat.zero_le _) (Nat.two_pow_pos 64)]
  simp [new, last]

theorem encodedLen_eq_ok (hbytes : w.entryBytes = Sst.entryBytes w.entries) :
  w.encodedLen = .ok n ↔ tableSize w.entries < 2 ^ 64 ∧ n = tableSize w.entries
  := by
  simp only [encodedLen, tableBytes, bind_eq_ok, addOr_eq_ok, hbytes, tableSize]
  constructor
  · rintro ⟨_, ⟨-, rfl⟩, _, ⟨-, rfl⟩, hlt, rfl⟩
    exact ⟨hlt, rfl⟩
  · rintro ⟨hlt, rfl⟩
    exact ⟨_, ⟨by omega, rfl⟩, _, ⟨by omega, rfl⟩, hlt, rfl⟩

end SstWriter

/-- The first checks of a table: it has rows, and is not too large. -/
theorem of_encodeRows {count encoded : ℕ} {limits : Limits}
    (h : encodeRows cf count encoded limits rows = .ok bytes) :
  count ≠ 0 ∧ encoded ≤ limits.totalBytes
  := by
  simp only [encodeRows, bind_eq_ok, failIf_eq_ok, checkTotalSize] at h
  obtain ⟨_, hcount, _, _, _, hsize, -⟩ := h
  use hcount, not_lt.mp hsize

/-- Rows are written exactly when they fit a table. -/
theorem finish_collect :
  (SstWriter.collect cf rows >>= SstWriter.finish) = .ok bytes
    ↔ Fits .production rows ∧ bytes = image cf rows
  := by
  rw [bind_eq_ok]
  constructor
  · rintro ⟨w, hw, hfinish⟩
    obtain ⟨hadmits, hcount, -, rfl⟩ := SstWriter.collect_eq_ok.mp hw
    rw [SstWriter.finish, bind_eq_ok] at hfinish
    obtain ⟨n, hn, hfinish⟩ := hfinish
    obtain ⟨-, rfl⟩ := (SstWriter.encodedLen_eq_ok rfl).mp hn
    obtain ⟨hnil, hsize⟩ := of_encodeRows hfinish
    have hfits : Fits .production rows :=
      ⟨fun h => hnil (length_eq_zero_iff.mpr h), hadmits.ascending, hcount, hsize, hadmits.fields⟩
    rw [encodeRows_eq sound_production hfits] at hfinish
    cases hfinish
    exact ⟨hfits, rfl⟩
  · rintro ⟨hfits, rfl⟩
    have hsize := Nat.lt_of_le_of_lt hfits.size sound_production.totalBytes
    use ⟨cf, rows, entryBytes rows, .production⟩
    constructor
    · apply SstWriter.collect_eq_ok.mpr ⟨hfits.admits, hfits.count, _, rfl⟩
      rw [tableSize] at hsize
      omega
    · rw [SstWriter.finish, (SstWriter.encodedLen_eq_ok rfl).mpr ⟨hsize, rfl⟩]
      apply encodeRows_eq sound_production hfits

/-! ## What is read -/

namespace ParsedSst

theorem parse_eq_ok {t : ParsedSst} :
  parse bytes = .ok t ↔ ∃ cf rows, Fits .production rows ∧ bytes = image cf rows
    ∧ t = ⟨cf, rows, Sst.smallest rows, Sst.largest rows⟩
  := by
  simp only [parse, Validated.parse, bind_eq_ok, validate_eq_ok sound_production]
  constructor
  · rintro ⟨_, ⟨cf, rows, hfits, rfl, rfl⟩, entries, hiter, ht⟩
    rw [iter_eq sound_production hfits] at hiter
    cases hiter
    cases ht
    exact ⟨cf, rows, hfits, rfl, rfl⟩
  · rintro ⟨cf, rows, hfits, rfl, rfl⟩
    exact ⟨_, ⟨cf, rows, hfits, rfl, rfl⟩, rows, iter_eq sound_production hfits cf, rfl⟩

end ParsedSst

/-- Rows are written exactly when they fit a table, in exactly the predicted size.  The table
is read, and answers with exactly its rows.  What is read is what the writer makes of its rows. -/
theorem sst_round_trip (cf : ColumnFamily) (rows : List ScanEntry) :
  ((∃ bytes, (SstWriter.collect cf rows >>= SstWriter.finish) = .ok bytes)
      ↔ Fits .production rows)
    ∧ (Fits .production rows → ∃ w bytes t, SstWriter.collect cf rows = .ok w
      ∧ w.encodedLen = .ok bytes.length ∧ w.finish = .ok bytes
      ∧ ParsedSst.parse bytes = .ok t ∧ t.cf = cf ∧ t.iter = rows
      ∧ (∀ start stop, t.range start stop = rows.filter fun row => start ≤ row.1 ∧ row.1 < stop)
      ∧ ∀ key value, t.get key = some value ↔ (key, value) ∈ rows)
    ∧ ∀ bytes t, ParsedSst.parse bytes = .ok t →
      (SstWriter.collect t.cf t.iter >>= SstWriter.finish) = .ok bytes
  := by
  refine ⟨?_, ?_, ?_⟩
  · simp [finish_collect]
  · intro hfits
    have hwritten : (SstWriter.collect cf rows >>= SstWriter.finish) = .ok (image cf rows) :=
      finish_collect.mpr ⟨hfits, rfl⟩
    obtain ⟨w, hw, hfinish⟩ := bind_eq_ok.mp hwritten
    obtain ⟨-, -, -, rfl⟩ := SstWriter.collect_eq_ok.mp hw
    refine ⟨_, image cf rows, _, hw, ?_, hfinish,
      ParsedSst.parse_eq_ok.mpr ⟨cf, rows, hfits, rfl, rfl⟩, rfl, rfl, fun _ _ => rfl, ?_⟩
    · rw [SstWriter.encodedLen_eq_ok rfl, length_image]
      exact ⟨Nat.lt_of_le_of_lt hfits.size sound_production.totalBytes, rfl⟩
    · intro key value
      apply BinarySearch.lookup_eq_some hfits.ascending
  · intro bytes t ht
    obtain ⟨cf, rows, hfits, rfl, rfl⟩ := ParsedSst.parse_eq_ok.mp ht
    apply finish_collect.mpr ⟨hfits, rfl⟩

/-- No rows are in order and within the limits, but a table needs a row. -/
theorem finish_collect_nil :
  Admits .production none [] ∧ tableSize [] ≤ Limits.production.totalBytes
    ∧ (SstWriter.collect .default [] >>= SstWriter.finish) = .error .emptyTable
  := ⟨admits_nil _ _, by decide, rfl⟩

end Kv9.Engine.Sst
