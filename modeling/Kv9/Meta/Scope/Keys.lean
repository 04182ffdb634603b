import Kv9.Engine.Mem
import Kv9.Engine.Reads

/-!
# The keys of a catalog slice

A scoped node holds a slice of the catalog in the default column family of its metadata
engine, next to a marker that tells a slice from the whole.  The entries of a view are visited
in pages.
-/

namespace Kv9.Meta.Scope

open Engine OrderedMap

/-- `SLICE_MARKER`. -/
def sliceMarker : Bytes :=
  [0, 107, 118, 57, 0, 99, 97, 116, 97, 108, 111, 103, 45, 115, 108, 105, 99, 101, 0]

/-- `ALL_START`. -/
def allStart : Bytes := []

/-- `ALL_END`. -/
def allEnd : Bytes := List.replicate 16 0xff

/-- The number of entries on a page. -/
def forEachPage : ℕ := 1024

/-- Visit the entries from `start` on, page by page. -/
def forEachFrom (view : MemState) (stop : Bytes) : ℕ → Bytes → List ScanEntry
  | 0, _ => []
  | fuel + 1, start =>
    let page := view.scan .default start stop forEachPage
    match page.getLast? with
    | some (key, _) =>
      if page.length = forEachPage then page ++ forEachFrom view stop fuel key.next else page
    | none => page

/-- `for_each`: the entries of `[start, stop)` in the order in which they are visited. -/
def forEach (view : MemState) (start stop : Bytes) : List ScanEntry :=
  forEachFrom view stop ((view.rows .default start stop).length + 1) start

theorem forEachFrom_eq (view : MemState) (stop : Bytes) {fuel : ℕ} {start : Bytes}
    (h : (view.rows .default start stop).length < fuel) :
  forEachFrom view stop fuel start = view.rows .default start stop
  := by
  induction fuel generalizing start with
  | zero => omega
  | succ fuel ih =>
    rw [forEachFrom]
    cases hlast : (view.scan .default start stop forEachPage).getLast? with
    | none =>
      have hnil : (view.rows .default start stop).take forEachPage = [] :=
        List.getLast?_eq_none_iff.mp hlast
      rcases List.take_eq_nil_iff.mp hnil with hzero | hrows
      · nomatch hzero
      · simp [MemState.scan, hrows]
    | some last =>
      simp only
      split_ifs with hfull
      · -- the next page starts after the last key of this one
        have hdrop : view.rows .default last.1.next stop
            = (view.rows .default start stop).drop forEachPage :=
          Pages.range_next_eq_drop hlast
        have hlen : forEachPage ≤ (view.rows .default start stop).length := by
          rw [MemState.scan, List.length_take] at hfull
          omega
        rw [ih, hdrop, MemState.scan, List.take_append_drop]
        rw [hdrop, List.length_drop]
        rw [forEachPage] at hlen ⊢
        omega
      · rw [MemState.scan, List.length_take] at hfull
        apply List.take_of_length_le (by omega)

/-- Every entry is visited once, in the order of the keys. -/
theorem forEach_eq (view : MemState) (start stop : Bytes) :
  forEach view start stop = view.rows .default start stop
  := forEachFrom_eq view stop (Nat.lt_succ_self _)

end Kv9.Meta.Scope
