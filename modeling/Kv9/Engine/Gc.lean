import Kv9.Engine.Reads

/-!
# Garbage collection

`gcStep` is one bounded leg of garbage collection.  It computes the oldest version a live
view may read, walks the stored entries from where its cursor left off, and dooms, for
every key, the versions older than the newest one not above that version, and that newest
one too when it is a tombstone.  A leg ends at a key boundary, and doomed entries are
removed oldest first within a key.

`DoomedOk` says what makes a list of doomed entries safe to remove from the back, and
`GcInv` what a walk maintains while it builds that list; both refer to the history of
everything ever stored, so that they survive other removals.  A reader at the oldest live
version or above sees the same before and after every removal.
-/

namespace Kv9.Engine

open OrderedMap Versions List

/-- Where an incremental garbage collection stands between two legs. -/
structure GcCursor where
  cf : Fin 3
  resume : Option VersionedKey
  current : Option Bytes
  kept : Bool

/-- What one leg did. -/
structure GarbageReport where
  oldestLiveVersion : ℕ
  removed : ℕ
  scanned : ℕ
  cycleComplete : Bool

/-- The state of one walk over stored entries. -/
structure GcWalk where
  current : Option Bytes
  kept : Bool
  scanned : ℕ
  doomed : List VersionedKey
  resume : Option VersionedKey
  budgetSpent : Bool

/-- Meet an entry of `key`: a new key starts with no version kept. -/
def GcWalk.enter (w : GcWalk) (key : Bytes) : GcWalk :=
  if w.current = some key then w else { w with current := some key, kept := false }

/-- Decide about one entry of the current key. -/
def GcWalk.judge (w : GcWalk) (oldest : ℕ) (k : VersionedKey) (v : Slot) : GcWalk :=
  let w := { w with scanned := w.scanned + 1 }
  if (oldest : WithTop ℕ) < k.version then
    w
  else if w.kept then
    { w with doomed := w.doomed ++ [k] }
  else
    { w with kept := true, doomed := if v.isNone then w.doomed ++ [k] else w.doomed }

/-- Visit one stored entry.  A key boundary is the only place a leg may end. -/
def gcVisit (oldest scanBudget chunk : ℕ) (e : VersionedKey × Slot) (w : GcWalk) :
    ForInStep GcWalk :=
  if w.current ≠ some e.1.key ∧ (chunk ≤ w.doomed.length ∨ scanBudget ≤ w.scanned) then
    .done { w with
      budgetSpent := scanBudget ≤ w.scanned
      resume := some (.firstOf e.1.key) }
  else
    .yield ((w.enter e.1.key).judge oldest e.1 e.2)

/-- Where a walk starts. -/
def GcCursor.lower (cursor : GcCursor) : Bound VersionedKey :=
  match cursor.resume with
  | none => .unbounded
  | some first => .included first

/-- One walk over the current column family. -/
def gcWalk (t : Tree) (oldest scanBudget chunk : ℕ) (cursor : GcCursor) (scanned : ℕ) : GcWalk :=
  walk (gcVisit oldest scanBudget chunk) (range t cursor.lower .unbounded)
    ⟨cursor.current, cursor.kept, scanned, [], none, false⟩

/-- Remove the doomed entries, the last one first, and count those that were there. -/
def removeDoomed (t : Tree) (doomed : List VersionedKey) : Tree × ℕ :=
  doomed.foldr (fun k r => (r.1.erase k, if k ∈ r.1 then r.2 + 1 else r.2)) (t, 0)

/-- The walks of one leg.  Every walk but the last of a column family removes `chunk`
entries, so that one walk per stored entry and column family is enough. -/
def gcLoop (oldest scanBudget chunk : ℕ) :
    ℕ → Shared → GcCursor → GarbageReport → Shared × GcCursor × GarbageReport
  | 0, s, cursor, report => (s, cursor, report)
  | fuel + 1, s, cursor, report =>
    let cf := ColumnFamily.ofFin cursor.cf
    let w := gcWalk (s.trees cf) oldest scanBudget chunk cursor report.scanned
    let (t, removed) := removeDoomed (s.trees cf) w.doomed
    let s := s.treeMut cf fun _ => t
    let report := { report with scanned := w.scanned, removed := report.removed + removed }
    match w.resume with
    | some next =>
      let cursor := { cursor with resume := some next, current := w.current, kept := w.kept }
      if w.budgetSpent then (s, cursor, report)
      else gcLoop oldest scanBudget chunk fuel s cursor report
    | none =>
      if cursor.cf = 2 then
        (s, ⟨0, none, none, false⟩, { report with cycleComplete := true })
      else
        let cursor := ⟨cursor.cf + 1, none, none, false⟩
        if scanBudget ≤ report.scanned then (s, cursor, report)
        else gcLoop oldest scanBudget chunk fuel s cursor report

/-- One bounded leg of garbage collection, with room for `chunk` removals at a time. -/
def gcStepWith (chunk : ℕ) (s : Shared) (cursor : GcCursor) (scanBudget : ℕ) :
    Shared × GcCursor × GarbageReport :=
  let oldest := s.oldestLiveVersion
  let stored := ((s.trees .default).size + (s.trees .lock).size + (s.trees .write).size)
  gcLoop oldest (max scanBudget 1) chunk (stored + 3) s cursor ⟨oldest, 0, 0, false⟩

/-- The removals a walk makes before it starts over. -/
def gcChunk : ℕ := 4096

/-- One bounded leg of garbage collection. -/
def gcStep (s : Shared) (cursor : GcCursor) (scanBudget : ℕ) : Shared × GcCursor × GarbageReport :=
  gcStepWith gcChunk s cursor scanBudget

/-! ## Doomed entries -/

/-- `d` may be removed once the entries in `later` are gone: it is not above `oldest`, and
either the history holds a newer version of its key not above `oldest`, or it is a
tombstone and every older version of its key left in `t` is in `later`. -/
structure Dead (H : Versions Bytes ℕ Value) (t : Tree) (oldest : ℕ) (later : VersionedKey → Prop)
    (d : VersionedKey) (n : ℕ) : Prop where
  version : d.version = n
  le_oldest : n ≤ oldest
  dead : (∃ m s, n < m ∧ m ≤ oldest ∧ H d.key m = some s) ∨
    (H d.key n = some none ∧ ∀ m < n, Tree.versions t d.key m ≠ none → later (.new d.key m))

/-- A list of doomed entries in tree order that is safe to remove from the back. -/
structure DoomedOk (H : Versions Bytes ℕ Value) (t : Tree) (oldest : ℕ)
    (doomed : List VersionedKey) : Prop where
  ordered : doomed.Pairwise (· < ·)
  dead : ∀ d ∈ doomed, ∃ n, Dead H t oldest (· ∈ doomed) d n

variable {H H' : Versions Bytes ℕ Value} {t t' : Tree} {oldest : ℕ} {lo : Bound VersionedKey}
  {w : GcWalk} {d k : VersionedKey} {v : Slot} {s s' : Shared}

variable {later : VersionedKey → Prop} {scanBudget chunk : ℕ}

/-- What is dead stays dead when the history keeps what it holds up to `oldest`, and the
tree gains nothing up to `oldest`. -/
theorem Dead.mono {n : ℕ} (h : Dead H t oldest later d n)
    (hH : ∀ key m s, m ≤ oldest → H key m = some s → H' key m = some s)
    (ht : ∀ key m, m ≤ oldest → Tree.versions t' key m ≠ none → Tree.versions t key m ≠ none) :
  Dead H' t' oldest later d n
  where
  version := h.version
  le_oldest := h.le_oldest
  dead := by
    rcases h.dead with ⟨m, s, hlt, hle, hm⟩ | ⟨htomb, hold⟩
    · exact .inl ⟨m, s, hlt, hle, hH _ _ _ hle hm⟩
    · refine .inr ⟨hH _ _ _ h.le_oldest htomb, ?_⟩
      intro m hlt hstored
      exact hold m hlt (ht _ m (le_trans hlt.le h.le_oldest) hstored)

variable {doomed : List VersionedKey}

theorem DoomedOk.mono (h : DoomedOk H t oldest doomed)
    (hH : ∀ key m s, m ≤ oldest → H key m = some s → H' key m = some s)
    (ht : ∀ key m, m ≤ oldest → Tree.versions t' key m ≠ none → Tree.versions t key m ≠ none) :
  DoomedOk H' t' oldest doomed
  where
  ordered := h.ordered
  dead d hd := by
    obtain ⟨n, hn⟩ := h.dead d hd
    exact ⟨n, hn.mono hH ht⟩

/-- `t` keeps entries of `H` only, and a reader at any version from `oldest` on sees the
same in both. -/
def FaithfulFrom (H : Versions Bytes ℕ Value) (t : Tree) (v : ℕ) : Prop :=
  ∀ key, Faithful H (Tree.versions t) key v

/-- The last doomed entry can be removed: no reader at `oldest` or above sees a difference,
and the others stay safe to remove. -/
theorem DoomedOk.remove_last (h : DoomedOk H t oldest (doomed ++ [d])) :
  DoomedOk H (t.erase d) oldest doomed
    ∧ ∀ v, oldest ≤ v → FaithfulFrom H t v → FaithfulFrom H (t.erase d) v
  := by
  obtain ⟨hord, -, hlast⟩ := pairwise_append.mp h.ordered
  have hmem : ∀ e, e ∈ doomed ++ [d] → e ≠ d → e ∈ doomed := by
    intro e he hne
    rcases mem_append.mp he with he | he
    · exact he
    · exact absurd (mem_singleton.mp he) hne
  obtain ⟨n, hn⟩ := h.dead d (by simp)
  have hd : d = .new d.key n := VersionedKey.ext rfl hn.version
  have herase : Tree.versions (t.erase d) = (Tree.versions t).remove d.key n := by
    rw [hd, Tree.versions_erase]
    rfl
  constructor
  · constructor
    · exact hord
    · intro e he
      obtain ⟨m, hm⟩ := h.dead e (mem_append_left _ he)
      use m, hm.version, hm.le_oldest
      rcases hm.dead with hsup | ⟨htomb, hold⟩
      · exact .inl hsup
      · refine .inr ⟨htomb, ?_⟩
        intro m' hlt hstored
        rw [herase, remove] at hstored
        split_ifs at hstored with hc
        · exact absurd rfl hstored
        · apply hmem _ (hold m' hlt hstored)
          rintro rfl
          exact hc ⟨rfl, WithTop.coe_injective hn.version⟩
  · intro v hv hf key
    rw [herase]
    rcases hn.dead with ⟨m, s, hlt, hle, hm⟩ | ⟨htomb, hold⟩
    · exact (hf key).remove_superseded hm hlt (le_trans hle hv)
    · apply (hf key).remove_tombstone
      · intro s hs
        have := (hf d.key).kept n s hs
        rw [htomb] at this
        exact (Option.some.inj this).symm
      · -- an older version left would come after the last doomed entry
        intro m hlt
        by_contra hstored
        have hin := hold m hlt hstored
        have hgt : d < .new d.key m := by
          rw [hd]
          exact VersionedKey.lt_iff.mpr (.inr ⟨rfl, WithTop.coe_lt_coe.mpr hlt⟩)
        rcases mem_append.mp hin with hin | hin
        · exact lt_asymm hgt (hlast _ hin d (mem_singleton_self d))
        · rw [mem_singleton.mp hin] at hgt
          exact lt_irrefl _ hgt

/-- Removing all doomed entries changes nothing for a reader at `oldest` or above. -/
theorem DoomedOk.removeDoomed {v : ℕ}
    (h : DoomedOk H t oldest doomed) (hv : oldest ≤ v) (hf : FaithfulFrom H t v) :
  FaithfulFrom H (removeDoomed t doomed).1 v
  := by
  induction doomed using List.reverseRecOn generalizing t with
  | nil => exact hf
  | append_singleton doomed d ih =>
    obtain ⟨hrest, hkeep⟩ := h.remove_last
    have hfold : ∀ (r : Tree × ℕ) (ds : List VersionedKey),
        (ds.foldr (fun k r => (r.1.erase k, if k ∈ r.1 then r.2 + 1 else r.2)) r).1
          = (Engine.removeDoomed r.1 ds).1 := by
      intro r ds
      rw [Engine.removeDoomed]
      induction ds with
      | nil => rfl
      | cons k ds ih => simp only [foldr_cons, ih]
    rw [Engine.removeDoomed, foldr_append, hfold]
    exact ih hrest (hkeep v hv hf)

/-! ## Walks -/

/-- What a walk maintains: `lo` bounds the entries it has not visited yet. -/
structure GcInv (H : Versions Bytes ℕ Value) (t : Tree) (oldest : ℕ) (lo : Bound VersionedKey)
    (w : GcWalk) : Prop where
  ordered : w.doomed.Pairwise (· < ·)
  visited : ∀ d ∈ w.doomed, lo.below d = false
  entered : ∀ d ∈ w.doomed, ∃ c, w.current = some c ∧ d.key ≤ c ∧ (d.key = c → w.kept = true)
  dead : ∀ d ∈ w.doomed, ∃ n,
    Dead H t oldest (fun e => e ∈ w.doomed ∨ lo.below e = true) d n
  current : ∀ c, w.current = some c → ∀ e, lo.below e = true → c ≤ e.key
  kept : w.kept = true → ∀ e, lo.below e = true → w.current = some e.key →
    ∃ m s, m ≤ oldest ∧ H e.key m = some s ∧ e.version < m

theorem GcWalk.current_enter (w : GcWalk) (key : Bytes) :
  (w.enter key).current = some key
  := by
  rw [enter]
  split_ifs with h
  · exact h
  · rfl

@[simp]
theorem GcWalk.doomed_enter (w : GcWalk) (key : Bytes) :
  (w.enter key).doomed = w.doomed
  := by
  rw [enter]
  split_ifs
  · rfl
  · rfl

/-- A version is kept of the key entered only if it was the current one already. -/
theorem GcWalk.kept_enter {key : Bytes} :
  (w.enter key).kept = true ↔ w.current = some key ∧ w.kept = true
  := by
  rw [enter]
  split_ifs with h
  · simp [h]
  · simp [h]

theorem GcWalk.current_judge (w : GcWalk) (oldest : ℕ) (k : VersionedKey) (v : Slot) :
  (w.judge oldest k v).current = w.current
  := by
  rw [judge]
  split_ifs <;> rfl

theorem GcWalk.resume_enter (w : GcWalk) (key : Bytes) :
  (w.enter key).resume = w.resume
  := by
  rw [enter]
  split_ifs <;> rfl

theorem GcWalk.resume_judge (w : GcWalk) (oldest : ℕ) (k : VersionedKey) (v : Slot) :
  (w.judge oldest k v).resume = w.resume
  := by
  rw [judge]
  split_ifs <;> rfl

/-- A version of the current key is kept once one not above `oldest` is met. -/
theorem GcWalk.kept_judge :
  (w.judge oldest k v).kept = true ↔ w.kept = true ∨ k.version ≤ oldest
  := by
  rw [← not_lt, judge]
  by_cases hnew : (oldest : WithTop ℕ) < k.version
  · simp [hnew]
  · cases hkept : w.kept <;> simp [hnew]

/-- An entry not above `oldest` is doomed when a newer one is kept or it is a tombstone. -/
theorem GcWalk.doomed_judge (w : GcWalk) (oldest : ℕ) (k : VersionedKey) (v : Slot) :
  (w.judge oldest k v).doomed
    = w.doomed ++ if k.version ≤ oldest ∧ (w.kept = true ∨ v = none) then [k] else []
  := by
  rw [judge]
  by_cases hnew : (oldest : WithTop ℕ) < k.version
  · simp [hnew, not_le_of_gt]
  · have hle := not_lt.mp hnew
    cases hkept : w.kept with
    | true => simp [hnew, hle]
    | false =>
      cases v with
      | none => simp [hnew, hle]
      | some x => simp [hnew]

theorem GcWalk.mem_doomed_judge :
  d ∈ (w.judge oldest k v).doomed
    ↔ d ∈ w.doomed ∨ (d = k ∧ k.version ≤ oldest ∧ (w.kept = true ∨ v = none))
  := by
  rw [doomed_judge, mem_append]
  split_ifs with h
  · rw [mem_singleton, and_iff_left h]
  · simp [h]

/-- A version not above `oldest` is a number. -/
theorem VersionedKey.version_of_le (h : k.version ≤ oldest) :
  ∃ n : ℕ, k.version = n ∧ n ≤ oldest
  := by
  obtain ⟨n, hn⟩ := WithTop.ne_top_iff_exists.mp (ne_top_of_le_ne_top WithTop.coe_ne_top h)
  rw [← hn] at h
  exact ⟨n, hn.symm, WithTop.coe_le_coe.mp h⟩

namespace GcInv

section

variable (h : GcInv H t oldest lo w)
include h

theorem mono (hH : ∀ key m s, m ≤ oldest → H key m = some s → H' key m = some s)
    (ht : ∀ key m, m ≤ oldest → Tree.versions t' key m ≠ none → Tree.versions t key m ≠ none) :
  GcInv H' t' oldest lo w
  where
  ordered := h.ordered
  visited := h.visited
  entered := h.entered
  dead d hd := by
    obtain ⟨n, hn⟩ := h.dead d hd
    exact ⟨n, hn.mono hH ht⟩
  current := h.current
  kept hk e he hc := by
    obtain ⟨m, s, hle, hs, hlt⟩ := h.kept hk e he hc
    use m, s, hle, hH _ _ _ hle hs, hlt

/-- A doomed entry of the key of an entry ahead was judged with that key current. -/
theorem kept_of_mem (hlo : lo.below k = true) (hd : d ∈ w.doomed) (hkey : d.key = k.key) :
  (w.enter k.key).kept = true
  := by
  obtain ⟨c, hc, hle, hkept⟩ := h.entered d hd
  obtain rfl : c = k.key := le_antisymm (h.current c hc k hlo) (hkey ▸ hle)
  rw [GcWalk.kept_enter]
  use hc, hkept hkey

/-- When a version of the key of `k` is kept, the history holds one newer than `k` and
than everything of that key after `k`. -/
theorem superseded (hlo : lo.below k = true)
    (hkept : (w.enter k.key).kept = true) {e : VersionedKey} (he : k ≤ e) (hkey : e.key = k.key) :
  ∃ m s, m ≤ oldest ∧ H e.key m = some s ∧ e.version < m
  := by
  obtain ⟨hc, hk⟩ := GcWalk.kept_enter.mp hkept
  apply h.kept hk e (Bound.below_mono hlo he)
  rw [hkey]
  exact hc

/-- The entry visited is safe to remove once what comes after it is. -/
theorem dead_visited (hlo : lo.below k = true) (hH : ∀ n : ℕ, k.version = n → H k.key n = some v)
    (hle : k.version ≤ oldest) (hcase : (w.enter k.key).kept = true ∨ v = none) (hlater : ∀ e, k < e → later e) :
  ∃ n, Dead H t oldest later k n
  := by
  obtain ⟨n, hn, hno⟩ := VersionedKey.version_of_le hle
  use n, hn, hno
  rcases hcase with hkept | rfl
  · obtain ⟨m, s, hm, hs, hlt⟩ := h.superseded hlo hkept le_rfl rfl
    rw [hn] at hlt
    exact .inl ⟨m, s, WithTop.coe_lt_coe.mp hlt, hm, hs⟩
  · refine .inr ⟨hH n hn, ?_⟩
    intro m hlt _
    apply hlater
    apply VersionedKey.lt_iff.mpr
    rw [hn]
    exact .inr ⟨rfl, WithTop.coe_lt_coe.mpr hlt⟩

/-- An entry doomed before stays safe to remove: if `k` is an older version of its key,
`k` is doomed too. -/
theorem dead_before (hlo : lo.below k = true)
    (hleast : ∀ key n, Tree.versions t key n ≠ none → lo.below (.new key n) = true →
      k ≤ .new key n) (hd : d ∈ w.doomed) :
  ∃ n, Dead H t oldest
    (fun e => e ∈ ((w.enter k.key).judge oldest k v).doomed ∨ (Bound.excluded k).below e = true) d n
  := by
  obtain ⟨n, hn⟩ := h.dead d hd
  use n, hn.version, hn.le_oldest
  rcases hn.dead with hsup | ⟨htomb, hold⟩
  · exact .inl hsup
  · refine .inr ⟨htomb, ?_⟩
    intro m hlt hstored
    rw [GcWalk.mem_doomed_judge, GcWalk.doomed_enter, Bound.below_excluded]
    rcases hold m hlt hstored with hin | hahead
    · exact .inl (.inl hin)
    · rcases (hleast _ m hstored hahead).eq_or_lt with heq | hgt
      · left
        right
        refine ⟨heq.symm, ?_, .inl (h.kept_of_mem hlo hd (by rw [heq]; rfl))⟩
        rw [heq]
        exact WithTop.coe_le_coe.mpr (le_trans hlt.le hn.le_oldest)
      · exact .inr hgt

/-- Visiting the least entry ahead maintains the invariant. -/
theorem visit (hlo : lo.below k = true)
    (hleast : ∀ key n, Tree.versions t key n ≠ none → lo.below (.new key n) = true → k ≤ .new key n)
    (hH : ∀ n : ℕ, k.version = n → H k.key n = some v) :
  GcInv H t oldest (.excluded k) ((w.enter k.key).judge oldest k v)
  := by
  have hbehind : ∀ d ∈ w.doomed, d < k := fun d hd => Bound.lt_of_below (h.visited d hd) hlo
  have hcur : ((w.enter k.key).judge oldest k v).current = some k.key := by
    rw [GcWalk.current_judge, GcWalk.current_enter]
  constructor
  · rw [GcWalk.doomed_judge, GcWalk.doomed_enter]
    apply pairwise_append.mpr
    refine ⟨h.ordered, ?_, ?_⟩
    · split_ifs
      · apply pairwise_singleton
      · exact List.Pairwise.nil
    · intro d hd e he
      split_ifs at he
      · rw [mem_singleton.mp he]
        exact hbehind d hd
      · cases he
  · intro d hd
    rw [GcWalk.mem_doomed_judge, GcWalk.doomed_enter] at hd
    rw [← Bool.not_eq_true, Bound.below_excluded, not_lt]
    rcases hd with hd | ⟨rfl, -⟩
    · exact (hbehind d hd).le
    · exact le_rfl
  · intro d hd
    rw [GcWalk.mem_doomed_judge, GcWalk.doomed_enter] at hd
    rw [GcWalk.kept_judge]
    rcases hd with hd | ⟨rfl, hle, -⟩
    · exact ⟨k.key, hcur, VersionedKey.key_le_of_le (hbehind d hd).le,
        fun hkey => .inl (h.kept_of_mem hlo hd hkey)⟩
    · use d.key, hcur, le_rfl, fun _ => .inr hle
  · intro d hd
    rcases GcWalk.mem_doomed_judge.mp hd with hd | ⟨rfl, hle, hcase⟩
    · rw [GcWalk.doomed_enter] at hd
      exact h.dead_before hlo hleast hd
    · apply h.dead_visited hlo hH hle hcase
      intro e he
      right
      rw [Bound.below_excluded]
      exact he
  · intro c hc e he
    rw [hcur] at hc
    rw [Bound.below_excluded] at he
    rw [← Option.some.inj hc]
    exact VersionedKey.key_le_of_le he.le
  · intro hkept e he hkey
    rw [hcur, Option.some.injEq] at hkey
    rw [Bound.below_excluded] at he
    rcases GcWalk.kept_judge.mp hkept with hkept | hle
    · exact h.superseded hlo hkept he.le hkey.symm
    · obtain ⟨n, hn, hno⟩ := VersionedKey.version_of_le hle
      use n, v, hno, hkey ▸ hH n hn
      rcases VersionedKey.lt_iff.mp he with hlt | ⟨-, hlt⟩
      · exact absurd hkey hlt.ne
      · rw [← hn]
        exact hlt

/-- A walk that has no version of a doomed entry's key ahead of it leaves a list that is
safe to remove. -/
theorem doomedOk
    (hend : ∀ d ∈ w.doomed, ∀ m, Tree.versions t d.key m ≠ none → lo.below (.new d.key m) = false) :
  DoomedOk H t oldest w.doomed
  where
  ordered := h.ordered
  dead d hd := by
    obtain ⟨n, hn⟩ := h.dead d hd
    use n, hn.version, hn.le_oldest
    rcases hn.dead with hsup | ⟨htomb, hold⟩
    · exact .inl hsup
    · refine .inr ⟨htomb, ?_⟩
      intro m hlt hstored
      rcases hold m hlt hstored with hin | hahead
      · exact hin
      · rw [hend d hd m hstored] at hahead
        cases hahead

/-- At a key boundary the walk can end: the current key is behind it. -/
theorem doomedOk_of_boundary (hlo : lo.below k = true)
    (hleast : ∀ key n, Tree.versions t key n ≠ none → lo.below (.new key n) = true → k ≤ .new key n)
    (hne : w.current ≠ some k.key) :
  DoomedOk H t oldest w.doomed
  := by
  apply h.doomedOk
  intro d hd m hstored
  rw [← Bool.not_eq_true]
  intro hahead
  obtain ⟨c, hc, hle, -⟩ := h.entered d hd
  have hkey : k.key ≤ d.key :=
    VersionedKey.key_le_of_le (b := .new d.key m) (hleast _ m hstored hahead)
  apply hne
  rw [hc, le_antisymm (h.current c hc k hlo) (le_trans hkey hle)]

end

end GcInv

/-- A cursor stands at the start of a column family, or at the first entry of a key above
the one it stopped in. -/
def GcCursor.Valid (cursor : GcCursor) : Prop :=
  match cursor.resume with
  | none => cursor.current = none
  | some first => ∃ key, first = .firstOf key ∧ ∀ c, cursor.current = some c → c < key

variable {cursor : GcCursor}

/-- A walk from a valid cursor starts with nothing doomed and its current key behind it. -/
theorem GcCursor.Valid.inv (h : cursor.Valid) (H : Versions Bytes ℕ Value) (t : Tree)
    (oldest scanned : ℕ) :
  GcInv H t oldest cursor.lower ⟨cursor.current, cursor.kept, scanned, [], none, false⟩
  := by
  have hcur : ∀ c, cursor.current = some c → ∀ e, cursor.lower.below e = true → c < e.key := by
    intro c hc e he
    rw [Valid] at h
    rw [lower] at he
    cases hr : cursor.resume with
    | none =>
      simp only [hr] at h
      rw [h] at hc
      cases hc
    | some first =>
      simp only [hr] at h he
      obtain ⟨key, rfl, hlt⟩ := h
      rw [Bound.below_included, VersionedKey.firstOf_le_iff] at he
      exact lt_of_lt_of_le (hlt c hc) he
  constructor
  · exact List.Pairwise.nil
  · nofun
  · nofun
  · nofun
  · intro c hc e he
    exact (hcur c hc e he).le
  · intro _ e he hc
    exact absurd (hcur e.key hc e he) (lt_irrefl _)

/-- A walk that stops before the last entry resumes at a key above the one it stopped in. -/
def GcWalk.ResumesAbove (w : GcWalk) : Prop :=
  ∀ next, w.resume = some next → ∃ key, next = .firstOf key ∧ ∀ c, w.current = some c → c < key

namespace GcInv


/-- A visit of the least entry ahead maintains the invariant, or ends the walk with a list
that is safe to remove. -/
theorem gcVisit (h : GcInv H t oldest lo w)
    (hH : ∀ key n s, Tree.versions t key n = some s → H key n = some s)
    (hresume : w.resume = none) (scanBudget chunk : ℕ) {e : VersionedKey × Slot}
    {es : List (VersionedKey × Slot)} (hes : range t lo .unbounded = e :: es) :
  match gcVisit oldest scanBudget chunk e w with
  | .yield w' => GcInv H t oldest (.excluded e.1) w' ∧ w'.resume = none
  | .done w' => DoomedOk H t oldest w'.doomed ∧ w'.ResumesAbove
  := by
  obtain ⟨hm, hlo, hleast, -⟩ := range_eq_cons hes
  have hleast' : ∀ key n, Tree.versions t key n ≠ none → lo.below (.new key n) = true →
      e.1 ≤ .new key n := by
    intro key n hstored hahead
    obtain ⟨s, hs⟩ := Option.ne_none_iff_exists'.mp hstored
    exact hleast _ s hs hahead
  by_cases hstop : w.current ≠ some e.1.key ∧ (chunk ≤ w.doomed.length ∨ scanBudget ≤ w.scanned)
  · -- a key boundary, with the budget spent
    rw [Engine.gcVisit, if_pos hstop]
    use h.doomedOk_of_boundary hlo hleast' hstop.1
    intro next hnext
    use e.1.key, (Option.some.inj hnext).symm
    intro c hc
    apply lt_of_le_of_ne (h.current c hc e.1 hlo)
    rintro rfl
    exact hstop.1 hc
  · rw [Engine.gcVisit, if_neg hstop]
    refine ⟨h.visit hlo hleast' ?_, ?_⟩
    · intro n hn
      apply hH
      rw [← hm]
      exact congrArg (t[·]?) (VersionedKey.ext rfl hn.symm)
    · rw [GcWalk.resume_judge, GcWalk.resume_enter, hresume]

/-- With nothing ahead, the list is safe to remove. -/
theorem doomedOk_of_end (h : GcInv H t oldest lo w) (hend : range t lo .unbounded = []) :
  DoomedOk H t oldest w.doomed
  := by
  apply h.doomedOk
  intro d _ m hstored
  rw [← Bool.not_eq_true]
  intro hahead
  obtain ⟨s, hs⟩ := Option.ne_none_iff_exists'.mp hstored
  have hin : (.new d.key m, s) ∈ range t lo .unbounded := mem_range.mpr ⟨hs, hahead, rfl⟩
  rw [hend] at hin
  cases hin

end GcInv

/-- A walk leaves a list that is safe to remove and, if it ends before the last entry,
a key to resume at above the one it stopped in. -/
theorem walk_gcVisit (h : GcInv H t oldest lo w)
    (hH : ∀ key n s, Tree.versions t key n = some s → H key n = some s) (hresume : w.resume = none)
    {w' : GcWalk} (hw' : walk (gcVisit oldest scanBudget chunk) (range t lo .unbounded) w = w') :
  DoomedOk H t oldest w'.doomed ∧ w'.ResumesAbove
  := by
  generalize hes : range t lo .unbounded = es at hw'
  induction es generalizing lo w with
  | nil =>
    rw [walk] at hw'
    subst hw'
    use h.doomedOk_of_end hes
    intro next hnext
    rw [hresume] at hnext
    cases hnext
  | cons e es ih =>
    have hvisit := h.gcVisit hH hresume scanBudget chunk hes
    rw [walk] at hw'
    cases hstep : gcVisit oldest scanBudget chunk e w with
    | done w'' =>
      rw [hstep] at hw' hvisit
      exact hw' ▸ hvisit
    | yield w'' =>
      rw [hstep] at hw' hvisit
      exact ih hvisit.1 hvisit.2 (range_eq_cons hes).2.2.2.symm hw'

/-! ## Legs -/

/-- What a leg changes: it only removes entries, and no reader at `oldest` or above sees a
difference. -/
structure Thins (oldest : ℕ) (s s' : Shared) : Prop where
  frame : s' = { s with trees := s'.trees }
  stored : ∀ cf (k : VersionedKey) x, (s'.trees cf)[k]? = some x → (s.trees cf)[k]? = some x
  faithful : ∀ cf v, oldest ≤ v → FaithfulFrom (Tree.versions (s.trees cf)) (s'.trees cf) v

theorem Thins.refl (oldest : ℕ) (s : Shared) :
  Thins oldest s s
  where
  frame := rfl
  stored _ _ _ h := h
  faithful _ _ _ _ := Faithful.refl ..

theorem getElem?_removeDoomed {x : Slot} (h : (removeDoomed t doomed).1[k]? = some x) :
  t[k]? = some x
  := by
  rw [removeDoomed] at h
  induction doomed with
  | nil => exact h
  | cons d doomed ih =>
    rw [foldr_cons, OrderedMap.getElem?_erase] at h
    split_ifs at h
    exact ih h

/-- Removing what a walk doomed in one column family thins the trees. -/
theorem Thins.removeDoomed (h : Thins oldest s s') {cf : ColumnFamily}
    (hd : DoomedOk (Tree.versions (s.trees cf)) (s'.trees cf) oldest doomed) :
  Thins oldest s (s'.treeMut cf fun _ => (removeDoomed (s'.trees cf) doomed).1)
  where
  frame := by
    rw [h.frame]
    rfl
  stored cf' k x hx := by
    by_cases hcf : cf' = cf
    · subst hcf
      rw [Shared.trees_treeMut_self] at hx
      exact h.stored _ k x (getElem?_removeDoomed hx)
    · rw [Shared.trees_treeMut_of_ne _ _ hcf] at hx
      exact h.stored _ k x hx
  faithful cf' v hv := by
    by_cases hcf : cf' = cf
    · subst hcf
      rw [Shared.trees_treeMut_self]
      exact hd.removeDoomed hv (h.faithful _ v hv)
    · rw [Shared.trees_treeMut_of_ne _ _ hcf]
      exact h.faithful _ v hv

/-- What one walk of a leg dooms is safe to remove, and where it stops is valid. -/
theorem Thins.gcWalk (h : Thins oldest s s') (hc : cursor.Valid)
    (cf : ColumnFamily) (scanBudget chunk scanned : ℕ) :
  DoomedOk (Tree.versions (s.trees cf)) (s'.trees cf) oldest
      (gcWalk (s'.trees cf) oldest scanBudget chunk cursor scanned).doomed
    ∧ (gcWalk (s'.trees cf) oldest scanBudget chunk cursor scanned).ResumesAbove
  := walk_gcVisit (hc.inv ..) (fun _ _ x hx => h.stored cf _ x hx) rfl rfl

/-- The walks of a leg thin the trees and leave a valid cursor. -/
theorem gcLoop_thins {fuel : ℕ} {report : GarbageReport}
    (h : Thins oldest s s') (hc : cursor.Valid) :
  Thins oldest s (gcLoop oldest scanBudget chunk fuel s' cursor report).1
    ∧ (gcLoop oldest scanBudget chunk fuel s' cursor report).2.1.Valid
  := by
  induction fuel generalizing s' cursor report with
  | zero => exact ⟨h, hc⟩
  | succ fuel ih =>
    obtain ⟨hdoomed, hresume⟩ :=
      h.gcWalk hc (.ofFin cursor.cf) scanBudget chunk report.scanned
    rw [gcLoop]
    generalize gcWalk (s'.trees (.ofFin cursor.cf)) oldest scanBudget chunk cursor
      report.scanned = w at hdoomed hresume
    have hthin := h.removeDoomed hdoomed
    cases hnext : w.resume with
    | some next =>
      have hvalid : GcCursor.Valid ⟨cursor.cf, some next, w.current, w.kept⟩ :=
        hresume next hnext
      simp only
      split_ifs
      · exact ⟨hthin, hvalid⟩
      · exact ih hthin hvalid
    | none =>
      simp only
      by_cases hlast : cursor.cf = 2
      · rw [if_pos hlast]
        exact ⟨hthin, rfl⟩
      · rw [if_neg hlast]
        split_ifs
        · exact ⟨hthin, rfl⟩
        · exact ih hthin rfl

/-- One leg of garbage collection removes nothing a reader at the oldest live version or
above sees, and leaves a valid cursor. -/
theorem gcStepWith_thins (chunk : ℕ) (s : Shared) (hc : cursor.Valid) (scanBudget : ℕ) :
  Thins s.oldestLiveVersion s (gcStepWith chunk s cursor scanBudget).1
    ∧ (gcStepWith chunk s cursor scanBudget).2.1.Valid
  := gcLoop_thins (Thins.refl ..) hc

end Kv9.Engine
