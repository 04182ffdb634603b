import Kv9.Engine.Versioned
import Kv9.Lib.MultiVersion

/-!
# Reading through a view

What a view reads, in terms of the multi-version store its tree represents.  A point
read returns what a reader at the view's version sees.  For a map `m` that holds at
every key what such a reader sees there, a forward page is a prefix of the range of
`m`, a backward page a prefix of the reversed range, and the pages of an iterator
together are the whole range.
-/

namespace Kv9.Engine

open OrderedMap Versions
open List hiding isEmpty_iff mem_range range

variable {key : Bytes} {k : VersionedKey} {version : ℕ}

namespace VersionedKey

variable {a b : VersionedKey}

theorem lt_iff :
  a < b ↔ a.key < b.key ∨ (a.key = b.key ∧ b.version < a.version)
  := by
  have h : a < b ↔ a.toLexPair < b.toLexPair := Iff.rfl
  rw [h, toLexPair, toLexPair, Prod.Lex.toLex_lt_toLex]
  rfl

theorem le_iff :
  a ≤ b ↔ a.key < b.key ∨ (a.key = b.key ∧ b.version ≤ a.version)
  := by
  have h : a ≤ b ↔ a.toLexPair ≤ b.toLexPair := Iff.rfl
  rw [h, toLexPair, toLexPair, Prod.Lex.toLex_le_toLex]
  rfl

theorem key_le_of_le (h : a ≤ b) :
  a.key ≤ b.key
  := by
  rcases le_iff.mp h with hlt | ⟨heq, -⟩
  · exact hlt.le
  · exact heq.le

theorem firstOf_le_iff :
  firstOf key ≤ k ↔ key ≤ k.key
  := by
  rw [le_iff, firstOf, le_iff_lt_or_eq (a := key)]
  simp

theorem lt_firstOf_iff :
  k < firstOf key ↔ k.key < key
  := by
  rw [lt_iff, firstOf]
  simp

theorem afterKey_le_iff :
  afterKey key ≤ k ↔ key < k.key
  := by
  rw [afterKey, firstOf_le_iff, Bytes.next_le_iff]

theorem newestVisible_le_iff :
  newestVisible key version ≤ k ↔ key < k.key ∨ (key = k.key ∧ k.version ≤ version)
  := le_iff

end VersionedKey

/-- The multi-version store a tree represents. -/
def Tree.versions (t : Tree) : Versions Bytes ℕ Value :=
  fun key n => t[VersionedKey.new key n]?

theorem Tree.versions_insert (t : Tree) (key : Bytes) (n : ℕ) (s : Slot) :
  Tree.versions (t.insert (.new key n) s) = (Tree.versions t).put key n s
  := by
  funext key' n'
  rw [versions, OrderedMap.getElem?_insert]
  congr 1
  simp [VersionedKey.new, eq_comm]

theorem Tree.versions_erase (t : Tree) (key : Bytes) (n : ℕ) :
  Tree.versions (t.erase (.new key n)) = (Tree.versions t).remove key n
  := by
  funext key' n'
  rw [versions, OrderedMap.getElem?_erase]
  congr 1
  simp [VersionedKey.new, eq_comm]

/-- The tree after a mutation is stored at `version`. -/
theorem versions_treeMut (s : Shared) (m : Mutation) (version : ℕ) (cf : ColumnFamily) :
  Tree.versions ((s.treeMut m.cf fun t => t.insert (.new m.key version) m.slot).trees cf)
    = if cf = m.cf then (Tree.versions (s.trees cf)).put m.key version m.slot
      else Tree.versions (s.trees cf)
  := by
  split_ifs with hcf
  · subst hcf
    rw [Shared.trees_treeMut_self, Tree.versions_insert]
  · rw [Shared.trees_treeMut_of_ne _ _ hcf]

variable {t : Tree}

variable {s : Slot} {e : VersionedKey × Slot} {w : PageWalk} {fuel n : ℕ} {out : List ScanEntry}
  {start : Bytes} {p : Pages}

/-- An entry of `key` not above `version` is at some stored version. -/
theorem Tree.versions_of_le (h : t[k]? = some s) (hv : k.version ≤ version) :
  ∃ n : ℕ, k.version = n ∧ n ≤ version ∧ Tree.versions t k.key n = some s
  := by
  obtain ⟨key, n⟩ := k
  cases n with
  | top => simp at hv
  | coe n =>
    use n, rfl, WithTop.coe_le_coe.mp hv
    exact h

variable {m : OrderedMap Bytes Value}

namespace View

/-! ## Point reads -/

/-- The probe finds the newest version not above the view's. -/
theorem newestSlot_eq_some_iff :
  newestSlot t version key = some s ↔ ∃ n, Newest (Tree.versions t) key version n s
  := by
  have hmem : ∀ k s, (k, s) ∈ range t (.included (.newestVisible key version)) .unbounded
      ↔ t[k]? = some s ∧ (key < k.key ∨ (key = k.key ∧ k.version ≤ version)) := by
    simp [VersionedKey.newestVisible_le_iff]
  have hasc := ascending_range t (.included (.newestVisible key version)) .unbounded
  rw [newestSlot]
  cases hr : range t (.included (.newestVisible key version)) .unbounded with
  | nil =>
    simp only [reduceCtorEq, false_iff, not_exists]
    rintro n ⟨hle, hs, -⟩
    have := (hmem (.new key n) s).mpr ⟨hs, .inr ⟨rfl, WithTop.coe_le_coe.mpr hle⟩⟩
    rw [hr] at this
    cases this
  | cons e es =>
    obtain ⟨k, s'⟩ := e
    rw [hr] at hasc
    obtain ⟨hk, hbound⟩ := (hmem k s').mp (by rw [hr]; exact mem_cons_self ..)
    simp only
    -- every entry of `key` not above the version comes at or after the head
    have hafter : ∀ n s'', n ≤ version → Tree.versions t key n = some s'' →
        k ≤ .new key n := by
      intro n s'' hle hs''
      have hin := (hmem (.new key n) s'').mpr ⟨hs'', .inr ⟨rfl, WithTop.coe_le_coe.mpr hle⟩⟩
      rw [hr] at hin
      rcases mem_cons.mp hin with heq | hin
      · rw [(Prod.mk.inj heq).1]
      · exact (hasc.lt_of_mem hin).le
    by_cases hkey : k.key = key
    · rw [if_pos hkey]
      have hv : k.version ≤ version := by
        rcases hbound with hlt | ⟨-, hv⟩
        · exact absurd hkey hlt.ne'
        · exact hv
      obtain ⟨n, hn, hle, hs⟩ := Tree.versions_of_le hk hv
      rw [hkey] at hs
      have hnew : Newest (Tree.versions t) key version n s' := by
        refine ⟨hle, hs, ?_⟩
        intro n' hlt hle'
        cases hs'' : Tree.versions t key n' with
        | none => rfl
        | some s'' =>
          rcases VersionedKey.le_iff.mp (hafter n' s'' hle' hs'') with hlt' | ⟨-, hv'⟩
          · exact absurd hkey hlt'.ne
          · rw [hn] at hv'
            exact absurd (WithTop.coe_le_coe.mp hv') (not_le_of_gt hlt)
      constructor
      · intro h
        rw [← Option.some.inj h]
        exact ⟨n, hnew⟩
      · rintro ⟨n', hnew'⟩
        rw [(hnew.unique hnew').2]
    · rw [if_neg hkey]
      simp only [reduceCtorEq, false_iff, not_exists]
      rintro n ⟨hle, hs, -⟩
      have hlt : key < k.key := by
        rcases hbound with hlt | ⟨heq, -⟩
        · exact hlt
        · exact absurd heq.symm hkey
      exact absurd (VersionedKey.key_le_of_le (hafter n s hle hs)) (not_le_of_gt hlt)

/-- A point read returns what a reader at the view's version sees. -/
theorem sees_newestSlot (t : Tree) (version : ℕ) (key : Bytes) :
  Sees (Tree.versions t) key version (newestSlot t version key).join
  := by
  cases h : newestSlot t version key with
  | some s =>
    left
    exact newestSlot_eq_some_iff.mp h
  | none =>
    refine .inr ⟨rfl, ?_⟩
    -- were there a version not above the view's, there would be a newest one
    by_contra hsome
    push Not at hsome
    obtain ⟨n, hle, hn⟩ := hsome
    let m := Nat.findGreatest (fun n => Tree.versions t key n ≠ none) version
    have hm : Tree.versions t key m ≠ none :=
      Nat.findGreatest_spec (P := fun n => Tree.versions t key n ≠ none) hle hn
    obtain ⟨s, hs⟩ := Option.ne_none_iff_exists'.mp hm
    have hnew : Newest (Tree.versions t) key version m s := by
      use Nat.findGreatest_le _, hs
      intro n' hlt hle'
      by_contra hn'
      exact absurd (Nat.le_findGreatest hle' hn') (not_le_of_gt hlt)
    rw [newestSlot_eq_some_iff.mpr ⟨m, hnew⟩] at h
    cases h

/-! ## Forward pages -/

/-- The rows a reader at `version` collapses a list of stored entries to.  `d` is the key
whose newest visible version has been passed already. -/
def live (version : ℕ) : Option Bytes → List (VersionedKey × Slot) → List ScanEntry
  | _, [] => []
  | d, (k, v) :: es =>
    if d = some k.key then
      live version d es
    else if (version : WithTop ℕ) < k.version then
      live version d es
    else
      match v with
      | none => live version (some k.key) es
      | some value => (k.key, value) :: live version (some k.key) es

/-- `d` is not above the key of any of the entries. -/
def NotAbove (d : Option Bytes) (es : List (VersionedKey × Slot)) : Prop :=
  ∀ c, d = some c → ∀ e ∈ es, c ≤ e.1.key

variable {d : Option Bytes} {es : List (VersionedKey × Slot)}

theorem NotAbove.tail (h : NotAbove d (e :: es)) :
  NotAbove d es
  := fun c hc e' he' => h c hc e' (mem_cons_of_mem e he')

variable {v : Slot}

theorem notAbove_head (h : Ascending ((k, v) :: es)) :
  NotAbove (some k.key) es
  := by
  rintro c ⟨⟩ e he
  apply VersionedKey.key_le_of_le (h.lt_of_mem he).le

/-- A passed key that is not among the entries does not matter. -/
theorem live_of_ne (h : ∀ e ∈ es, d ≠ some e.1.key) :
  live version d es = live version none es
  := by
  induction es with
  | nil => rfl
  | cons e es ih =>
    obtain ⟨k, v⟩ := e
    have hk : d ≠ some k.key := h _ (mem_cons_self ..)
    have htail := ih fun e he => h e (mem_cons_of_mem _ he)
    simp [live, if_neg hk, htail]

/-- Among the entries, `x` is the value of the newest version of `key` not above
`version`. -/
def NewestIn (es : List (VersionedKey × Slot)) (version : ℕ) (key : Bytes) (x : Value) : Prop :=
  ∃ n : WithTop ℕ, n ≤ version ∧ (⟨key, n⟩, some x) ∈ es ∧
    ∀ (m : WithTop ℕ) s, (⟨key, m⟩, s) ∈ es → m ≤ version → m ≤ n

variable {x : Value}

/-- `NewestIn` depends only on the entries of the key not above the version. -/
theorem newestIn_congr {fs : List (VersionedKey × Slot)}
    (h : ∀ (m : WithTop ℕ) s, m ≤ version → ((⟨key, m⟩, s) ∈ es ↔ (⟨key, m⟩, s) ∈ fs)) :
  NewestIn es version key x ↔ NewestIn fs version key x
  := by
  constructor
  · rintro ⟨n, hn, hx, hmax⟩
    use n, hn, (h n _ hn).mp hx
    intro m s hm hle
    apply hmax m s ((h m s hle).mpr hm) hle
  · rintro ⟨n, hn, hx, hmax⟩
    use n, hn, (h n _ hn).mpr hx
    intro m s hm hle
    apply hmax m s ((h m s hle).mp hm) hle

theorem newestIn_cons_of_ne (hne : k.key ≠ key) :
  NewestIn ((k, v) :: es) version key x ↔ NewestIn es version key x
  := by
  apply newestIn_congr
  intro m s _
  simp only [mem_cons, Prod.mk.injEq, or_iff_right_iff_imp]
  rintro ⟨rfl, -⟩
  exact absurd rfl hne

theorem newestIn_cons_of_newer (hnew : (version : WithTop ℕ) < k.version) :
  NewestIn ((k, v) :: es) version key x ↔ NewestIn es version key x
  := by
  apply newestIn_congr
  intro m s hm
  simp only [mem_cons, Prod.mk.injEq, or_iff_right_iff_imp]
  rintro ⟨rfl, -⟩
  exact absurd hnew (not_lt_of_ge hm)

/-- The first visible entry of a key is its newest. -/
theorem newestIn_cons_self (hasc : Ascending ((k, v) :: es)) (hle : k.version ≤ version) :
  NewestIn ((k, v) :: es) version k.key x ↔ v = some x
  := by
  have hlater : ∀ (m : WithTop ℕ) s, (⟨k.key, m⟩, s) ∈ es → m < k.version := by
    intro m s hm
    rcases VersionedKey.lt_iff.mp (hasc.lt_of_mem hm) with hlt | ⟨-, hlt⟩
    · exact absurd hlt (lt_irrefl _)
    · exact hlt
  constructor
  · rintro ⟨n, -, hx, hmax⟩
    rcases mem_cons.mp hx with heq | hx
    · exact (Prod.mk.inj heq).2.symm
    · have hge := hmax k.version v (mem_cons_self ..) hle
      exact absurd (hlater n _ hx) (not_lt_of_ge hge)
  · rintro rfl
    use k.version, hle, mem_cons_self ..
    intro m s hm _
    rcases mem_cons.mp hm with heq | hm
    · rw [← (Prod.mk.inj heq).1]
    · exact (hlater m s hm).le

/-- The members of the collapsed rows: the newest visible values of the keys not passed. -/
theorem mem_live_iff (hasc : Ascending es) (hd : NotAbove d es) :
  (key, x) ∈ live version d es ↔ d ≠ some key ∧ NewestIn es version key x
  := by
  induction es generalizing d with
  | nil => simp [live, NewestIn]
  | cons e es ih =>
    obtain ⟨k, v⟩ := e
    have hhead : NotAbove (some k.key) es := notAbove_head hasc
    simp only [live]
    split_ifs with hpassed hnew
    · -- an older version of a passed key
      rw [ih hasc.tail hd.tail]
      apply and_congr_right
      intro hne
      rw [newestIn_cons_of_ne]
      rintro rfl
      exact hne hpassed
    · -- newer than the reader
      rw [ih hasc.tail hd.tail, newestIn_cons_of_newer hnew]
    · -- the newest visible version of its key
      rw [not_lt] at hnew
      by_cases hkey : k.key = key
      · subst hkey
        rw [newestIn_cons_self hasc hnew]
        have hrest : (k.key, x) ∉ live version (some k.key) es := by
          rw [ih hasc.tail hhead]
          exact fun h => h.1 rfl
        cases v with
        | none => simp [hrest]
        | some value => simp [hrest, hpassed, eq_comm]
      · have hrest : (key, x) ∈ live version (some k.key) es
            ↔ d ≠ some key ∧ NewestIn ((k, v) :: es) version key x := by
          rw [ih hasc.tail hhead, newestIn_cons_of_ne hkey]
          have hne : some k.key ≠ some key := fun h => hkey (Option.some.inj h)
          simp only [ne_eq, hne, not_false_eq_true, true_and, iff_and_self]
          rintro ⟨n, -, hx, -⟩ rfl
          -- the passed key is not above the head, nor the head above the rest
          have hle := hd key rfl (k, v) (mem_cons_self ..)
          exact hkey (le_antisymm (hhead k.key rfl _ hx) hle)
        cases v with
        | none => exact hrest
        | some value =>
          rw [mem_cons, hrest]
          simp [Ne.symm hkey]

/-- Every collapsed row has the key of a stored entry that was not passed. -/
theorem key_of_mem_live (hasc : Ascending es) (hd : NotAbove d es) {r : ScanEntry}
    (hr : r ∈ live version d es) :
  d ≠ some r.1 ∧ ∃ e ∈ es, e.1.key = r.1
  := by
  obtain ⟨hne, n, -, hx, -⟩ := (mem_live_iff hasc hd).mp hr
  exact ⟨hne, _, hx, rfl⟩

theorem ascending_live (hasc : Ascending es) (hd : NotAbove d es) :
  Ascending (live version d es)
  := by
  induction es generalizing d with
  | nil => exact List.Pairwise.nil
  | cons e es ih =>
    obtain ⟨k, v⟩ := e
    have hhead : NotAbove (some k.key) es := notAbove_head hasc
    simp only [live]
    split_ifs
    · exact ih hasc.tail hd.tail
    · exact ih hasc.tail hd.tail
    · cases v with
      | none => exact ih hasc.tail hhead
      | some value =>
        constructor
        · intro r hr
          obtain ⟨hne, e, he, hkey⟩ := key_of_mem_live hasc.tail hhead hr
          have hle := hhead k.key rfl e he
          rw [hkey] at hle
          exact lt_of_le_of_ne hle fun h => hne (congrArg some h)
        · exact ih hasc.tail hhead

theorem notAbove_none (es : List (VersionedKey × Slot)) :
  NotAbove none es
  := fun _ hc => by cases hc

/-- Seeking past a passed key skips nothing. -/
theorem live_filter_afterKey (hasc : Ascending es) (hd : NotAbove (some key) es) :
  live version none (es.filter fun e => VersionedKey.afterKey key ≤ e.1)
    = live version (some key) es
  := by
  apply (ascending_live (hasc.filter _) (notAbove_none _)).ext (ascending_live hasc hd)
  rintro ⟨key', x⟩
  rw [mem_live_iff (hasc.filter _) (notAbove_none _), mem_live_iff hasc hd]
  have hmem : ∀ (m : WithTop ℕ) s, (⟨key', m⟩, s)
        ∈ es.filter (fun e => VersionedKey.afterKey key ≤ e.1)
      ↔ (⟨key', m⟩, s) ∈ es ∧ key < key' := by
    intro m s
    rw [mem_filter, decide_eq_true_eq, VersionedKey.afterKey_le_iff]
  constructor
  · rintro ⟨-, h⟩
    have hlt : key < key' := by
      obtain ⟨n, -, hx, -⟩ := h
      exact ((hmem n _).mp hx).2
    refine ⟨fun heq => hlt.ne (Option.some.inj heq), (newestIn_congr ?_).mp h⟩
    intro m s _
    rw [hmem, and_iff_left hlt]
  · rintro ⟨hne, h⟩
    have hlt : key < key' := by
      obtain ⟨n, -, hx, -⟩ := h
      exact lt_of_le_of_ne (hd key rfl _ hx) fun heq => hne (congrArg some heq)
    refine ⟨nofun, (newestIn_congr ?_).mpr h⟩
    intro m s _
    rw [hmem, and_iff_left hlt]

/-- Seeking to the newest visible version of the first key skips nothing. -/
theorem live_filter_newestVisible (hasc : Ascending es) (hd : NotAbove (some key) es) :
  live version none (es.filter fun e => VersionedKey.newestVisible key version ≤ e.1)
    = live version none es
  := by
  apply (ascending_live (hasc.filter _) (notAbove_none _)).ext
    (ascending_live hasc (notAbove_none _))
  rintro ⟨key', x⟩
  rw [mem_live_iff (hasc.filter _) (notAbove_none _), mem_live_iff hasc (notAbove_none _)]
  apply and_congr_right
  intro _
  apply newestIn_congr
  intro m s hm
  rw [mem_filter, decide_eq_true_eq, VersionedKey.newestVisible_le_iff]
  apply and_iff_left_of_imp
  intro h
  rcases (hd key rfl _ h).lt_or_eq with hlt | heq
  · exact .inl hlt
  · exact .inr ⟨heq, hm⟩

/-- The key whose newest visible version a leaf walk has passed. -/
def PageWalk.passed (w : PageWalk) : Option Bytes := if w.decided then w.current else none

theorem PageWalk.current_enter (w : PageWalk) (key : Bytes) :
  (w.enter key).current = some key
  := by
  rw [enter]
  split_ifs with h
  · exact h
  · rfl

@[simp]
theorem PageWalk.out_enter (w : PageWalk) (key : Bytes) :
  (w.enter key).out = w.out
  := by
  rw [enter]
  split_ifs
  · rfl
  · rfl

@[simp]
theorem PageWalk.seek_enter (w : PageWalk) (key : Bytes) :
  (w.enter key).seek = w.seek
  := by
  rw [enter]
  split_ifs
  · rfl
  · rfl

/-- Meeting the next entry does not change what is left to read. -/
theorem PageWalk.live_enter (hasc : Ascending ((k, v) :: es))
    (hcur : NotAbove w.current ((k, v) :: es)) :
  live version (w.enter k.key).passed ((k, v) :: es) = live version w.passed ((k, v) :: es)
  := by
  rw [enter]
  split_ifs with h
  · rfl
  · symm
    apply live_of_ne
    intro e he heq
    rw [passed] at heq
    split_ifs at heq
    -- the current key is not above the head, and the head not above `e`
    have hle := hcur e.1.key heq (k, v) (mem_cons_self ..)
    have hge : k.key ≤ e.1.key := by
      rcases mem_cons.mp he with rfl | he
      · exact le_rfl
      · exact notAbove_head hasc k.key rfl e he
    rw [le_antisymm hle hge] at heq
    exact h heq

/-- What is left to read after a leaf walk, `rest` being the rows left before it: nothing,
or what a new walk from the seek target reads. -/
def PageWalk.Leaves (w : PageWalk) (version limit : ℕ) (es : List (VersionedKey × Slot))
    (rows : List ScanEntry) : Prop :=
  (w.seek = none ∧ w.out = rows.take limit) ∨
  (∃ next, w.seek = some next ∧ w.out.length < limit ∧ (∃ e ∈ es, e.1 < next) ∧
    (w.out ++ live version none (es.filter fun e => next ≤ e.1)).take limit = rows.take limit)

variable {limit : ℕ}

theorem PageWalk.Leaves.cons {rows : List ScanEntry}
    (hasc : Ascending (e :: es)) (h : w.Leaves version limit es rows) :
  w.Leaves version limit (e :: es) rows
  := by
  rcases h with h | ⟨next, hnext, hlen, ⟨e', he', hlt⟩, hrows⟩
  · exact .inl h
  · have hskip : ¬ next ≤ e.1 := not_le_of_gt (lt_trans (hasc.lt_of_mem he') hlt)
    refine .inr ⟨next, hnext, hlen, ⟨e', mem_cons_of_mem _ he', hlt⟩, ?_⟩
    rw [filter_cons_of_neg (by simpa using hskip)]
    exact hrows

/-- A leaf walk reads the rows of the entries it is given, up to the limit or to the
target it leaves to seek to. -/
theorem walk_visit (version : ℕ) (hasc : Ascending es) (hcur : NotAbove w.current es)
    (hseek : w.seek = none) (hlim : w.out.length < limit) :
  (walk (visit version limit) es w).Leaves version limit es (w.out ++ live version w.passed es)
  := by
  induction es generalizing w with
  | nil =>
    left
    use hseek
    simp only [walk, live, append_nil]
    rw [take_of_length_le hlim.le]
  | cons e es ih =>
    obtain ⟨k, v⟩ := e
    have hhead : NotAbove (some k.key) es := notAbove_head hasc
    have hcurrent := w.current_enter k.key
    rw [← PageWalk.live_enter hasc hcur, ← w.out_enter k.key]
    rw [← w.out_enter] at hlim
    rw [← w.seek_enter] at hseek
    rw [walk, visit]
    generalize w.enter k.key = w at hcurrent hlim hseek
    -- what the walk does after an entry that it only skips
    have hyield : ∀ w' : PageWalk, w'.current = some k.key → w'.seek = none →
        w'.out.length < limit → w'.out ++ live version w'.passed es
          = w.out ++ live version w.passed ((k, v) :: es) →
        (walk (visit version limit) es w').Leaves version limit ((k, v) :: es)
          (w.out ++ live version w.passed ((k, v) :: es)) := by
      intro w' hw' hseek' hlim' hrows
      rw [← hrows]
      apply (ih hasc.tail (hw' ▸ hhead) hseek' hlim').cons hasc
    split_ifs with hdecided hskip hnew hskip
    · -- too many older versions of a decided key
      right
      have hlt : k < VersionedKey.afterKey k.key := by
        rw [← not_le, VersionedKey.afterKey_le_iff]
        apply lt_irrefl
      refine ⟨_, rfl, hlim, ⟨(k, v), mem_cons_self .., hlt⟩, ?_⟩
      rw [filter_cons_of_neg (by simpa using hlt), live_filter_afterKey hasc.tail hhead]
      simp [PageWalk.passed, hdecided, hcurrent, live]
    · apply hyield
      · exact hcurrent
      · exact hseek
      · exact hlim
      · simp [PageWalk.passed, hdecided, hcurrent, live]
    · -- too many versions newer than the reader
      right
      have hlt : k < VersionedKey.newestVisible k.key version := by
        rw [← not_le, VersionedKey.newestVisible_le_iff]
        rintro (h | ⟨-, h⟩)
        · exact lt_irrefl _ h
        · exact absurd hnew (not_lt_of_ge h)
      refine ⟨_, rfl, hlim, ⟨(k, v), mem_cons_self .., hlt⟩, ?_⟩
      rw [filter_cons_of_neg (by simpa using hlt), live_filter_newestVisible hasc.tail hhead]
      simp [PageWalk.passed, hdecided, live, hnew]
    · apply hyield
      · exact hcurrent
      · exact hseek
      · exact hlim
      · simp [PageWalk.passed, hdecided, live, hnew]
    · -- the newest visible version
      cases v with
      | none =>
        apply hyield
        · exact hcurrent
        · exact hseek
        · exact hlim
        · simp [PageWalk.passed, hdecided, hcurrent, live, hnew]
      | some value =>
        simp only
        split_ifs with hfull
        · left
          use hseek
          have hlen : (w.out ++ [(k.key, value)]).length = limit := by
            simp only [length_append, length_singleton] at hfull ⊢
            omega
          simp only [PageWalk.passed, hdecided, live, hnew, if_false, reduceCtorEq,
            Bool.false_eq_true]
          rw [append_cons _ _ (live ..), take_left' hlen]
        · apply hyield
          · exact hcurrent
          · exact hseek
          · exact not_le.mp hfull
          · simp [PageWalk.passed, hdecided, hcurrent, live, hnew]

/-- Leaf walks from `cursor` on, one more than there are entries left, read the rows left
up to the limit. -/
theorem pageLoop_eq {hi : Bound VersionedKey} {cursor : VersionedKey} (hlim : out.length < limit)
    (hfuel : (range t (.included cursor) hi).length < fuel) :
  pageLoop t version limit hi fuel cursor out
    = (out ++ live version none (range t (.included cursor) hi)).take limit
  := by
  induction fuel generalizing cursor out with
  | zero => exact absurd hfuel (Nat.not_lt_zero _)
  | succ fuel ih =>
    have hwalk := walk_visit version (ascending_range t (.included cursor) hi)
      (w := ⟨out, none, false, 0, none⟩) (notAbove_none _) rfl hlim
    rw [pageLoop]
    rcases hwalk with ⟨hseek, hout⟩ | ⟨next, hseek, hlen, ⟨e, he, hlt⟩, hrows⟩
    · rw [hseek]
      exact hout
    · rw [hseek]
      simp only
      rw [if_pos hlen]
      have hle : cursor ≤ next := by
        have := (mem_range.mp he).2.1
        rw [Bound.below_included] at this
        exact le_trans this hlt.le
      rw [range_filter_le hle] at hrows
      have hshorter : (range t (.included next) hi).length
          < (range t (.included cursor) hi).length := by
        rw [← range_filter_le hle]
        apply length_filter_lt_length_iff_exists.mpr
        use e, he, by simpa using hlt
      rw [ih hlen (by omega)]
      exact hrows

/-- A map that holds at every key what a reader of `t` at `version` sees there. -/
def Shows (t : Tree) (version : ℕ) (m : OrderedMap Bytes Value) : Prop :=
  ∀ key, Sees (Tree.versions t) key version m[key]?

/-- The upper end of the range of keys below `stop`. -/
def stopBound : Option Bytes → Bound Bytes
  | none => .unbounded
  | some stop => .excluded stop

theorem above_upper_iff {stop : Option Bytes} :
  (upper stop).above k = (stopBound stop).above k.key
  := by
  cases stop with
  | none => rfl
  | some stop =>
    rw [upper, stopBound, Bool.eq_iff_iff, Bound.above_excluded, Bound.above_excluded,
      VersionedKey.lt_firstOf_iff]

section

variable (h : Shows t version m)
include h

/-- The rows the stored entries of a range collapse to are the range of the map seen. -/
theorem live_range (start : Bytes) (stop : Option Bytes) :
  live version none (range t (.included (.firstOf start)) (upper stop))
    = range m (.included start) (stopBound stop)
  := by
  apply (ascending_live (ascending_range ..) (notAbove_none _)).ext (ascending_range ..)
  rintro ⟨key, x⟩
  rw [mem_live_iff (ascending_range ..) (notAbove_none _), mem_range]
  have hmem : ∀ (n : WithTop ℕ) s, (⟨key, n⟩, s) ∈ range t (.included (.firstOf start)) (upper stop)
      ↔ t[(⟨key, n⟩ : VersionedKey)]? = some s ∧ start ≤ key ∧
        (stopBound stop).above key = true := by
    intro n s
    rw [mem_range, Bound.below_included, VersionedKey.firstOf_le_iff, above_upper_iff]
  rw [Bound.below_included]
  constructor
  · rintro ⟨-, n, hn, hx, hmax⟩
    obtain ⟨ht, hbounds⟩ := (hmem n _).mp hx
    refine ⟨?_, hbounds⟩
    obtain ⟨n', hn', hle, hs⟩ := Tree.versions_of_le ht hn
    obtain rfl : n = n' := hn'
    apply (h key).unique
    refine .inl ⟨n', hle, hs, ?_⟩
    intro n'' hlt hle'
    cases hs' : Tree.versions t key n'' with
    | none => rfl
    | some s' =>
      have := hmax n'' s' ((hmem n'' s').mpr ⟨hs', hbounds⟩) (WithTop.coe_le_coe.mpr hle')
      exact absurd (WithTop.coe_le_coe.mp this) (not_le_of_gt hlt)
  · rintro ⟨hm, hbounds⟩
    use nofun
    have hsees := h key
    rw [hm] at hsees
    rcases hsees with ⟨n, hle, hs, hnew⟩ | ⟨hnone, -⟩
    · use n, WithTop.coe_le_coe.mpr hle, (hmem n _).mpr ⟨hs, hbounds⟩
      intro k s hk hkv
      obtain ⟨n', hn', hle', hs'⟩ := Tree.versions_of_le ((hmem k s).mp hk).1 hkv
      obtain rfl : k = n' := hn'
      apply WithTop.coe_le_coe.mpr
      by_contra hlt
      simp only [hnew n' (not_le.mp hlt) hle', reduceCtorEq] at hs'
    · cases hnone

/-- A forward page is a prefix of the range of the map seen. -/
theorem page_eq (start : Bytes) (stop : Option Bytes) (limit : ℕ) :
  page t version start stop limit = (range m (.included start) (stopBound stop)).take limit
  := by
  rw [page]
  split_ifs with hempty
  · rcases hempty with rfl | hstop
    · rfl
    · obtain ⟨stop, rfl, hle⟩ := (Option.any_eq_true ..).mp hstop
      rw [stopBound, range_eq_nil_of_le (of_decide_eq_true hle), take_nil]
  · rw [not_or] at hempty
    rw [pageLoop_eq, live_range h, nil_append]
    · exact Nat.pos_of_ne_zero hempty.1
    · exact Nat.lt_succ_of_le (length_range_le ..)

/-! ## Backward pages -/

/-- A map seen at a version holds only keys the tree stores. -/
theorem Shows.stored (hx : m[key]? = some x) :
  ∃ n : ℕ, t[VersionedKey.new key n]? = some (some x)
  := by
  have hsees := h key
  rw [hx] at hsees
  rcases hsees with ⟨n, -, hs, -⟩ | ⟨hnone, -⟩
  · use n, hs
  · cases hnone

theorem Shows.newestSlot (key : Bytes) :
  (newestSlot t version key).join = m[key]?
  := (sees_newestSlot t version key).unique (h key)

/-- The steps of a backward page, one more than there are entries left, read the rows left
up to the limit, greatest key first. -/
theorem pageRevLoop_eq {stop : Bytes} (hlim : out.length ≤ limit)
    (hfuel : (range t (.included (.firstOf start)) (.excluded (.firstOf stop))).length < fuel) :
  pageRevLoop t version limit (.firstOf start) fuel (.firstOf stop) out
    = (out ++ (range m (.included start) (.excluded stop)).reverse).take limit
  := by
  induction fuel generalizing stop out with
  | zero => exact absurd hfuel (Nat.not_lt_zero _)
  | succ fuel ih =>
    have hmem : ∀ k s, (k, s) ∈ range t (.included (.firstOf start)) (.excluded (.firstOf stop))
        ↔ t[k]? = some s ∧ start ≤ k.key ∧ k.key < stop := by
      intro k s
      rw [mem_range, Bound.below_included, Bound.above_excluded, VersionedKey.firstOf_le_iff,
        VersionedKey.lt_firstOf_iff]
    rw [pageRevLoop]
    split_ifs with hfull
    · rw [take_left' (le_antisymm hlim hfull)]
    · cases hr : (range t (.included (.firstOf start)) (.excluded (.firstOf stop))).reverse with
      | nil =>
        rw [reverse_eq_nil_iff] at hr
        have hnil : range m (.included start) (.excluded stop) = [] := by
          apply eq_nil_iff_forall_not_mem.mpr
          rintro ⟨key, x⟩ he
          rw [mem_range, Bound.below_included, Bound.above_excluded] at he
          obtain ⟨n, hn⟩ := h.stored he.1
          have := (hmem _ _).mpr ⟨hn, he.2⟩
          rw [hr] at this
          cases this
        simp [hnil, take_of_length_le hlim]
      | cons e rest =>
        obtain ⟨k, s⟩ := e
        have hsplit := reverse_eq_cons_iff.mp hr
        have hin : (k, s)
            ∈ range t (.included (.firstOf start)) (.excluded (.firstOf stop)) := by
          rw [hsplit]
          simp
        obtain ⟨-, hlo, hhi⟩ := (hmem k s).mp hin
        -- no stored key of the range is above the greatest
        have hmax : ∀ k' x, m[k']? = some x → k.key < k' → ¬ k' < stop := by
          intro k' x hx hlt hlt'
          obtain ⟨n, hn⟩ := h.stored hx
          have hin' := (hmem _ _).mpr ⟨hn, le_trans hlo hlt.le, hlt'⟩
          have hasc := ascending_range t (.included (.firstOf start)) (.excluded (.firstOf stop))
          rw [hsplit] at hin' hasc
          rcases mem_append.mp hin' with hin' | hin'
          · have := (pairwise_append.mp hasc).2.2 _ hin' _ (mem_singleton_self _)
            exact absurd (VersionedKey.key_le_of_le this.le) (not_le_of_gt hlt)
          · rw [mem_singleton] at hin'
            exact hlt.ne (congrArg (fun e => e.1.key) hin').symm
        have hshorter :
            (range t (.included (.firstOf start)) (.excluded (.firstOf k.key))).length
            < (range t (.included (.firstOf start)) (.excluded (.firstOf stop))).length := by
          rw [← range_filter_lt]
          · apply length_filter_lt_length_iff_exists.mpr
            refine ⟨_, hin, ?_⟩
            simp [VersionedKey.firstOf_le_iff]
          · rw [VersionedKey.firstOf_le_iff]
            exact hhi.le
        have hslot := h.newestSlot k.key
        rw [range_eq_concat hlo hhi hmax, reverse_append, ← hslot]
        simp only
        cases hs : View.newestSlot t version k.key with
        | none =>
          rw [ih hlim (by omega)]
          rfl
        | some slot =>
          cases slot with
          | none =>
            rw [ih hlim (by omega)]
            rfl
          | some value =>
            rw [ih (by simpa using hfull) (by omega), append_assoc]
            rfl

/-- A backward page is a prefix of the reversed range of the map seen. -/
theorem pageRev_eq (start stop : Bytes) (limit : ℕ) :
  pageRev t version start stop limit
    = (range m (.included start) (.excluded stop)).reverse.take limit
  := by
  rw [pageRev]
  split_ifs with hempty
  · rcases hempty with rfl | hle
    · rfl
    · rw [range_eq_nil_of_le hle, reverse_nil, take_nil]
  · rw [pageRevLoop_eq h (Nat.zero_le _) (Nat.lt_succ_of_le (length_range_le ..)),
      nil_append]

end

end View

/-! ## Iterators -/

namespace Pages

open View

/-- The rows an iterator has still to fetch, `m` being the map its view shows. -/
def unread (p : Pages) (m : OrderedMap Bytes Value) : List ScanEntry :=
  if p.forward then range m (.included p.start) (stopBound p.stop)
  else (range m (.included p.start) (.excluded (p.stop.getD []))).reverse

/-- The rows an iterator has still to hand out. -/
def remaining (p : Pages) (m : OrderedMap Bytes Value) : List ScanEntry :=
  p.buffer ++ if p.done then [] else p.unread m

variable {last : ScanEntry}

/-- Moving the start past the last key handed out leaves the rows after it. -/
theorem range_next_eq_drop {hi : Bound Bytes}
    (hlast : ((range m (.included start) hi).take n).getLast? = some last) :
  range m (.included last.1.next) hi = (range m (.included start) hi).drop n
  := by
  have hmem := mem_of_mem_take (mem_of_getLast? hlast)
  have hle := (mem_range.mp hmem).2.1
  rw [Bound.below_included] at hle
  rw [← filter_rel_eq_drop (fun _ _ h => lt_asymm h) (ascending_range ..) hlast,
    ← range_filter_le (le_trans hle (Bytes.lt_next last.1).le)]
  apply filter_congr
  intro e _
  rw [decide_eq_decide, Bytes.next_le_iff]

/-- Moving the stop to the last key handed out leaves the rows below it. -/
theorem range_stop_eq_drop {lo : Bound Bytes} {stop : Bytes}
    (hlast : ((range m lo (.excluded stop)).reverse.take n).getLast? = some last) :
  (range m lo (.excluded last.1)).reverse = (range m lo (.excluded stop)).reverse.drop n
  := by
  have hmem := mem_reverse.mp (mem_of_mem_take (mem_of_getLast? hlast))
  have hlt := (mem_range.mp hmem).2.2
  rw [Bound.above_excluded] at hlt
  have hdesc : (range m lo (.excluded stop)).reverse.Pairwise fun e e' => e'.1 < e.1 :=
    pairwise_reverse.mpr (ascending_range ..)
  rw [← filter_rel_eq_drop (fun _ _ h => lt_asymm h) hdesc hlast,
    ← range_filter_lt hlt.le, filter_reverse]
  congr 1
  apply filter_congr
  intro e _
  rw [decide_eq_decide]

variable {s : Shared}

/-- The next page is the first rows not fetched yet. -/
theorem fetched_eq (h : Shows (s.trees p.cf) p.view.version m) :
  p.fetched s = (p.unread m).take pageSize
  := by
  rw [fetched, unread]
  split_ifs
  · apply page_eq h
  · apply pageRev_eq h

theorem buffer_refill (s : Shared) (p : Pages) :
  (p.refill s).buffer = p.buffer ++ p.fetched s
  := by
  simp only [refill]
  split_ifs <;> cases (p.fetched s).getLast? <;> rfl

theorem done_refill (s : Shared) (p : Pages) :
  (p.refill s).done = if (p.fetched s).length < pageSize then true else p.done
  := by
  simp only [refill]
  split_ifs <;> cases (p.fetched s).getLast? <;> rfl

/-- After a page, the rows not fetched yet are those past its last row. -/
theorem unread_refill (h : Shows (s.trees p.cf) p.view.version m)
    (hlast : (p.fetched s).getLast? = some last) :
  (p.refill s).unread m = (p.unread m).drop pageSize
  := by
  have hmoved : (p.refill s).unread m
      = if p.forward then range m (.included last.1.next) (stopBound p.stop)
        else (range m (.included p.start) (.excluded last.1)).reverse := by
    by_cases hshort : (p.fetched s).length < pageSize <;> cases hf : p.forward <;>
      simp [refill, hlast, unread, hshort, hf]
  rw [hmoved]
  rw [fetched_eq h, unread] at hlast
  rw [unread]
  split_ifs with hf
  · rw [if_pos hf] at hlast
    exact range_next_eq_drop hlast
  · rw [if_neg hf] at hlast
    exact range_stop_eq_drop hlast

/-- Fetching a page leaves the same rows to hand out, and an empty page ends the iterator. -/
theorem remaining_refill (h : Shows (s.trees p.cf) p.view.version m)
    (hbuffer : p.buffer = []) (hdone : p.done = false) :
  (p.refill s).remaining m = p.remaining m
    ∧ ((p.refill s).buffer = [] → (p.refill s).done = true)
  := by
  rw [remaining, remaining, buffer_refill, done_refill, hbuffer, hdone, nil_append, nil_append]
  by_cases hshort : (p.fetched s).length < pageSize
  · -- the last page
    rw [if_pos hshort, if_pos rfl, append_nil, fetched_eq h]
    rw [fetched_eq h, length_take] at hshort
    exact ⟨take_of_length_le (by omega), fun _ => rfl⟩
  · rw [if_neg hshort, if_neg Bool.false_ne_true, if_neg Bool.false_ne_true]
    cases hlast : (p.fetched s).getLast? with
    | none =>
      rw [List.getLast?_eq_none_iff.mp hlast] at hshort
      exact absurd (by decide) hshort
    | some last =>
      rw [unread_refill h hlast]
      constructor
      · rw [fetched_eq h, take_append_drop]
      · intro hnil
        rw [hnil] at hlast
        cases hlast

/-- An iterator hands out the rows left one at a time. -/
theorem next_eq (h : Shows (s.trees p.cf) p.view.version m) :
  (p.next s).2 = (p.remaining m).head? ∧ (p.next s).1.remaining m = (p.remaining m).tail
  := by
  have hready : ∃ q : Pages, (if p.buffer.isEmpty && !p.done then p.refill s else p) = q
      ∧ q.remaining m = p.remaining m ∧ (q.buffer = [] → q.done = true) := by
    by_cases hempty : p.buffer.isEmpty && !p.done
    · rw [if_pos hempty]
      simp only [Bool.and_eq_true, List.isEmpty_iff, Bool.not_eq_true'] at hempty
      exact ⟨_, rfl, remaining_refill h hempty.1 hempty.2⟩
    · rw [if_neg hempty]
      use p, rfl, rfl
      intro hb
      simpa [hb] using hempty
  obtain ⟨q, hq, heq, hdone⟩ := hready
  rw [next, hq, ← heq]
  cases hb : q.buffer with
  | nil => simp [remaining, hb, hdone]
  | cons e rest => simp [remaining, hb, unread]

end Pages

end Kv9.Engine
