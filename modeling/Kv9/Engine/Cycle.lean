import Kv9.Engine.Refinement

/-!
# Whole cycles of garbage collection

`collectGarbage` runs legs without a budget until one reports that the cycle is complete.
What is garbage is a property of the stored versions and of the oldest live version alone,
and a leg ends at a key boundary, so it never matters where the leg before it stopped: a
cycle of legs with any budgets ends, and removes exactly the garbage.
-/

namespace Kv9.Engine

open OrderedMap Versions VersionedKey GcWalk
open List hiding ext_getElem? mem_range range

/-- Where a collection starts. -/
def GcCursor.start : GcCursor := ⟨0, none, none, false⟩

/-- The largest budget a leg can be given. -/
def usizeMax : ℕ := 2 ^ 64 - 1

/-- Add what one leg did to what the legs before it did. -/
def GarbageReport.add (total step : GarbageReport) : GarbageReport :=
  ⟨step.oldestLiveVersion, total.removed + step.removed, total.scanned + step.scanned,
    step.cycleComplete⟩

/-- Run legs, the `i`-th with the budget `budget i`, until one reports a complete cycle. -/
def gcCycle (budget : ℕ → ℕ) :
    ℕ → ℕ → Shared → GcCursor → GarbageReport → Option (Shared × GarbageReport)
  | 0, _, _, _, _ => none
  | fuel + 1, i, s, cursor, total =>
    let (s, cursor, step) := gcStep s cursor (budget i)
    let total := total.add step
    if step.cycleComplete then some (s, total)
    else gcCycle budget fuel (i + 1) s cursor total

/-- The number of stored entries. -/
def Shared.stored (s : Shared) : ℕ :=
  (s.trees .default).size + (s.trees .lock).size + (s.trees .write).size

/-- One full pass over every column family. -/
def collectGarbage (s : Shared) : Option (Shared × GarbageReport) :=
  gcCycle (fun _ => usizeMax) (s.stored + 3) 0 s .start ⟨0, 0, 0, false⟩

/-! ## What is garbage -/

/-- A stored version not above `oldest` is garbage when a newer one of its key is stored that
is not above `oldest` either, or when it is a tombstone. -/
def Garbage (t : Tree) (oldest : ℕ) (k : VersionedKey) : Prop :=
  k.version ≤ oldest ∧ (t[k]? = some none
    ∨ t[k]? ≠ none ∧ ∃ n : WithTop ℕ, k.version < n ∧ n ≤ oldest ∧ t[VersionedKey.mk k.key n]? ≠ none)

/-- What a walk over entries dooms.  `cur` is the key it is in, and `kept` says whether a
version of that key is kept already. -/
def dooms (oldest : ℕ) : Option Bytes → Bool → List (VersionedKey × Slot) → List VersionedKey
  | _, _, [] => []
  | cur, kept, (k, v) :: es =>
    let kept := if cur = some k.key then kept else false
    if (oldest : WithTop ℕ) < k.version then dooms oldest (some k.key) kept es
    else if kept ∨ v = none then k :: dooms oldest (some k.key) true es
    else dooms oldest (some k.key) true es

variable {oldest : ℕ} {es : List (VersionedKey × Slot)}

variable {d k' : VersionedKey} {w : GcWalk} {P Q : VersionedKey → Prop} {doomed : List VersionedKey}
  {base scanBudget chunk fuel removed' scanned' m : ℕ} {s' : Shared} {key : Bytes}

/-- A walk dooms what is superseded and the tombstones, among the entries not above
`oldest`. -/
theorem mem_dooms {cur : Option Bytes} {kept : Bool} (hasc : Ascending es)
    (hcur : View.NotAbove cur es) :
  d ∈ dooms oldest cur kept es ↔ d.version ≤ oldest ∧ ∃ v, (d, v) ∈ es
    ∧ (v = none ∨ (cur = some d.key ∧ kept = true)
      ∨ ∃ e ∈ es, e.1.key = d.key ∧ e.1.version ≤ oldest ∧ d.version < e.1.version)
  := by
  induction es generalizing cur kept with
  | nil => simp [dooms]
  | cons e es ih =>
    obtain ⟨k, v⟩ := e
    have hafter : ∀ e ∈ es, k.key < e.1.key ∨ (k.key = e.1.key ∧ e.1.version < k.version) :=
      fun e he => lt_iff.mp (hasc.lt_of_mem he)
    have hcurrent : ∀ c, cur = some c → c ≤ k.key := fun c hc =>
      hcur c hc (k, v) mem_cons_self
    rw [dooms]
    simp only [mem_cons]
    by_cases hnew : (oldest : WithTop ℕ) < k.version
    · -- a version above `oldest` neither is doomed nor dooms another
      rw [if_pos hnew, ih hasc.tail (View.notAbove_head hasc)]
      grind
    · have hle := not_lt.mp hnew
      have htail := @ih (some k.key) true hasc.tail (View.notAbove_head hasc)
      rw [if_neg hnew]
      by_cases hd : d = k
      · subst hd
        split_ifs <;> grind
      · -- an older version of the key is doomed by the one met here
        have hmem : ∀ v', (d, v') ∈ es → k.key = d.key → d.version < k.version := by
          intro v' he hkey
          rcases hafter (d, v') he with h | h
          · exact absurd hkey h.ne
          · exact h.2
        have hhead : d ∈ (if (if cur = some k.key then kept else false) = true ∨ v = none
            then k :: dooms oldest (some k.key) true es else dooms oldest (some k.key) true es)
            ↔ d ∈ dooms oldest (some k.key) true es := by
          split_ifs <;> simp [hd]
        rw [hhead, htail]
        constructor
        · rintro ⟨hversion, v', he, hcase⟩
          use hversion, v', .inr he
          rcases hcase with h | ⟨h, -⟩ | ⟨e, he', h⟩
          · exact .inl h
          · have hkey := Option.some.inj h
            exact .inr (.inr ⟨(k, v), .inl rfl, hkey, hle, hmem v' he hkey⟩)
          · exact .inr (.inr ⟨e, .inr he', h⟩)
        · rintro ⟨hversion, v', he, hcase⟩
          grind

/-! ## One walk -/

/-- Where a walk ends: behind all entries, or in front of the first entry of another key, for
want of budget or with enough doomed. -/
structure GcWalk.EndsAt (scanBudget chunk : ℕ) (w : GcWalk) (pre post : List (VersionedKey × Slot)) :
    Prop where
  done : post = [] → w.resume = none
  resume : ∀ e rest, post = e :: rest → w.resume = some (.firstOf e.1.key)
    ∧ (∀ e' ∈ pre, e'.1.key ≠ e.1.key) ∧ (chunk ≤ w.doomed.length ∨ scanBudget ≤ w.scanned)
    ∧ w.budgetSpent = decide (scanBudget ≤ w.scanned)

theorem GcWalk.kept_enter_eq (w : GcWalk) (key : Bytes) :
  (w.enter key).kept = if w.current = some key then w.kept else false
  := by
  rw [enter]
  split_ifs <;> rfl

theorem GcWalk.scanned_visit (w : GcWalk) (oldest : ℕ) (k : VersionedKey) (v : Slot) :
  ((w.enter k.key).judge oldest k v).scanned = w.scanned + 1
  := by
  rw [judge, enter]
  split_ifs <;> rfl

/-- One visit dooms what the first entry contributes. -/
theorem GcWalk.doomed_visit (w : GcWalk) (oldest : ℕ) (k : VersionedKey) (v : Slot)
    (es : List (VersionedKey × Slot)) :
  ((w.enter k.key).judge oldest k v).doomed
      ++ dooms oldest (some k.key) ((w.enter k.key).judge oldest k v).kept es
    = w.doomed ++ dooms oldest w.current w.kept ((k, v) :: es)
  := by
  rw [doomed_judge, doomed_enter, dooms, ← kept_enter_eq]
  generalize w.enter k.key = w
  by_cases hnew : (oldest : WithTop ℕ) < k.version
  · simp [judge, hnew, not_le_of_gt]
  · have hle := not_lt.mp hnew
    cases hkept : w.kept with
    | true => simp [judge, hnew, hle, hkept]
    | false =>
      cases v with
      | none => simp [judge, hnew, hle, hkept]
      | some x => simp [judge, hnew, hkept]

/-- A walk visits a front part of the entries and dooms what is to be doomed there. -/
theorem walk_dooms (oldest scanBudget chunk : ℕ) (hasc : Ascending es)
    (hcur : View.NotAbove w.current es) (hresume : w.resume = none) :
  ∃ pre post, es = pre ++ post
    ∧ (walk (gcVisit oldest scanBudget chunk) es w).doomed
      = w.doomed ++ dooms oldest w.current w.kept pre
    ∧ (walk (gcVisit oldest scanBudget chunk) es w).scanned = w.scanned + pre.length
    ∧ (∀ e ∈ post.head?, w.current ≠ some e.1.key)
    ∧ (walk (gcVisit oldest scanBudget chunk) es w).EndsAt scanBudget chunk pre post
  := by
  induction es generalizing w with
  | nil =>
    use [], []
    simp only [walk, dooms, append_nil, length_nil, Nat.add_zero, true_and]
    constructor
    · simp
    · constructor
      · intro _
        apply hresume
      · simp
  | cons e es ih =>
    obtain ⟨k, v⟩ := e
    rw [walk, gcVisit]
    split_ifs with hstop
    · use [], (k, v) :: es
      simp only [dooms, nil_append, append_nil, length_nil, Nat.add_zero, true_and,
        List.head?_cons, Option.mem_some_iff, forall_eq']
      constructor
      · apply hstop.1
      · constructor
        · simp
        · rintro _ _ ⟨⟩
          simpa using hstop.2
    · have hnext : ((w.enter k.key).judge oldest k v).current = some k.key := by
        rw [current_judge, GcWalk.current_enter]
      have hbehind := View.notAbove_head hasc
      obtain ⟨pre, post, rfl, hdoomed, hscanned, hhead, hends⟩ :=
        ih hasc.tail (w := (w.enter k.key).judge oldest k v) (hnext ▸ hbehind)
          (by rw [resume_judge, resume_enter, hresume])
      rw [hnext, doomed_visit] at hdoomed
      rw [scanned_visit] at hscanned
      rw [hnext] at hhead
      use (k, v) :: pre, post, rfl, hdoomed
      constructor
      · rw [hscanned, length_cons]
        omega
      constructor
      · -- the walk is behind the key it was in
        rintro e he hkey
        have hmem : e ∈ post := mem_of_mem_head? he
        have hlow := hcur e.1.key hkey (k, v) mem_cons_self
        have hhigh := hbehind k.key rfl e (mem_append_right _ hmem)
        apply hhead e he
        rw [le_antisymm hlow hhigh]
      · constructor
        · apply hends.done
        · intro e rest hpost
          obtain ⟨hat, hkeys, hwhy⟩ := hends.resume e rest hpost
          use hat
          constructor
          · intro e' he'
            rcases mem_cons.mp he' with rfl | he'
            · intro hkey
              apply hhead e (by rw [hpost]; rfl)
              rw [← hkey]
            · apply hkeys e' he'
          · apply hwhy

/-! ## Sweeping a tree -/

open scoped Classical in
/-- `t'` is `t` without its garbage at the entries `P`. -/
def SweptWhere (oldest : ℕ) (P : VersionedKey → Prop) (t t' : Tree) : Prop :=
  ∀ k, t'[k]? = if Garbage t oldest k ∧ P k then none else t[k]?

variable {t t' : Tree}

theorem SweptWhere.congr (h : SweptWhere oldest P t t') (hPQ : ∀ k, P k ↔ Q k) :
  SweptWhere oldest Q t t'
  := by
  intro k
  rw [h, hPQ]

variable {k : VersionedKey}

theorem getElem?_removeDoomed_eq :
  (removeDoomed t doomed).1[k]? = if k ∈ doomed then none else t[k]?
  := by
  rw [removeDoomed]
  induction doomed with
  | nil => rfl
  | cons d doomed ih =>
    rw [foldr_cons, OrderedMap.getElem?_erase, ih]
    by_cases hd : d = k
    · simp [hd]
    · simp [hd, Ne.symm]

/-- To remove the garbage somewhere is to sweep there. -/
theorem SweptWhere.removeDoomed
    (h : SweptWhere oldest P t t') (hdoomed : ∀ k, k ∈ doomed ↔ Garbage t oldest k ∧ Q k) :
  SweptWhere oldest (fun k => P k ∨ Q k) t (removeDoomed t' doomed).1
  := by
  intro k
  rw [getElem?_removeDoomed_eq, h]
  grind

/-- What is counted as removed is what is gone. -/
theorem size_removeDoomed (t : Tree) (doomed : List VersionedKey) :
  (removeDoomed t doomed).2 + (removeDoomed t doomed).1.size = t.size
  := by
  rw [removeDoomed]
  induction doomed with
  | nil => apply Nat.zero_add
  | cons d doomed ih =>
    rw [foldr_cons]
    generalize doomed.foldr _ (t, 0) = r at ih ⊢
    rw [Std.ExtTreeMap.size_erase]
    by_cases hd : d ∈ r.1
    · have hpos : 0 < r.1.size := by
        rw [← Std.ExtTreeMap.length_toList]
        have hmem : (d, r.1[d]) ∈ r.1.toList := mem_toList.mpr (by simp)
        apply length_pos_of_mem hmem
      rw [if_pos hd, if_pos (Std.ExtTreeMap.contains_iff_mem.mpr hd)]
      omega
    · rw [if_neg hd, if_neg (mt Std.ExtTreeMap.contains_iff_mem.mp hd), ih]

variable {cursor : GcCursor}

/-- The lower end of a walk lies between two keys. -/
theorem GcCursor.Valid.below_iff (h : cursor.Valid) (hkey : k.key = k'.key) :
  cursor.lower.below k = cursor.lower.below k'
  := by
  rw [Valid] at h
  rw [lower]
  cases hr : cursor.resume with
  | none => rfl
  | some first =>
    simp only [hr] at h
    obtain ⟨key, rfl, -⟩ := h
    rw [Bool.eq_iff_iff, Bound.below_included, Bound.below_included,
      firstOf_le_iff, firstOf_le_iff, hkey]

/-- What comes after the key of an entry ahead is ahead. -/
theorem GcCursor.Valid.below_of_key_le (h : cursor.Valid)
    (hk : cursor.lower.below k = true) (hle : k.key ≤ k'.key) :
  cursor.lower.below k' = true
  := by
  rcases hle.lt_or_eq with hlt | heq
  · apply Bound.below_mono hk
    apply (lt_iff.mpr (Or.inl hlt)).le
  · rw [← h.below_iff heq, hk]

theorem key_le_of_mem {e e' : VersionedKey × Slot} (hasc : Ascending (e :: es))
    (he : e' ∈ e :: es) :
  e.1.key ≤ e'.1.key
  := by
  rcases mem_cons.mp he with rfl | he
  · apply le_rfl
  · rcases lt_iff.mp (hasc.lt_of_mem he) with h | h
    · apply h.le
    · apply h.1.le

/-- The current key of a valid cursor is behind all entries ahead. -/
theorem GcCursor.Valid.current_ne (h : cursor.Valid) (hk : cursor.lower.below k = true) :
  ∀ c, cursor.current = some c → c < k.key
  := by
  intro c hc
  rw [Valid] at h
  rw [lower] at hk
  cases hr : cursor.resume with
  | none =>
    simp only [hr] at h
    rw [h] at hc
    cases hc
  | some first =>
    simp only [hr] at h hk
    obtain ⟨key, rfl, hlt⟩ := h
    rw [Bound.below_included, firstOf_le_iff] at hk
    apply (hlt c hc).trans_le hk

/-- The entries ahead of a cursor are those of the tree before anything was swept. -/
theorem SweptWhere.range_eq {lo : Bound VersionedKey}
    (h : SweptWhere oldest (fun k => lo.below k = false) t t') :
  range t' lo .unbounded = range t lo .unbounded
  := by
  apply (ascending_range ..).ext (ascending_range ..)
  intro e
  rw [mem_range, mem_range]
  by_cases hlo : lo.below e.1 = true
  · rw [h, if_neg (by simp [hlo])]
  · simp [hlo]

/-- Among the entries of whole keys ahead of a cursor, exactly the garbage is doomed. -/
theorem GcCursor.Valid.mem_dooms (hc : cursor.Valid) {Q : Bytes → Prop}
    {pre : List (VersionedKey × Slot)} (hasc : Ascending pre)
    (hpre : ∀ k v, (k, v) ∈ pre ↔ t[k]? = some v ∧ cursor.lower.below k = true ∧ Q k.key) :
  d ∈ dooms oldest cursor.current cursor.kept pre
    ↔ Garbage t oldest d ∧ cursor.lower.below d = true ∧ Q d.key
  := by
  have hcur : View.NotAbove cursor.current pre := by
    intro c hcc e he
    apply (hc.current_ne ((hpre e.1 e.2).mp he).2.1 c hcc).le
  rw [Engine.mem_dooms hasc hcur]
  constructor
  · rintro ⟨hle, v, hd, hcase⟩
    obtain ⟨hstored, hahead, hQ⟩ := (hpre d v).mp hd
    apply And.intro (And.intro hle _) (And.intro hahead hQ)
    rcases hcase with rfl | ⟨hkey, -⟩ | ⟨e, he, hkey, hle', hlt⟩
    · apply Or.inl hstored
    · -- the key a walk starts in is behind it
      exact absurd rfl (hc.current_ne hahead d.key hkey).ne
    · right
      constructor
      · simp [hstored]
      · use e.1.version, hlt, hle'
        have hmem := ((hpre e.1 e.2).mp he).1
        have heq : VersionedKey.mk d.key e.1.version = e.1 := by
          ext1
          · apply hkey.symm
          · rfl
        simp [heq, hmem]
  · rintro ⟨⟨hle, hcase⟩, hahead, hQ⟩
    use hle
    rcases hcase with hnone | ⟨hstored, n, hlt, hle', hnewer⟩
    · use none, (hpre d none).mpr ⟨hnone, hahead, hQ⟩
      apply Or.inl rfl
    · obtain ⟨v, hv⟩ := Option.ne_none_iff_exists'.mp hstored
      obtain ⟨v', hv'⟩ := Option.ne_none_iff_exists'.mp hnewer
      use v, (hpre d v).mpr ⟨hv, hahead, hQ⟩
      right
      right
      use (⟨d.key, n⟩, v')
      constructor
      · apply (hpre _ _).mpr
        have hbelow : cursor.lower.below ⟨d.key, n⟩ = cursor.lower.below d := hc.below_iff rfl
        use hv', hbelow.trans hahead
      · use rfl

/-- A walk sweeps from where it starts to where it ends. -/
theorem gcWalk_sweeps (hc : cursor.Valid)
    (h : SweptWhere oldest (fun k => cursor.lower.below k = false) t t')
    (scanBudget chunk scanned : ℕ) (hw : gcWalk t' oldest scanBudget chunk cursor scanned = w) :
  (w.resume = none ∧ SweptWhere oldest (fun _ => True) t (removeDoomed t' w.doomed).1
      ∧ w.scanned = scanned + (range t' cursor.lower .unbounded).length)
    ∨ ∃ key, w.resume = some (.firstOf key) ∧ (∀ c, w.current = some c → c < key)
      ∧ SweptWhere oldest (fun k => (Bound.included (VersionedKey.firstOf key)).below k = false) t
        (removeDoomed t' w.doomed).1
      ∧ w.scanned + (range (removeDoomed t' w.doomed).1 (.included (.firstOf key)) .unbounded).length
        = scanned + (range t' cursor.lower .unbounded).length
      ∧ w.budgetSpent = decide (scanBudget ≤ w.scanned)
      ∧ (0 < chunk → scanned < scanBudget → scanned < w.scanned)
  := by
  have habove := (walk_gcVisit (hc.inv (Tree.versions t') t' oldest scanned)
    (fun _ _ _ hx => hx) rfl hw).2
  have hasc := ascending_range t' cursor.lower .unbounded
  have hcur : View.NotAbove cursor.current (range t' cursor.lower .unbounded) := by
    intro c hcc e he
    apply (hc.current_ne (mem_range.mp he).2.1 c hcc).le
  obtain ⟨pre, post, hsplit, hdoomed, hscanned, -, hends⟩ := walk_dooms oldest scanBudget chunk
    hasc (w := ⟨cursor.current, cursor.kept, scanned, [], none, false⟩) hcur rfl
  rw [← gcWalk, hw] at hdoomed hscanned hends
  rw [nil_append] at hdoomed
  dsimp only at hdoomed hscanned
  have hstored : ∀ k v, (k, v) ∈ range t' cursor.lower .unbounded
      ↔ t[k]? = some v ∧ cursor.lower.below k = true := by
    intro k v
    rw [h.range_eq]
    simp
  rw [hsplit] at hasc
  obtain ⟨hascpre, hascpost, hbefore⟩ := pairwise_append.mp hasc
  cases post with
  | nil =>
    left
    rw [append_nil] at hsplit
    use hends.done rfl
    constructor
    · have hpre : ∀ k v, (k, v) ∈ pre ↔ t[k]? = some v ∧ cursor.lower.below k = true ∧ True := by
        simp [← hsplit, hstored]
      apply SweptWhere.congr (h.removeDoomed fun k =>
        hdoomed ▸ hc.mem_dooms (Q := fun _ => True) hascpre hpre)
      intro k
      cases cursor.lower.below k <;> simp
    · rw [hsplit, hscanned]
  | cons e rest =>
    right
    obtain ⟨hresume, hkeys, hwhy, hspent⟩ := hends.resume e rest rfl
    obtain ⟨key, hkey, hbehind⟩ := habove _ hresume
    obtain rfl : e.1.key = key := congrArg VersionedKey.key hkey
    have hahead : cursor.lower.below e.1 = true := ((hstored e.1 e.2).mp (by simp [hsplit])).2
    have hpre : ∀ k v, (k, v) ∈ pre ↔ t[k]? = some v ∧ cursor.lower.below k = true
        ∧ k.key < e.1.key := by
      intro k v
      rw [← and_assoc, ← hstored, hsplit, mem_append]
      constructor
      · intro hk
        have hle := lt_iff.mp (hbefore _ hk e mem_cons_self)
        grind
      · rintro ⟨hk | hk, hlt⟩
        · apply hk
        · exfalso
          apply hlt.not_ge
          apply key_le_of_mem hascpost hk
    have hswept : SweptWhere oldest
        (fun k => (Bound.included (VersionedKey.firstOf e.1.key)).below k = false) t
        (removeDoomed t' w.doomed).1 := by
      apply SweptWhere.congr (h.removeDoomed fun k =>
        hdoomed ▸ hc.mem_dooms (Q := (· < e.1.key)) hascpre hpre)
      intro k
      rw [← Bool.not_eq_true ((Bound.included _).below _), Bound.below_included, firstOf_le_iff]
      have hlow : cursor.lower.below k = false → k.key < e.1.key := by
        intro hk
        by_contra hge
        rw [hc.below_of_key_le hahead (not_lt.mp hge)] at hk
        cases hk
      cases hk : cursor.lower.below k <;> simp_all
    use e.1.key, hresume, hbehind, hswept
    constructor
    · have hrest : range t (.included (.firstOf e.1.key)) .unbounded = e :: rest := by
        apply (ascending_range ..).ext hascpost
        intro e'
        have hmem := hstored e'.1 e'.2
        rw [hsplit, mem_append, hpre] at hmem
        rw [mem_range, Bound.below_included, firstOf_le_iff]
        constructor
        · rintro ⟨hget, hkey, -⟩
          rcases hmem.mpr ⟨hget, hc.below_of_key_le hahead hkey⟩ with hlow | hpost
          · exact absurd hkey hlow.2.2.not_ge
          · apply hpost
        · intro he'
          use (hmem.mp (.inr he')).1, key_le_of_mem hascpost he'
          rfl
      rw [hswept.range_eq, hrest, hsplit, hscanned, length_append, Nat.add_assoc]
    · use hspent
      cases pre with
      | nil =>
        simp [dooms] at hdoomed hscanned
        grind
      | cons d pre =>
        rw [hscanned, length_cons]
        omega

/-! ## Sweeping the engine -/

/-- The number of entries in the column families behind one. -/
def Shared.sizeAfter (s : Shared) : Fin 3 → ℕ
  | 0 => (s.trees .lock).size + (s.trees .write).size
  | 1 => (s.trees .write).size
  | 2 => 0

/-- The number of entries ahead of a cursor. -/
def Shared.ahead (s : Shared) (cursor : GcCursor) : ℕ :=
  (range (s.trees (.ofFin cursor.cf)) cursor.lower .unbounded).length + s.sizeAfter cursor.cf

/-- The number of walks left is bounded by the entries ahead and the column families left. -/
def Shared.walksLeft (s : Shared) (cursor : GcCursor) : ℕ :=
  s.ahead cursor + (3 - cursor.cf)

/-- A cycle from `s₀` has come to `s` and `cursor`: all garbage behind the cursor is removed,
and nothing else is changed. -/
structure Sweeping (oldest : ℕ) (s₀ s : Shared) (cursor : GcCursor) (removed scanned : ℕ) :
    Prop where
  frame : s = { s₀ with trees := s.trees }
  valid : cursor.Valid
  swept : ∀ i, SweptWhere oldest
    (fun k => i < cursor.cf ∨ (i = cursor.cf ∧ cursor.lower.below k = false))
    (s₀.trees (.ofFin i)) (s.trees (.ofFin i))
  removed : removed + s.stored = s₀.stored
  scanned : scanned + s.ahead cursor = s₀.stored

/-- A cycle from `s₀` has ended in `s`. -/
structure Swept (oldest : ℕ) (s₀ s : Shared) (removed scanned : ℕ) : Prop where
  frame : s = { s₀ with trees := s.trees }
  swept : ∀ cf, SweptWhere oldest (fun _ => True) (s₀.trees cf) (s.trees cf)
  removed : removed + s.stored = s₀.stored
  scanned : scanned = s₀.stored

theorem ColumnFamily.ofFin_injective : Function.Injective ColumnFamily.ofFin
  := by
  decide

theorem ColumnFamily.exists_ofFin (cf : ColumnFamily) :
  ∃ i, ColumnFamily.ofFin i = cf
  := by
  cases cf with
  | default => use 0; rfl
  | lock => use 1; rfl
  | write => use 2; rfl

theorem Shared.stored_treeMut (s : Shared) (cf : ColumnFamily) (t : Tree) :
  (s.treeMut cf fun _ => t).stored + (s.trees cf).size = s.stored + t.size
  := by
  cases cf
  all_goals
    simp [stored, treeMut]
    omega

theorem Shared.sizeAfter_treeMut (s : Shared) (i : Fin 3) (t : Tree) :
  (s.treeMut (.ofFin i) fun _ => t).sizeAfter i = s.sizeAfter i
  := by
  match i with
  | 0 => simp [sizeAfter, treeMut, ColumnFamily.ofFin]
  | 1 => simp [sizeAfter, treeMut, ColumnFamily.ofFin]
  | 2 => rfl

/-- The whole tree is ahead of a walk that starts anew. -/
theorem length_range_unbounded (t : Tree) :
  (range t .unbounded .unbounded).length = t.size
  := by
  rw [range]
  simp [Bound.below, Bound.above]

/-- The column family entered next is one of those behind. -/
theorem Shared.ahead_next (s : Shared) {i : Fin 3} (hi : i ≠ 2) :
  s.ahead ⟨i + 1, none, none, false⟩ = s.sizeAfter i
  := by
  match i with
  | 0 =>
    rw [ahead, GcCursor.lower, length_range_unbounded]
    rfl
  | 1 =>
    rw [ahead, GcCursor.lower, length_range_unbounded]
    rfl
  | 2 => contradiction

theorem Shared.ahead_start (s : Shared) :
  s.ahead .start = s.stored
  := by
  rw [ahead, GcCursor.start, GcCursor.lower, length_range_unbounded, stored, Nat.add_assoc]
  rfl

theorem Sweeping.start (oldest : ℕ) (s : Shared) :
  Sweeping oldest s s .start 0 0
  where
  frame := rfl
  valid := rfl
  swept i k := by
    simp [GcCursor.start, GcCursor.lower, Bound.below]
  removed := Nat.zero_add _
  scanned := by
    rw [Nat.zero_add, s.ahead_start]

variable {removed scanned : ℕ} {s₀ s : Shared}

theorem Sweeping.walk (h : Sweeping oldest s₀ s cursor removed (base + scanned))
    (hw : gcWalk (s.trees (.ofFin cursor.cf)) oldest scanBudget chunk cursor scanned = w) {n : ℕ}
    (ht : removeDoomed (s.trees (.ofFin cursor.cf)) w.doomed = (t, n))
    (hs' : (s.treeMut (.ofFin cursor.cf) fun _ => t) = s') :
  (w.resume = none ∧ scanned ≤ w.scanned
      ∧ (cursor.cf = 2 → Swept oldest s₀ s' (removed + n) (base + w.scanned))
      ∧ (cursor.cf ≠ 2 → Sweeping oldest s₀ s' ⟨cursor.cf + 1, none, none, false⟩ (removed + n)
        (base + w.scanned)))
    ∨ ∃ key, w.resume = some (.firstOf key)
      ∧ Sweeping oldest s₀ s' ⟨cursor.cf, some (.firstOf key), w.current, w.kept⟩ (removed + n)
        (base + w.scanned)
      ∧ w.budgetSpent = decide (scanBudget ≤ w.scanned)
      ∧ (0 < chunk → scanned < scanBudget → scanned < w.scanned)
  := by
  subst hs'
  have hframe : (s.treeMut (.ofFin cursor.cf) fun _ => t)
      = { s₀ with trees := (s.treeMut (.ofFin cursor.cf) fun _ => t).trees } := by
    rw [h.frame]
    rfl
  have hremoved : removed + n + (s.treeMut (.ofFin cursor.cf) fun _ => t).stored = s₀.stored := by
    have hsize := size_removeDoomed (s.trees (.ofFin cursor.cf)) w.doomed
    have hstored := s.stored_treeMut (.ofFin cursor.cf) t
    have hbefore := h.removed
    simp only [ht] at hsize
    omega
  have hother : ∀ i, i ≠ cursor.cf →
      (s.treeMut (.ofFin cursor.cf) fun _ => t).trees (.ofFin i) = s.trees (.ofFin i) := fun i hi =>
    s.trees_treeMut_of_ne _ (ColumnFamily.ofFin_injective.ne hi)
  have hself := s.trees_treeMut_self (.ofFin cursor.cf) fun _ => t
  have hafter := s.sizeAfter_treeMut cursor.cf t
  have hhere := (h.swept cursor.cf).congr
    (Q := fun k => cursor.lower.below k = false) (by simp)
  have hscanned := h.scanned
  rw [Shared.ahead] at hscanned
  rcases gcWalk_sweeps h.valid hhere scanBudget chunk scanned hw with
    ⟨hresume, hswept, hcount⟩ | ⟨key, hresume, hbehind, hswept, hcount, hspent, hmore⟩
  · left
    rw [ht] at hswept
    use hresume, hcount ▸ Nat.le_add_right ..
    constructor
    · intro hlast
      use hframe
      · intro cf
        obtain ⟨i, rfl⟩ := cf.exists_ofFin
        by_cases hi : i = cursor.cf
        · rw [hi, hself]
          apply hswept
        · rw [hother i hi]
          apply (h.swept i).congr
          have hlt : i < cursor.cf := by omega
          simp [hlt]
      · have hnone : s.sizeAfter cursor.cf = 0 := by rw [hlast]; rfl
        omega
    · intro hmid
      use hframe
      · rfl
      · intro i
        by_cases hi : i = cursor.cf
        · rw [hi, hself]
          apply hswept.congr
          have hlt : cursor.cf < cursor.cf + 1 := by omega
          simp [hlt]
        · rw [hother i hi]
          apply (h.swept i).congr
          have hiff : i < cursor.cf + 1 ↔ i < cursor.cf := by omega
          simp [hi, hiff, GcCursor.lower, Bound.below]
      · rw [Shared.ahead_next _ hmid]
        omega
  · right
    simp only [ht] at hswept hcount
    use key, hresume
    constructor
    · use hframe
      · use key, rfl
      · intro i
        by_cases hi : i = cursor.cf
        · rw [hi, hself]
          apply hswept.congr
          simp [GcCursor.lower]
        · rw [hother i hi]
          apply (h.swept i).congr
          simp [hi]
      · rw [Shared.ahead, hself, hafter]
        change base + w.scanned + ((range t (.included (.firstOf key)) .unbounded).length + _) = _
        omega
    · use hspent

/-- What the legs of a cycle come to, when `removed` and `base` count what was done before: the
cycle is complete, or it has come further and fewer than `left` walks are left. -/
structure SweepsTo (oldest : ℕ) (s₀ : Shared) (removed base left : ℕ)
    (r : Shared × GcCursor × GarbageReport) : Prop where
  oldestLive : r.2.2.oldestLiveVersion = oldest
  complete : r.2.2.cycleComplete = true →
    Swept oldest s₀ r.1 (removed + r.2.2.removed) (base + r.2.2.scanned)
  further : r.2.2.cycleComplete = false →
    Sweeping oldest s₀ r.1 r.2.1 (removed + r.2.2.removed) (base + r.2.2.scanned)
      ∧ r.1.walksLeft r.2.1 < left

theorem SweepsTo.mono {left left' : ℕ} {r : Shared × GcCursor × GarbageReport}
    (h : SweepsTo oldest s₀ removed base left r) (hle : left ≤ left') :
  SweepsTo oldest s₀ removed base left' r
  where
  oldestLive := h.oldestLive
  complete := h.complete
  further hopen := ⟨(h.further hopen).1, (h.further hopen).2.trans_le hle⟩

theorem gcLoop_sweeps {report : GarbageReport}
    (h : Sweeping oldest s₀ s cursor (removed + report.removed) (base + report.scanned))
    (hchunk : 0 < chunk) (hbudget : report.scanned < scanBudget) (hfuel : s.walksLeft cursor ≤ fuel)
    (holdest : report.oldestLiveVersion = oldest) (hopen : report.cycleComplete = false) :
  SweepsTo oldest s₀ removed base (s.walksLeft cursor)
    (gcLoop oldest scanBudget chunk fuel s cursor report)
  := by
  induction fuel generalizing s cursor report with
  | zero =>
    rw [Shared.walksLeft] at hfuel
    omega
  | succ fuel ih =>
    rw [gcLoop]
    simp only
    generalize hw : gcWalk (s.trees (.ofFin cursor.cf)) oldest scanBudget chunk cursor
      report.scanned = w
    rcases hr : removeDoomed (s.trees (.ofFin cursor.cf)) w.doomed with ⟨t, n⟩
    generalize hs' : (s.treeMut (.ofFin cursor.cf) fun _ => t) = s'
    -- unless it ends the cycle, a walk ends the leg or the loop goes on from where it stopped
    have hon : ∀ next, Sweeping oldest s₀ s' next (removed + report.removed + n) (base + w.scanned)
        → s'.walksLeft next < s.walksLeft cursor
        → SweepsTo oldest s₀ removed base (s.walksLeft cursor) (if scanBudget ≤ w.scanned then
            (s', next, { report with scanned := w.scanned, removed := report.removed + n })
          else gcLoop oldest scanBudget chunk fuel s' next
            { report with scanned := w.scanned, removed := report.removed + n }) := by
      intro next hnext hless
      rw [Nat.add_assoc] at hnext
      split_ifs with hstop
      · use holdest
        · simp [hopen]
        · intro _
          use hnext
      · have hrest : SweepsTo oldest s₀ removed base (s'.walksLeft next)
            (gcLoop oldest scanBudget chunk fuel s' next
              { report with scanned := w.scanned, removed := report.removed + n }) :=
          ih hnext (not_le.mp hstop) (by omega) holdest hopen
        apply hrest.mono hless.le
    have hwas := h.scanned
    rcases h.walk hw hr hs' with ⟨hresume, hle, hlast, hmid⟩ | ⟨key, hresume, hnext, hspent, hlt⟩
    · rw [hresume]
      by_cases hcf : cursor.cf = 2
      · simp only [if_pos hcf]
        use holdest
        · intro _
          apply Nat.add_assoc removed _ _ ▸ hlast hcf
        · simp
      · simp only [if_neg hcf]
        apply hon _ (hmid hcf)
        have hnow := (hmid hcf).scanned
        simp only [Shared.walksLeft]
        omega
    · simp only [hresume, hspent, decide_eq_true_eq]
      apply hon _ hnext
      have hnow := hnext.scanned
      simp only [Shared.walksLeft]
      omega

theorem Shared.ahead_le_stored (s : Shared) (cursor : GcCursor) :
  s.ahead cursor ≤ s.stored
  := by
  have hlen := length_range_le (s.trees (.ofFin cursor.cf)) cursor.lower .unbounded
  rw [ahead, stored]
  generalize cursor.cf = i at hlen ⊢
  match i with
  | 0 => simp only [ColumnFamily.ofFin, sizeAfter] at hlen ⊢; omega
  | 1 => simp only [ColumnFamily.ofFin, sizeAfter] at hlen ⊢; omega
  | 2 => simp only [ColumnFamily.ofFin, sizeAfter] at hlen ⊢; omega

theorem Shared.walksLeft_le (s : Shared) (cursor : GcCursor) :
  s.walksLeft cursor ≤ s.stored + 3
  := by
  have hle := s.ahead_le_stored cursor
  rw [walksLeft]
  omega

/-- Collecting garbage does not change what is live. -/
theorem Sweeping.oldestLiveVersion (h : Sweeping oldest s₀ s cursor removed scanned) :
  s.oldestLiveVersion = s₀.oldestLiveVersion
  := by
  rw [h.frame]
  rfl

theorem Sweeping.gcStep (h : Sweeping s₀.oldestLiveVersion s₀ s cursor removed scanned)
    (scanBudget : ℕ) :
  SweepsTo s₀.oldestLiveVersion s₀ removed scanned (s.walksLeft cursor)
    (gcStep s cursor scanBudget)
  := by
  rw [Engine.gcStep, gcStepWith, h.oldestLiveVersion]
  apply gcLoop_sweeps
  · apply h
  · decide
  · apply Nat.lt_of_lt_of_le Nat.one_pos (le_max_right ..)
  · apply s.walksLeft_le
  · rfl
  · rfl

theorem gcCycle_sweeps (budget : ℕ → ℕ) {i : ℕ} {total : GarbageReport}
    (h : Sweeping s₀.oldestLiveVersion s₀ s cursor total.removed total.scanned)
    (hfuel : s.walksLeft cursor ≤ fuel) :
  ∃ s' removed, gcCycle budget fuel i s cursor total
      = some (s', ⟨s₀.oldestLiveVersion, removed, s₀.stored, true⟩)
    ∧ Swept s₀.oldestLiveVersion s₀ s' removed s₀.stored
  := by
  induction fuel generalizing i s cursor total with
  | zero =>
    rw [Shared.walksLeft] at hfuel
    omega
  | succ fuel ih =>
    have hstep := h.gcStep (budget i)
    rw [gcCycle]
    generalize gcStep s cursor (budget i) = r at hstep ⊢
    obtain ⟨s', cursor', step⟩ := r
    simp only at hstep ⊢
    cases hc : step.cycleComplete with
    | true =>
      have hswept := hstep.complete hc
      have hlive := hstep.oldestLive
      have hscanned := hswept.scanned
      use s', total.removed + step.removed
      rw [GarbageReport.add, hlive, hscanned, hc]
      use rfl
      apply hscanned ▸ hswept
    | false =>
      obtain ⟨hfurther, hless⟩ := hstep.further hc
      dsimp only at hless
      apply ih hfurther
      omega

/-! ## What a cycle leaves -/

/-- Two cycles from one state end in one state. -/
theorem Swept.unique (h : Swept oldest s₀ s removed scanned)
    (h' : Swept oldest s₀ s' removed' scanned') :
  s = s' ∧ removed = removed'
  := by
  have htrees : s.trees = s'.trees := by
    funext cf
    apply ext_getElem?
    intro k
    rw [h.swept, h'.swept]
  have heq : s = s' := by rw [h.frame, h'.frame, htrees]
  use heq
  have hremoved := h.removed
  have hremoved' := h'.removed
  rw [← heq] at hremoved'
  omega

theorem SweptWhere.not_garbage (h : SweptWhere oldest (fun _ => True) t t') (k : VersionedKey) :
  ¬ Garbage t' oldest k
  := by
  have hleft : ∀ k, t'[k]? ≠ none → ¬ Garbage t oldest k ∧ t[k]? = t'[k]? := by
    intro k hk
    have hk' := h k
    split_ifs at hk' with hg
    · exact absurd hk' hk
    · use fun hg' => hg ⟨hg', trivial⟩, hk'.symm
  rintro ⟨hle, htomb | ⟨hstored, n, hlt, hn, hnewer⟩⟩
  · obtain ⟨hkept, heq⟩ := hleft k (by simp [htomb])
    apply hkept
    use hle, .inl (heq.trans htomb)
  · obtain ⟨hkept, heq⟩ := hleft k hstored
    apply hkept
    use hle
    right
    use heq ▸ hstored, n, hlt, hn, (hleft _ hnewer).2 ▸ hnewer

/-- A second cycle finds nothing. -/
theorem Swept.again (h : Swept oldest s₀ s removed scanned)
    (h' : Swept oldest s s' removed' scanned') :
  s' = s ∧ removed' = 0
  := by
  have htrees : s'.trees = s.trees := by
    funext cf
    apply ext_getElem?
    intro k
    rw [h'.swept, if_neg]
    intro hg
    apply (h.swept cf).not_garbage k hg.1
  have heq : s' = s := by rw [h'.frame, htrees]
  use heq
  have hremoved := h'.removed
  rw [heq] at hremoved
  omega

theorem garbage_new_iff :
  Garbage t oldest (.new key m) ↔ m ≤ oldest ∧ (Tree.versions t key m = some none
    ∨ Tree.versions t key m ≠ none ∧ ∃ n, m < n ∧ n ≤ oldest ∧ Tree.versions t key n ≠ none)
  := by
  apply and_congr WithTop.coe_le_coe
  apply or_congr Iff.rfl
  apply and_congr Iff.rfl
  constructor
  · rintro ⟨n, hlt, hle, hstored⟩
    obtain ⟨n', hn', hle'⟩ := version_of_le (k := ⟨key, n⟩) hle
    obtain rfl : n = n' := hn'
    use n', WithTop.coe_lt_coe.mp hlt, hle', hstored
  · rintro ⟨n, hlt, hle, hstored⟩
    use n, WithTop.coe_lt_coe.mpr hlt, WithTop.coe_le_coe.mpr hle, hstored

/-- Up to `version`, all `t'` holds of a key is the value a reader of `t` sees there. -/
def Compacted (version : ℕ) (t t' : Tree) : Prop :=
  ∀ key, match (View.newestSlot t version key).join with
    | some x => ∃ n ≤ version, ∀ m ≤ version,
        Tree.versions t' key m = if m = n then some (some x) else none
    | none => ∀ m ≤ version, Tree.versions t' key m = none

theorem SweptWhere.versions_eq (h : SweptWhere oldest (fun _ => True) t t') :
  (Garbage t oldest (.new key m) → Tree.versions t' key m = none)
    ∧ (¬ Garbage t oldest (.new key m) → Tree.versions t' key m = Tree.versions t key m)
  := by
  constructor
  · intro hg
    rw [Tree.versions, h, if_pos ⟨hg, trivial⟩]
  · intro hg
    rw [Tree.versions, h, if_neg (mt And.left hg), Tree.versions]

/-- A complete sweep leaves the newest values only. -/
theorem SweptWhere.compacted {version : ℕ} (h : SweptWhere version (fun _ => True) t t') :
  Compacted version t t'
  := by
  intro key
  have hsees := View.sees_newestSlot t version key
  -- nothing is left of a key besides its newest version
  have hother : ∀ {n s}, Newest (Tree.versions t) key version n s → ∀ m ≤ version, m ≠ n →
      Tree.versions t' key m = none := by
    rintro n s ⟨hle, hs, hno⟩ m hm hne
    by_cases hg : Garbage t version (.new key m)
    · apply h.versions_eq.1 hg
    · rw [h.versions_eq.2 hg]
      rcases lt_or_gt_of_ne hne with hlt | hlt
      · by_contra hstored
        apply hg
        rw [garbage_new_iff]
        use hm
        right
        use hstored, n, hlt, hle
        simp [hs]
      · apply hno m hlt hm
  cases hx : (View.newestSlot t version key).join with
  | some x =>
    rw [hx] at hsees
    obtain ⟨n, hnew⟩ := hsees.resolve_right (by simp)
    use n, hnew.1
    intro m hm
    split_ifs with heq
    · rw [heq, h.versions_eq.2, hnew.2.1]
      rw [garbage_new_iff]
      rintro ⟨-, htomb | ⟨-, n', hlt, hle, hstored⟩⟩
      · rw [hnew.2.1] at htomb
        cases htomb
      · apply hstored (hnew.2.2 n' hlt hle)
    · apply hother hnew m hm heq
  | none =>
    rw [hx] at hsees
    intro m hm
    rcases hsees with ⟨n, hnew⟩ | ⟨-, hnone⟩
    · by_cases heq : m = n
      · apply h.versions_eq.1
        rw [garbage_new_iff, heq]
        use hnew.1, .inl hnew.2.1
      · apply hother hnew m hm heq
    · by_cases hg : Garbage t version (.new key m)
      · apply h.versions_eq.1 hg
      · rw [h.versions_eq.2 hg, hnone m hm]

/-- A sweep leaves the versions above `oldest`. -/
theorem SweptWhere.versions_of_lt (h : SweptWhere oldest (fun _ => True) t t') (hm : oldest < m) :
  Tree.versions t' key m = Tree.versions t key m
  := by
  apply h.versions_eq.2
  rw [garbage_new_iff]
  rintro ⟨hle, -⟩
  exact absurd hle hm.not_ge

/-- Without live views the oldest live version is the visible one. -/
theorem Shared.oldestLiveVersion_of_idle (h : ∀ shard, s.registry shard = ∅) :
  s.oldestLiveVersion = s.visible
  := by
  have hminima : s.registryMinima = [] := by
    rw [registryMinima, filterMap_eq_nil_iff]
    intro shard _
    rw [h]
    rfl
  rw [oldestLiveVersion, hminima]
  rfl

/-- A cycle of legs with any budgets ends as one full collection does, and a second cycle
removes nothing.  Without live views, what is left up to the visible version is one version of
every live key; versions above it stay. -/
theorem gcCycle_eq_collectGarbage (s : Shared) :
  ∃ s' removed,
    collectGarbage s = some (s', ⟨s.oldestLiveVersion, removed, s.stored, true⟩)
    ∧ removed + s'.stored = s.stored
    ∧ (∀ budget fuel, s.stored + 3 ≤ fuel →
      gcCycle budget fuel 0 s .start ⟨0, 0, 0, false⟩ = collectGarbage s)
    ∧ (∀ budget fuel, s'.stored + 3 ≤ fuel →
      gcCycle budget fuel 0 s' .start ⟨0, 0, 0, false⟩
        = some (s', ⟨s.oldestLiveVersion, 0, s'.stored, true⟩))
    ∧ ((∀ shard, s.registry shard = ∅) → ∀ cf, Compacted s.visible (s.trees cf) (s'.trees cf)
      ∧ ∀ key m, s.visible < m →
        Tree.versions (s'.trees cf) key m = Tree.versions (s.trees cf) key m)
  := by
  have hcycle : ∀ (s : Shared) budget fuel, s.stored + 3 ≤ fuel → ∃ s' removed,
      gcCycle budget fuel 0 s .start ⟨0, 0, 0, false⟩
        = some (s', ⟨s.oldestLiveVersion, removed, s.stored, true⟩)
      ∧ Swept s.oldestLiveVersion s s' removed s.stored := by
    intro s budget fuel hfuel
    apply gcCycle_sweeps budget (Sweeping.start ..) ((s.walksLeft_le _).trans hfuel)
  obtain ⟨s', removed, hcollect, hswept⟩ := hcycle s (fun _ => usizeMax) (s.stored + 3) le_rfl
  use s', removed, hcollect, hswept.removed
  constructor
  · intro budget fuel hfuel
    obtain ⟨s'', removed', hrun, hswept'⟩ := hcycle s budget fuel hfuel
    obtain ⟨rfl, rfl⟩ := hswept.unique hswept'
    rw [hrun, collectGarbage, hcollect]
  constructor
  · intro budget fuel hfuel
    obtain ⟨s'', removed', hrun, hswept'⟩ := hcycle s' budget fuel hfuel
    have hlive : s'.oldestLiveVersion = s.oldestLiveVersion := by
      rw [hswept.frame]
      rfl
    rw [hlive] at hrun hswept'
    obtain ⟨rfl, rfl⟩ := hswept.again hswept'
    apply hrun
  · intro hidle cf
    rw [Shared.oldestLiveVersion_of_idle hidle] at hswept
    use (hswept.swept cf).compacted
    intro key m hm
    apply (hswept.swept cf).versions_of_lt hm

/-- An engine that holds two versions of one key and a tombstone of another. -/
def rewrittenEngine : Shared :=
  let s := (Shared.new.apply [.put .default [1] [10], .put .write [2] [20]] none fun _ => true).1
  (s.apply [.put .default [1] [11], .delete .write [2]] none fun _ => true).1

/-- Legs of one entry each collect what a full collection does, and leave the newest value. -/
theorem gcCycle_rewrittenEngine :
  (∀ shard, rewrittenEngine.registry shard = ∅) ∧ ∃ s' removed,
    collectGarbage rewrittenEngine = some (s', ⟨2, removed, 4, true⟩)
    ∧ gcCycle (fun _ => 1) 7 0 rewrittenEngine .start ⟨0, 0, 0, false⟩
      = collectGarbage rewrittenEngine
    ∧ Compacted 2 (rewrittenEngine.trees .default) (s'.trees .default)
  := by
  have hidle : ∀ shard, rewrittenEngine.registry shard = ∅ := fun _ => rfl
  obtain ⟨s', removed, hcollect, -, hcycle, -, hleft⟩ := gcCycle_eq_collectGarbage rewrittenEngine
  use hidle, s', removed, hcollect, hcycle (fun _ => 1) 7 (by decide), (hleft hidle .default).1

/-- An engine whose second batch failed after one of its rows. -/
def failedBatch : Shared × Except Error Unit :=
  let s := (Shared.new.apply [.put .default [1] [10]] none fun _ => true).1
  s.apply [.put .default [1] [11], .put .default [2] [12]] none (· = 0)

/-- The row a failed batch left is above the visible version, so that two versions of one key
are left although there is no live view. -/
theorem collectGarbage_failedBatch :
  failedBatch.2 = .error .outOfMemory
    ∧ (∀ shard, failedBatch.1.registry shard = ∅)
    ∧ (collectGarbage failedBatch.1).map (fun r =>
        (Tree.versions (r.1.trees .default) [1] 1, Tree.versions (r.1.trees .default) [1] 2))
      = some (some (some [10]), some (some [11]))
  := by
  decide

end Kv9.Engine
