import Kv9.Common.Keys

/-!
# The log in memory

The Raft library reads its log from a storage in memory: the entries after a cut, the hard state
and the configuration.  Appending replaces what was there from the first new index on; applying a
snapshot drops the entries and goes on from its cut.  The library stops the process when an entry
would leave a gap or lie before the cut.

Terms and indices are natural numbers here; where the code compares one with the largest 64-bit
number, so does the model.
-/

namespace Kv9.Raft.Storage

open Except List

/-- The largest index of the code. -/
def maxIndex : ℕ := 2 ^ 64 - 1

/-- The position of an entry. -/
structure Position where
  term : ℕ
  index : ℕ
deriving DecidableEq, Repr

/-- The members of a group, with the fields of the message that this version does not know. -/
structure ConfState where
  voters : List UInt64
  votersOutgoing : List UInt64
  learners : List UInt64
  learnersNext : List UInt64
  autoLeave : Bool
  unknownFields : Bytes
deriving DecidableEq, Repr

/-- A configuration of voters only. -/
def ConfState.ofVoters (voters : List UInt64) : ConfState := ⟨voters, [], [], [], false, []⟩

/-- The term, the vote in it, and the last committed index. -/
structure HardState where
  term : ℕ
  vote : ℕ
  commit : ℕ
  unknownFields : Bytes
deriving DecidableEq, Repr

/-- The state before any vote. -/
def HardState.default : HardState := ⟨0, 0, 0, []⟩

/-- The kinds of entries. -/
inductive EntryType where
  | normal
  | confChange
  | confChangeV2
deriving DecidableEq, Repr

/-- An entry of the log. -/
structure Entry where
  entryType : EntryType
  term : ℕ
  index : ℕ
  data : Bytes
deriving DecidableEq, Repr

/-- Whether entries of a kind change the configuration. -/
def isConfiguration : EntryType → Bool
  | .normal => false
  | .confChange => true
  | .confChangeV2 => true

/-- A snapshot: its cut, the configuration there and the data. -/
structure Snapshot where
  cut : Position
  confState : ConfState
  data : Bytes
  unknownFields : Bytes
deriving DecidableEq, Repr

/-! ## Entries in a row -/

/-- The indices of the entries are `k`, `k + 1` and so on. -/
def Contiguous : ℕ → List Entry → Prop
  | _, [] => True
  | k, e :: es => e.index = k ∧ Contiguous (k + 1) es

instance Contiguous.decidable : ∀ (k : ℕ) (es : List Entry), Decidable (Contiguous k es)
  | _, [] => .isTrue trivial
  | k, e :: es =>
    have := Contiguous.decidable (k + 1) es
    inferInstanceAs (Decidable (e.index = k ∧ Contiguous (k + 1) es))

section

variable {k : ℕ} {es es' : List Entry} {e : Entry}

theorem contiguous_append :
  Contiguous k (es ++ es') ↔ Contiguous k es ∧ Contiguous (k + es.length) es'
  := by
  induction es generalizing k with
  | nil => simp [Contiguous]
  | cons e es ih =>
    rw [cons_append, Contiguous, Contiguous, ih, and_assoc, length_cons,
      Nat.add_assoc, Nat.add_comm 1]

theorem Contiguous.getElem? (h : Contiguous k es) {i : ℕ} (he : es[i]? = some e) :
  e.index = k + i
  := by
  induction es generalizing k i with
  | nil => nomatch he
  | cons e' es ih =>
    cases i with
    | zero =>
      obtain rfl := Option.some.inj he
      apply h.1
    | succ i =>
      have := ih h.2 he
      omega

theorem Contiguous.of_mem (h : Contiguous k es) (he : e ∈ es) :
  k ≤ e.index ∧ e.index < k + es.length ∧ es[e.index - k]? = some e
  := by
  obtain ⟨i, hi⟩ := mem_iff_getElem?.mp he
  have hlt := (List.getElem?_eq_some_iff.mp hi).1
  have hindex := h.getElem? hi
  have : e.index - k = i := by omega
  rw [this]
  exact ⟨by omega, by omega, hi⟩

theorem Contiguous.take (h : Contiguous k es) (n : ℕ) :
  Contiguous k (es.take n)
  := by
  rw [← take_append_drop n es, contiguous_append] at h
  apply h.1

theorem Contiguous.drop (h : Contiguous k es) (n : ℕ) :
  Contiguous (k + n) (es.drop n)
  := by
  induction n generalizing k es with
  | zero => exact h
  | succ n ih =>
    cases es with
    | nil => trivial
    | cons e es =>
      have := ih h.2
      rw [Nat.add_assoc, Nat.add_comm 1] at this
      exact this

end

/-! ## The storage -/

/-- Why the storage refuses.  The last one stops the process. -/
inductive MemError where
  | compacted
  | unavailable
  | snapshotOutOfDate
  | panicked
deriving DecidableEq, Repr

def MemError.text : MemError → String
  | .compacted => "log compacted"
  | .unavailable => "log unavailable"
  | .snapshotOutOfDate => "snapshot out of date"
  | .panicked => "the process stopped"

/-- The storage in memory. -/
structure MemStorage where
  cut : Position
  entries : List Entry
  hardState : HardState
  confState : ConfState
deriving DecidableEq, Repr

namespace MemStorage

/-- An empty storage. -/
def new : MemStorage := ⟨⟨0, 0⟩, [], .default, .ofVoters []⟩

/-- The first index that is held. -/
def firstIndex (m : MemStorage) : ℕ :=
  match m.entries.head? with
  | some e => e.index
  | none => m.cut.index + 1

/-- The last index that is held. -/
def lastIndex (m : MemStorage) : ℕ :=
  match m.entries.getLast? with
  | some e => e.index
  | none => m.cut.index

/-- The term of an entry, or of the cut. -/
def term (m : MemStorage) (index : ℕ) : Except MemError ℕ :=
  if index = m.cut.index then .ok m.cut.term
  else if index < m.firstIndex then .error .compacted
  else if m.lastIndex < index then .error .unavailable
  else
    match m.entries[index - m.firstIndex]? with
    | some e => .ok e.term
    | none => .error .panicked

/-- The entries of `[low, high)`. -/
def slice (m : MemStorage) (low high : ℕ) : Except MemError (List Entry) :=
  if low < m.firstIndex then .error .compacted
  else if m.lastIndex + 1 < high then .error .panicked
  else
    match m.entries.head? with
    | some e => .ok ((m.entries.drop (low - e.index)).take (high - low))
    | none => .error .panicked

/-- Append entries, replacing those from the first new index on. -/
def append (m : MemStorage) : List Entry → Except MemError MemStorage
  | [] => .ok m
  | e :: es =>
    if e.index < m.firstIndex then .error .panicked
    else if m.lastIndex + 1 < e.index then .error .panicked
    else .ok { m with entries := m.entries.take (e.index - m.firstIndex) ++ e :: es }

/-- The storage without entries, going on from a cut. -/
def restart (m : MemStorage) (cut : Position) (confState : ConfState) : MemStorage where
  cut := cut
  entries := []
  hardState := { m.hardState with
    term := max m.hardState.term cut.term
    commit := cut.index }
  confState := confState

/-- Drop the entries and go on from a cut. -/
def applySnapshot (m : MemStorage) (cut : Position) (confState : ConfState) :
    Except MemError MemStorage :=
  if cut.index < m.firstIndex then .error .snapshotOutOfDate else .ok (m.restart cut confState)

def setHardstate (m : MemStorage) (hs : HardState) : MemStorage := { m with hardState := hs }

def setConfState (m : MemStorage) (cs : ConfState) : MemStorage := { m with confState := cs }

/-- The entries follow the cut without a gap. -/
def Wf (m : MemStorage) : Prop := Contiguous (m.cut.index + 1) m.entries

/-- The entry at an index. -/
def entry? (m : MemStorage) (index : ℕ) : Option Entry :=
  if index ≤ m.cut.index then none else m.entries[index - (m.cut.index + 1)]?

/-- The entries `es` go on from an index that is held, or from the end. -/
structure Continues (m : MemStorage) (es : List Entry) : Prop where
  contiguous : ∀ e ∈ es.head?, Contiguous e.index es
  above : ∀ e ∈ es.head?, m.cut.index < e.index
  reached : ∀ e ∈ es.head?, e.index ≤ m.cut.index + m.entries.length + 1

variable {m m' : MemStorage} {es es' : List Entry} {e : Entry} {i j : ℕ}

theorem wf_new :
  new.Wf
  := trivial

theorem Wf.firstIndex (h : m.Wf) :
  m.firstIndex = m.cut.index + 1
  := by
  unfold MemStorage.firstIndex
  unfold Wf at h
  cases hentries : m.entries with
  | nil => rfl
  | cons e es =>
    rw [hentries] at h
    apply h.1

theorem Wf.lastIndex (h : m.Wf) :
  m.lastIndex = m.cut.index + m.entries.length
  := by
  rw [MemStorage.lastIndex, List.getLast?_eq_getElem?]
  cases he : m.entries[m.entries.length - 1]? with
  | none =>
    have := List.getElem?_eq_none_iff.mp he
    dsimp only
    omega
  | some e =>
    have hlt := (List.getElem?_eq_some_iff.mp he).1
    have hindex := Contiguous.getElem? h he
    dsimp only
    omega

theorem Wf.entry?_eq_some (h : m.Wf) :
  m.entry? i = some e ↔ e ∈ m.entries ∧ e.index = i
  := by
  unfold entry?
  constructor
  · intro he
    split_ifs at he with hi
    have hindex := Contiguous.getElem? h he
    use mem_of_getElem? he, by omega
  · rintro ⟨he, rfl⟩
    obtain ⟨hlow, -, hget⟩ := Contiguous.of_mem h he
    rw [if_neg (by omega), hget]

theorem Wf.entry?_isSome (h : m.Wf) :
  (m.entry? i).isSome ↔ m.cut.index < i ∧ i ≤ m.lastIndex
  := by
  unfold entry?
  rw [h.lastIndex]
  split_ifs with hi
  · simp only [Option.isSome_none, Bool.false_eq_true, false_iff]
    omega
  · rw [Option.isSome_iff_ne_none, ne_eq, List.getElem?_eq_none_iff]
    omega

theorem Wf.term_eq (h : m.Wf) (hi : m.cut.index < i) :
  m.term i = match m.entry? i with
    | some e => .ok e.term
    | none => .error .unavailable
  := by
  have hsome := h.entry?_isSome (i := i)
  unfold MemStorage.term
  rw [if_neg (by omega), h.firstIndex, if_neg (by omega)]
  unfold entry? at hsome ⊢
  rw [if_neg (not_le.mpr hi)] at hsome ⊢
  split_ifs with hlast
  · have : m.entries[i - (m.cut.index + 1)]? = none := by
      rw [← Option.not_isSome_iff_eq_none, hsome]
      omega
    rw [this]
  · obtain ⟨e, he⟩ := Option.isSome_iff_exists.mp (hsome.mpr ⟨hi, by omega⟩)
    rw [he]

theorem Wf.applySnapshot (h : m.Wf) {cut : Position} (confState : ConfState)
    (habove : m.cut.index < cut.index) :
  m.applySnapshot cut confState = .ok (m.restart cut confState)
  := by
  rw [MemStorage.applySnapshot, if_neg]
  rw [h.firstIndex]
  omega

@[simp]
theorem term_cut :
  m.term m.cut.index = .ok m.cut.term
  := if_pos rfl

theorem Wf.slice_one (h : m.Wf) (he : m.entry? i = some e) :
  m.slice i (i + 1) = .ok [e]
  := by
  have hbound := h.entry?_isSome.mp (Option.isSome_iff_exists.mpr ⟨e, he⟩)
  unfold entry? at he
  rw [if_neg (by omega)] at he
  unfold slice
  rw [if_neg (by rw [h.firstIndex]; omega), if_neg (by omega)]
  have hfirst := h.firstIndex
  unfold MemStorage.firstIndex at hfirst
  cases hhead : m.entries.head? with
  | none =>
    rw [List.head?_eq_none_iff] at hhead
    rw [hhead] at he
    nomatch he
  | some e₀ =>
    rw [hhead] at hfirst
    dsimp only at hfirst ⊢
    rw [hfirst, Nat.add_sub_cancel_left]
    obtain ⟨hlt, rfl⟩ := List.getElem?_eq_some_iff.mp he
    rw [drop_eq_getElem_cons hlt, take_succ_cons, take_zero]

/-- The entries from one after the cut on. -/
theorem Wf.slice_tail (h : m.Wf) (hi : m.cut.index < i) (hlast : i ≤ m.lastIndex) :
  m.slice i (m.lastIndex + 1) = .ok (m.entries.drop (i - (m.cut.index + 1)))
  := by
  have hl := h.lastIndex
  have hfirst := h.firstIndex
  unfold slice
  rw [if_neg (by omega), if_neg (by omega)]
  unfold MemStorage.firstIndex at hfirst
  cases hhead : m.entries.head? with
  | none =>
    rw [List.head?_eq_none_iff] at hhead
    rw [hhead, length_nil] at hl
    omega
  | some e₀ =>
    rw [hhead] at hfirst
    dsimp only at hfirst ⊢
    rw [hfirst, take_of_length_le]
    rw [length_drop]
    omega

/-! ## Appending -/

theorem continues_nil :
  m.Continues []
  := ⟨nofun, nofun, nofun⟩

theorem Continues.front (h : m.Continues (es ++ es')) :
  m.Continues es
  := by
  cases es with
  | nil => apply continues_nil
  | cons e es =>
    refine ⟨?_, h.above, h.reached⟩
    intro e' he'
    apply (contiguous_append.mp (h.contiguous e' he')).1

/-- The entries after `es` were appended. -/
def overwrite (m : MemStorage) : List Entry → List Entry
  | [] => m.entries
  | e :: es => m.entries.take (e.index - (m.cut.index + 1)) ++ e :: es

/-- Entries that continue the log can be appended. -/
theorem Wf.append (h : m.Wf) (hes : m.Continues es) :
  m.append es = .ok { m with entries := m.overwrite es }
  := by
  cases es with
  | nil => rfl
  | cons e es =>
    have habove := hes.above e rfl
    have hreached := hes.reached e rfl
    rw [MemStorage.append, h.firstIndex, h.lastIndex, if_neg (by omega), if_neg (by omega),
      overwrite]

theorem Wf.overwrite (h : m.Wf) (hes : m.Continues es) :
  Wf { m with entries := m.overwrite es }
  := by
  cases es with
  | nil => exact h
  | cons e es =>
    have habove := hes.above e rfl
    have hreached := hes.reached e rfl
    apply contiguous_append.mpr
    use Contiguous.take h _
    have : m.cut.index + 1 + (m.entries.take (e.index - (m.cut.index + 1))).length = e.index := by
      rw [length_take]
      omega
    rw [this]
    apply hes.contiguous e rfl

/-- Entries that continue the log continue it one by one. -/
theorem Continues.next (hes : m.Continues (e :: es)) :
  Continues { m with entries := m.overwrite [e] } es
  := by
  have hcont := (hes.contiguous e rfl).2
  have habove := hes.above e rfl
  have hreached := hes.reached e rfl
  cases es with
  | nil => apply continues_nil
  | cons e' es =>
    have he' := hcont.1
    constructor
    · rintro _ ⟨⟩
      rw [he']
      apply hcont
    · rintro _ ⟨⟩
      dsimp only
      omega
    · rintro _ ⟨⟩
      dsimp only [MemStorage.overwrite]
      rw [length_append, length_take, length_singleton]
      omega

/-- Appending the entries one by one gives the same entries. -/
theorem overwrite_next (hes : m.Continues (e :: es)) :
  MemStorage.overwrite { m with entries := m.overwrite [e] } es = m.overwrite (e :: es)
  := by
  have hcont := (hes.contiguous e rfl).2
  have habove := hes.above e rfl
  have hreached := hes.reached e rfl
  cases es with
  | nil => rfl
  | cons e' es =>
    have he' := hcont.1
    have hlen : (m.entries.take (e.index - (m.cut.index + 1)) ++ [e]).length
        = e'.index - (m.cut.index + 1) := by
      rw [length_append, length_take, length_singleton]
      omega
    dsimp only [MemStorage.overwrite]
    rw [← hlen, take_length, append_assoc, singleton_append]

end MemStorage

end Kv9.Raft.Storage
