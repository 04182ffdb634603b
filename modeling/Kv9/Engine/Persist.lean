import Kv9.Engine.Wal.Legacy
import Kv9.Engine.Refinement

/-!
# The engine over a log

A write goes to the log first and then to the index, so that the index shows nothing that is
not on the disk.  Opening reads the records back into an empty index.  The index of an engine
that is healthy, and of one that is opened after a crash, is what the records of its log come
to.
-/

namespace Kv9.Engine

open LegacyWal Framing Except

/-- Why the engine refuses. -/
inductive PersistError where
  | wal (error : LegacyError)
  | positionMustAdvance
  | index (error : Error)
deriving DecidableEq

/-- An engine: its log and its index. -/
structure WalEngine where
  wal : LegacyWal.Wal
  index : MemState

namespace WalEngine

/-- An engine over an empty log. -/
def empty : WalEngine := ⟨⟨[], none, false⟩, .empty⟩

/-- `write`.  `disk` says after how many bytes the write to the disk fails, if it does. -/
def write (e : WalEngine) (batch : WriteBatch) (disk : Option ℕ) :
    WalEngine × Except PersistError Unit :=
  match e.wal.append batch none disk with
  | (w, .ok ()) => (⟨w, e.index.writeBatch batch⟩, .ok ())
  | (w, .error reason) => (⟨w, e.index⟩, .error (.wal reason))

/-- `write_applied`. -/
def writeApplied (e : WalEngine) (batch : WriteBatch) (pos : AppliedPosition)
    (disk : Option ℕ) : WalEngine × Except PersistError Unit :=
  if ∃ p ∈ e.index.applied, pos.index ≤ p.index then (e, .error .positionMustAdvance)
  else
    match e.wal.append batch (some pos) disk with
    | (w, .ok ()) =>
      match e.index.writeApplied batch pos with
      | .ok index => (⟨w, index⟩, .ok ())
      | .error reason => (⟨w, e.index⟩, .error (.index reason))
    | (w, .error reason) => (⟨w, e.index⟩, .error (.wal reason))

/-- A write, with the position at which it applies if it has one. -/
def writeAt (e : WalEngine) (batch : WriteBatch) (pos : Option AppliedPosition)
    (disk : Option ℕ) : WalEngine × Except PersistError Unit :=
  match pos with
  | none => e.write batch disk
  | some pos => e.writeApplied batch pos disk

/-- `applied_position`: an engine whose log has failed does not say. -/
def appliedPosition (e : WalEngine) : Except PersistError (Option AppliedPosition) :=
  if e.wal.poisoned then .error (.wal .poisoned) else .ok e.index.applied

/-- Replay a record into the index. -/
def replayRecord (index : MemState) (r : Wal.Record) : Except PersistError MemState :=
  match r.position with
  | some pos => (index.writeApplied r.batch pos).mapError .index
  | none => .ok (index.writeBatch r.batch)

/-- Open the engine of a log that has no checkpoint; answers how many records were replayed. -/
def openLog (file : Bytes) : Except PersistError (WalEngine × ℕ) := do
  let (wal, replay) ← (openMode true file).2.mapError .wal
  let index ← replay.records.foldlM replayRecord .empty
  return (⟨wal, index⟩, replay.records.length)

end WalEngine

/-! ## What the records come to -/

/-- What a record does to the index. -/
def MemState.after (t : MemState) (e : Entry) : MemState :=
  match e.form.position with
  | some pos => t.record e.batch pos
  | none => t.writeBatch e.batch

/-- What the records of a log come to. -/
def contents (es : List Entry) : MemState := es.foldl MemState.after .empty

theorem contents_append (es : List Entry) (e : Entry) :
  contents (es ++ [e]) = (contents es).after e
  := List.foldl_concat ..

theorem MemState.applied_after (t : MemState) (e : Entry) :
  (t.after e).applied = e.form.position.or t.applied
  := by
  rw [after]
  cases e.form.position with
  | none => apply applied_writeBatch
  | some pos => rfl

theorem applied_contents (es : List Entry) :
  (contents es).applied = latest none es
  := by
  induction es using List.reverseRecOn with
  | nil => rfl
  | append_singleton es e ih => rw [contents_append, MemState.applied_after, ih, latest_append]

variable {t : MemState} {pos : Option AppliedPosition}

/-- A position that passes the check of the log passes that of the index. -/
theorem MemState.writeApplied_of_checkPosition {pos : AppliedPosition}
    (h : checkPosition t.applied pos = .ok ()) (batch : WriteBatch) :
  t.writeApplied batch pos = .ok (t.record batch pos)
  := by
  rw [writeApplied]
  cases happlied : t.applied with
  | none => rfl
  | some p =>
    rw [happlied] at h
    exact if_neg (failIf_eq_ok.mp h)

variable {es : List Entry}

/-- Records whose positions advance are replayed. -/
theorem foldlM_replayRecord (h : Advances t.applied es) :
  (es.map Entry.record).foldlM WalEngine.replayRecord t = .ok (es.foldl MemState.after t)
  := by
  induction es generalizing t with
  | nil => rfl
  | cons e es ih =>
    have hone : WalEngine.replayRecord t e.record = .ok (t.after e) := by
      obtain ⟨hcheck, -⟩ := h
      rw [checkForm] at hcheck
      rw [WalEngine.replayRecord, MemState.after, Entry.record]
      cases hpos : e.form.position with
      | none => rfl
      | some pos =>
        rw [hpos] at hcheck
        simp only [MemState.writeApplied_of_checkPosition hcheck]
        rfl
    rw [List.map_cons, List.foldlM_cons, hone]
    apply ih
    rw [MemState.applied_after]
    apply h.2

/-! ## What the engine maintains -/

/-- The log of the engine is over the records, and unless it has failed the index is what they
come to. -/
structure WalEngine.Holds (e : WalEngine) (es : List Entry) : Prop where
  kept : Kept ⟨e.wal, es⟩
  index : e.wal.poisoned = false → e.index = contents es

variable {e : WalEngine}

theorem WalEngine.Holds.applied (h : e.Holds es) (hhealthy : e.wal.poisoned = false) :
  e.wal.applied = e.index.applied
  := by
  rw [h.index hhealthy, applied_contents]
  apply (h.kept.healthy hhealthy).2

theorem WalEngine.holds_empty :
  empty.Holds []
  where
  kept := Kept.opened (List.forall_mem_nil _) trivial
  index _ := rfl

/-- A write whose position advances goes to the log and, if the disk does not fail, to the
index. -/
theorem WalEngine.writeAt_eq (hcheck : checkForm e.index.applied (Wal.formOf pos) = .ok ())
    (batch : WriteBatch) (disk : Option ℕ) :
  e.writeAt batch pos disk
    = match e.wal.append batch pos disk with
      | (w, .ok ()) => (⟨w, e.index.after ⟨Wal.formOf pos, batch⟩⟩, .ok ())
      | (w, .error reason) => (⟨w, e.index⟩, .error (.wal reason))
  := by
  cases pos with
  | none => rfl
  | some pos =>
    have hpos : checkPosition e.index.applied pos = .ok () := hcheck
    have hadvances : ¬ ∃ p ∈ e.index.applied, pos.index ≤ p.index := by
      rintro ⟨p, hp, hle⟩
      rw [Option.mem_def.mp hp] at hpos
      apply failIf_eq_ok.mp hpos hle
    rw [writeAt, writeApplied, if_neg hadvances, MemState.writeApplied_of_checkPosition hpos]
    rfl

/-- All that a write can do: it is refused and nothing changes, or it is one more record, whole
in the log and in the index or cut by the failure of the disk. -/
theorem WalEngine.Holds.writeAt_cases {e' : WalEngine} (h : e.Holds es) {batch : WriteBatch} {disk : Option ℕ} {answer : Except PersistError Unit}
    (hwrite : e.writeAt batch pos disk = (e', answer)) :
  (e' = e ∧ ∃ reason, reason ≠ .wal .io ∧ answer = .error reason)
    ∨ e.wal.poisoned = false ∧ checkForm e.index.applied (Wal.formOf pos) = .ok ()
      ∧ e'.Holds (es ++ [⟨Wal.formOf pos, batch⟩])
      ∧ (e'.wal.poisoned = true ∧ e'.index = e.index ∧ answer = .error (.wal .io)
        ∨ e'.wal.poisoned = false ∧ answer = .ok ())
  := by
  rcases e.wal.append_cases batch pos disk with
    ⟨reason, hio, happend⟩ | ⟨hpoisoned, -, hcheck, hcase⟩
  · left
    cases pos with
    | none =>
      rw [writeAt, write, happend] at hwrite
      cases hwrite
      exact ⟨rfl, _, fun hwal => hio (PersistError.wal.inj hwal), rfl⟩
    | some pos =>
      rw [writeAt, writeApplied, happend] at hwrite
      split_ifs at hwrite
      · cases hwrite
        exact ⟨rfl, .positionMustAdvance, by simp, rfl⟩
      · cases hwrite
        exact ⟨rfl, _, fun hwal => hio (PersistError.wal.inj hwal), rfl⟩
  · right
    rw [h.applied hpoisoned] at hcheck
    rw [writeAt_eq hcheck] at hwrite
    have hkept := h.kept.append batch pos disk
    rcases hcase with ⟨n, -, happend⟩ | ⟨-, happend⟩
    · rw [Life.append, happend] at hkept
      rw [happend] at hwrite
      cases hwrite
      use hpoisoned, hcheck, ⟨hkept, (by simp)⟩
      apply Or.inl ⟨rfl, rfl, rfl⟩
    · rw [Life.append, happend] at hkept
      rw [happend] at hwrite
      cases hwrite
      use hpoisoned, hcheck
      constructor
      · use hkept
        intro _
        rw [contents_append, h.index hpoisoned]
      · apply Or.inr ⟨hpoisoned, rfl⟩

/-- However the file of the log is cut, the engine opens over the whole records that are left. -/
theorem WalEngine.Holds.openLog (h : e.Holds es) (n : ℕ) :
  ∃ (e' : WalEngine) (k : ℕ), WalEngine.openLog (e.wal.file.take n) = .ok (e', k)
    ∧ e'.wal.poisoned = false ∧ e'.Holds (es.take k)
  := by
  let x : Life := ⟨e.wal, es⟩
  have hsub : x.whole n <+: es := wholeWithin_prefix ..
  have hopen := h.kept.recovers true n
  have hkept := h.kept.step (.reopen true n)
  rw [Life.step, hopen] at hkept
  use ⟨(Life.opened (x.whole n)).wal, contents (x.whole n)⟩, (x.whole n).length
  constructor
  · have hcut : openMode true (e.wal.file.take n) = _ := hopen
    have hreplay : ((x.whole n).map Entry.record).foldlM replayRecord .empty
        = .ok (contents (x.whole n)) :=
      foldlM_replayRecord (h.kept.advances.of_prefix hsub)
    rw [WalEngine.openLog, hcut]
    simp only [Except.mapError, ok_bind]
    rw [hreplay, ok_bind, pure_eq_ok, List.length_map]
  · use rfl
    rw [← List.prefix_iff_eq_take.mp hsub]
    use hkept
    intro _
    rfl

end Kv9.Engine
