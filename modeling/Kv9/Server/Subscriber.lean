import Kv9.Engine.Persist
import Kv9.Engine.RangeDelete
import Kv9.Meta.Scope.Keys

/-!
# The subscriber of a scoped node

A scoped node follows the catalog over a stream from a full node.  A snapshot comes in parts
and replaces the slice; a delta changes it.  Each is one write of the metadata engine, at the
position the frame names.  Streams end at any frame and are resumed from any server, writes
fail and the node crashes.

What the engine holds, its rows together with its position, is what some of the frames the
subscriber accepted come to, in order and from the first on.
-/

namespace Kv9.Server

open Engine LegacyWal Meta.Scope Except OrderedMap List

/-! ## Frames -/

/-- An operation of a frame. -/
structure ScopeOp where
  cf : UInt32
  key : Bytes
  value : Value
  delete : Bool
deriving DecidableEq

/-- A frame of a stream. -/
inductive Frame where
  | snapshotPart (ops : List ScopeOp)
  | snapshotEnd (pos : AppliedPosition) (ops : List ScopeOp)
  | delta (prev pos : AppliedPosition) (ops : List ScopeOp)
  | unknown (kind : UInt32)

/-- Why the subscriber refuses a frame. -/
inductive ScopeError where
  | engine (error : PersistError)
  | olderSnapshot (index slice : UInt64)
  | outOfPosition (prev : UInt64) (slice : Option UInt64)
  | columnFamily
  | unknownKind (kind : UInt32)
deriving DecidableEq

/-- What the marker of a slice holds. -/
def markerValue : Value := [115, 108, 105, 99, 101]

/-- The batch that replaces the slice: delete the rows that are not in the snapshot, put those
that are, and mark the slice. -/
def snapshotBatch (view : MemState) (rows : List ScopeOp) : WriteBatch :=
  ((forEach view allStart allEnd).filter fun e =>
      decide (e.1 ∉ sliceMarker :: rows.map ScopeOp.key)).map (fun e => .delete .default e.1)
    ++ rows.map (fun op => .put .default op.key op.value)
    ++ [.put .default sliceMarker markerValue]

/-- `install_snapshot`: at the position of the slice itself, without moving it. -/
def installSnapshot (e : WalEngine) (rows : List ScopeOp) (pos : AppliedPosition)
    (samePosition : Bool) (disk : Option ℕ) : WalEngine × Except PersistError Unit :=
  if samePosition then e.write (snapshotBatch e.index rows) disk
  else e.writeApplied (snapshotBatch e.index rows) pos disk

/-- The mutation of an operation of a delta. -/
def ScopeOp.mutation (op : ScopeOp) : Mutation :=
  if op.delete then .delete .default op.key else .put .default op.key op.value

/-- `apply_delta`. -/
def applyDelta (e : WalEngine) (ops : List ScopeOp) (pos : AppliedPosition) (disk : Option ℕ) :
    WalEngine × Except ScopeError Unit :=
  if ∃ op ∈ ops, op.cf ≠ 0 then (e, .error .columnFamily)
  else
    let (e, answer) := e.writeApplied (ops.map ScopeOp.mutation) pos disk
    (e, answer.mapError .engine)

/-- The engine, and the parts of a snapshot that the stream has brought so far. -/
structure Runner where
  engine : WalEngine
  parts : List ScopeOp

/-- `Runner::apply`. -/
def Runner.apply (r : Runner) (frame : Frame) (disk : Option ℕ) :
    Runner × Except ScopeError Unit :=
  match r.engine.appliedPosition with
  | .error reason => (r, .error (.engine reason))
  | .ok slice =>
    match frame with
    | .snapshotPart ops => (⟨r.engine, r.parts ++ ops⟩, .ok ())
    | .snapshotEnd pos ops =>
      let rows := r.parts ++ ops
      match slice with
      | some p =>
        if pos.index < p.index then
          (⟨r.engine, []⟩, .error (.olderSnapshot pos.index p.index))
        else
          let (e, answer) := installSnapshot r.engine rows pos (p = pos) disk
          (⟨e, []⟩, answer.mapError .engine)
      | none =>
        let (e, answer) := installSnapshot r.engine rows pos false disk
        (⟨e, []⟩, answer.mapError .engine)
    | .delta prev pos ops =>
      if slice ≠ some prev then
        (r, .error (.outOfPosition prev.index (slice.map AppliedPosition.index)))
      else if pos ≠ prev then
        let (e, answer) := applyDelta r.engine ops pos disk
        (⟨e, r.parts⟩, answer)
      else (r, .ok ())
    | .unknown kind => (r, .error (.unknownKind kind))

/-! ## Runs -/

/-- What an accepted frame changes. -/
inductive Accepted where
  | snapshot (pos : AppliedPosition) (rows : List ScopeOp)
  | delta (pos : AppliedPosition) (ops : List ScopeOp)

/-- What a frame changes, if it is accepted. -/
def Runner.changes (r : Runner) : Frame → Option Accepted
  | .snapshotPart _ => none
  | .snapshotEnd pos ops => some (.snapshot pos (r.parts ++ ops))
  | .delta prev pos ops => if pos ≠ prev then some (.delta pos ops) else none
  | .unknown _ => none

/-- A subscriber, with the changes it has accepted: those that reached the log, the last of
them perhaps in part, less those that a crash took. -/
structure Subscriber where
  runner : Runner
  accepted : List Accepted

/-- What happens to a subscriber: a frame of the stream, a new stream, from whatever server, or
a crash that leaves `n` bytes of the log. -/
inductive Event where
  | frame (frame : Frame) (disk : Option ℕ)
  | connect
  | crash (n : ℕ)

namespace Subscriber

/-- A node that has just been set up. -/
def start : Subscriber := ⟨⟨.empty, []⟩, []⟩

/-- The engine of the node. -/
def engine (x : Subscriber) : WalEngine := x.runner.engine

/-- A frame.  One that is refused ends the stream. -/
def receive (x : Subscriber) (frame : Frame) (disk : Option ℕ) : Subscriber :=
  match x.runner.apply frame disk with
  | (r, .ok ()) => ⟨r, x.accepted ++ (x.runner.changes frame).toList⟩
  | (r, .error (.engine (.wal .io))) =>
    ⟨⟨r.engine, []⟩, x.accepted ++ (x.runner.changes frame).toList⟩
  | (r, .error _) => ⟨⟨r.engine, []⟩, x.accepted⟩

/-- One event.  An engine that does not open stays as it is. -/
def step (x : Subscriber) : Event → Subscriber
  | .frame frame disk => x.receive frame disk
  | .connect => ⟨⟨x.engine, []⟩, x.accepted⟩
  | .crash n =>
    match WalEngine.openLog (x.engine.wal.file.take n) with
    | .ok (e, replayed) => ⟨⟨e, []⟩, x.accepted.take replayed⟩
    | .error _ => x

/-- A subscriber after some events. -/
def after (events : List Event) : Subscriber := events.foldl step start

end Subscriber

/-! ## What the changes come to -/

/-- What a reader of the slice sees: its rows and its position. -/
structure Slice where
  rows : Bytes → Option Value
  position : Option AppliedPosition

/-- A slice that holds nothing. -/
def Slice.empty : Slice := ⟨fun _ => none, none⟩

/-- The slice an index holds. -/
def slice (t : MemState) : Slice := ⟨fun key => (t.cf .default)[key]?, t.applied⟩

/-- The last of the operations on a key. -/
def lastOp (ops : List ScopeOp) (key : Bytes) : Option ScopeOp :=
  ops.reverse.find? fun op => decide (op.key = key)

/-- What an accepted frame makes of a slice: a snapshot replaces it, a delta changes it, and
both move it to their position. -/
def Slice.change (s : Slice) : Accepted → Slice
  | .snapshot pos rows =>
    ⟨fun key =>
      if key = sliceMarker then some markerValue
      else match lastOp rows key with
        | some op => some op.value
        | none => if key < allEnd then none else s.rows key, some pos⟩
  | .delta pos ops =>
    ⟨fun key =>
      match lastOp ops key with
      | some op => if op.delete then none else some op.value
      | none => s.rows key, some pos⟩

/-- What accepted frames come to. -/
def Slice.of (accepted : List Accepted) : Slice := accepted.foldl Slice.change .empty

theorem Slice.of_append (accepted : List Accepted) (a : Accepted) :
  Slice.of (accepted ++ [a]) = (Slice.of accepted).change a
  := foldl_concat ..

/-- What a batch with one mutation for each operation leaves at a key. -/
theorem lastSlot_ops {f : ScopeOp → Mutation} (hcf : ∀ op, (f op).cf = .default)
    (hkey : ∀ op, (f op).key = op.key) (ops : List ScopeOp) (key : Bytes) :
  lastSlot (ops.map f) .default key = (lastOp ops key).map fun op => (f op).slot
  := by
  rw [lastSlot, ← map_reverse, lastOp]
  simp [Function.comp_def, hcf, hkey]

theorem lastOp_eq_none_iff {ops : List ScopeOp} {key : Bytes} :
  lastOp ops key = none ↔ key ∉ ops.map ScopeOp.key
  := by
  simp [lastOp]

theorem getElem?_snapshotBatch (t : MemState) (rows : List ScopeOp) (key : Bytes)
    (pos : AppliedPosition) :
  ((t.writeBatch (snapshotBatch t rows)).cf .default)[key]?
    = ((slice t).change (.snapshot pos rows)).rows key
  := by
  have hdeletes : lastSlot (((forEach t allStart allEnd).filter fun e =>
      decide (e.1 ∉ sliceMarker :: rows.map ScopeOp.key)).map fun e => .delete .default e.1)
      .default key
      = if key < allEnd ∧ (t.cf .default)[key]? ≠ none ∧ key ∉ sliceMarker :: rows.map ScopeOp.key
        then some none else none := by
    rw [lastSlot_deleteEntries, forEach_eq]
    have hkeys : key ∈ ((t.rows .default allStart allEnd).filter fun e =>
        decide (e.1 ∉ sliceMarker :: rows.map ScopeOp.key)).map Prod.fst
        ↔ key ∈ (t.rows .default allStart allEnd).map Prod.fst
          ∧ key ∉ sliceMarker :: rows.map ScopeOp.key := by
      simp only [mem_map, mem_filter, decide_eq_true_eq]
      grind
    have hstart : allStart ≤ key := not_lt.mp (not_lt_nil key)
    simp only [true_and, hkeys, MemState.mem_keys_rows, hstart, and_assoc]
  have hputs := lastSlot_ops (f := fun op => .put .default op.key op.value) (fun _ => rfl)
    (fun _ => rfl) rows key
  rw [MemState.getElem?_writeBatch, snapshotBatch, lastSlot_append, lastSlot_append, hdeletes,
    hputs, lastSlot_singleton]
  simp only [Slice.change, Mutation.cf, Mutation.key, Mutation.slot, true_and]
  by_cases hmarker : key = sliceMarker
  · rw [if_pos hmarker, if_pos hmarker]
    rfl
  · rw [if_neg hmarker, if_neg hmarker]
    cases hlast : lastOp rows key with
    | some op => rfl
    | none =>
      have hother : key ∉ sliceMarker :: rows.map ScopeOp.key := by
        rw [mem_cons, not_or]
        use hmarker, lastOp_eq_none_iff.mp hlast
      by_cases hend : key < allEnd
      · rw [if_pos hend]
        by_cases hnone : (t.cf .default)[key]? = none
        · rw [if_neg (fun h => h.2.1 hnone)]
          apply hnone
        · rw [if_pos ⟨hend, hnone, hother⟩]
          rfl
      · rw [if_neg hend, if_neg (fun h => hend h.1)]
        rfl

theorem getElem?_delta (t : MemState) (ops : List ScopeOp) (key : Bytes) (pos : AppliedPosition) :
  ((t.writeBatch (ops.map ScopeOp.mutation)).cf .default)[key]?
    = ((slice t).change (.delta pos ops)).rows key
  := by
  have hmutation : ∀ op : ScopeOp, op.mutation.cf = .default ∧ op.mutation.key = op.key
      ∧ op.mutation.slot = if op.delete then none else some op.value := by
    intro op
    rw [ScopeOp.mutation]
    split_ifs <;> exact ⟨rfl, rfl, rfl⟩
  rw [MemState.getElem?_writeBatch, lastSlot_ops (fun op => (hmutation op).1)
    (fun op => (hmutation op).2.1)]
  simp only [Slice.change, slice]
  cases lastOp ops key with
  | none => rfl
  | some op => apply (hmutation op).2.2

/-! ## Frames and writes -/

theorem slice_after (t : MemState) (batch : WriteBatch) (pos : Option AppliedPosition) :
  slice (t.after ⟨Wal.formOf pos, batch⟩)
    = ⟨fun key => ((t.writeBatch batch).cf .default)[key]?, pos.or t.applied⟩
  := by
  cases pos with
  | none =>
    rw [← t.applied_writeBatch batch]
    rfl
  | some pos => rfl

/-- A write, as the answer to a frame. -/
structure Writes (r : Runner) (a : Accepted) (disk : Option ℕ) (e : WalEngine)
    (answer : Except ScopeError Unit) : Prop where
  healthy : r.engine.wal.poisoned = false
  write : ∃ batch pos written, r.engine.writeAt batch pos disk = (e, written)
    ∧ answer = written.mapError .engine
    ∧ slice (r.engine.index.after ⟨Wal.formOf pos, batch⟩) = (slice r.engine.index).change a

/-- A snapshot is one write of its rows, which leaves the slice at its position. -/
theorem writes_snapshot {r : Runner} (hhealthy : r.engine.wal.poisoned = false)
    {rows : List ScopeOp} {pos : AppliedPosition} {samePosition : Bool}
    (hsame : samePosition = true → r.engine.index.applied = some pos) (disk : Option ℕ) :
  Writes r (.snapshot pos rows) disk (installSnapshot r.engine rows pos samePosition disk).1
    ((installSnapshot r.engine rows pos samePosition disk).2.mapError .engine)
  := by
  have hrows : (fun key => ((r.engine.index.writeBatch (snapshotBatch r.engine.index rows)).cf
      .default)[key]?) = ((slice r.engine.index).change (.snapshot pos rows)).rows := by
    funext key
    apply getElem?_snapshotBatch
  use hhealthy, snapshotBatch r.engine.index rows, if samePosition then none else some pos
  cases samePosition with
  | true =>
    refine ⟨_, rfl, rfl, ?_⟩
    rw [slice_after, hrows, hsame rfl]
    rfl
  | false =>
    refine ⟨_, rfl, rfl, ?_⟩
    rw [slice_after, hrows]
    rfl

/-- All that a frame can do: leave the engine as it is, or write its change. -/
theorem Runner.apply_cases {r r' : Runner} {frame : Frame} {disk : Option ℕ}
    {answer : Except ScopeError Unit} (h : r.apply frame disk = (r', answer)) :
  (r'.engine = r.engine ∧ (answer = .ok () → r.changes frame = none)
      ∧ answer ≠ .error (.engine (.wal .io)))
    ∨ ∃ a, r.changes frame = some a ∧ Writes r a disk r'.engine answer
  := by
  rw [apply, WalEngine.appliedPosition] at h
  split_ifs at h with hpoisoned
  · cases h
    exact .inl ⟨rfl, nofun, nofun⟩
  · have hhealthy := Bool.eq_false_iff.mpr hpoisoned
    cases frame with
    | snapshotPart ops =>
      cases h
      exact .inl ⟨rfl, fun _ => rfl, nofun⟩
    | snapshotEnd pos ops =>
      cases hslice : r.engine.index.applied with
      | none =>
        simp only [hslice] at h
        obtain ⟨rfl, rfl⟩ := Prod.mk.inj h
        right
        use .snapshot pos (r.parts ++ ops), rfl
        apply writes_snapshot hhealthy
        nofun
      | some p =>
        simp only [hslice] at h
        split_ifs at h with holder
        · cases h
          exact .inl ⟨rfl, nofun, nofun⟩
        · obtain ⟨rfl, rfl⟩ := Prod.mk.inj h
          right
          use .snapshot pos (r.parts ++ ops), rfl
          apply writes_snapshot hhealthy
          intro hsame
          rw [hslice, of_decide_eq_true hsame]
    | delta prev pos ops =>
      simp only at h
      split_ifs at h with hout hmoves
      · cases h
        exact .inl ⟨rfl, nofun, nofun⟩
      · rw [applyDelta] at h
        split_ifs at h with hcf
        · cases h
          exact .inl ⟨rfl, nofun, nofun⟩
        · obtain ⟨rfl, rfl⟩ := Prod.mk.inj h
          right
          use .delta pos ops, if_pos hmoves, hhealthy
          refine ⟨_, some pos, _, rfl, rfl, ?_⟩
          rw [slice_after]
          have hrows : (fun key => ((r.engine.index.writeBatch
              (ops.map ScopeOp.mutation)).cf .default)[key]?)
              = ((slice r.engine.index).change (.delta pos ops)).rows := by
            funext key
            apply getElem?_delta
          rw [hrows]
          rfl
      · cases h
        exact .inl ⟨rfl, fun _ => if_neg hmoves, nofun⟩
    | unknown kind =>
      cases h
      exact .inl ⟨rfl, nofun, nofun⟩

/-! ## What the subscriber maintains -/

namespace Subscriber

variable {x : Subscriber} {r : Runner} {frame : Frame} {disk : Option ℕ}

theorem receive_ok (h : x.runner.apply frame disk = (r, .ok ())) :
  x.receive frame disk = ⟨r, x.accepted ++ (x.runner.changes frame).toList⟩
  := by
  rw [receive, h]

theorem receive_io (h : x.runner.apply frame disk = (r, .error (.engine (.wal .io)))) :
  x.receive frame disk = ⟨⟨r.engine, []⟩, x.accepted ++ (x.runner.changes frame).toList⟩
  := by
  rw [receive, h]

theorem receive_error {reason : ScopeError} (h : x.runner.apply frame disk = (r, .error reason))
    (hio : reason ≠ .engine (.wal .io)) :
  x.receive frame disk = ⟨⟨r.engine, []⟩, x.accepted⟩
  := by
  rw [receive, h]
  split
  · next heq => nomatch heq
  · next heq =>
      cases heq
      exact absurd rfl hio
  · next heq =>
      cases heq
      rfl

end Subscriber

/-- A position does not go back: there is one if there was one, and its index is no smaller. -/
def Forward (previous next : Option AppliedPosition) : Prop :=
  ∀ p, previous = some p → ∃ p', next = some p' ∧ p.index ≤ p'.index

theorem Forward.of_eq {previous next : Option AppliedPosition} (h : next = previous) :
  Forward previous next
  := by
  intro p hp
  use p, h.trans hp

/-- A position that the engine takes goes on from the one before. -/
theorem Forward.of_check {previous pos : Option AppliedPosition}
    (h : checkForm previous (Wal.formOf pos) = .ok ()) :
  Forward previous (pos.or previous)
  := by
  intro p hp
  cases pos with
  | none => use p, hp
  | some pos =>
    have hadvances : ¬ pos.index ≤ p.index := by
      rw [hp] at h
      apply failIf_eq_ok.mp h
    use pos, rfl
    apply (not_le.mp hadvances).le

/-- The log has one record for every accepted change, and any number of them from the first on
come to the same. -/
structure Tracks (x : Subscriber) (es : List Entry) : Prop where
  holds : x.engine.Holds es
  length : x.accepted.length = es.length
  slices : ∀ k, slice (contents (es.take k)) = Slice.of (x.accepted.take k)

namespace Tracks

variable {x : Subscriber} {es : List Entry}

theorem start :
  Tracks .start []
  where
  holds := WalEngine.holds_empty
  length := rfl
  slices k := by
    rw [take_nil]
    exact congrArg Slice.of take_nil.symm

/-- What the records come to is what the changes come to. -/
theorem slice_eq (h : Tracks x es) :
  slice (contents es) = Slice.of x.accepted
  := by
  have hall := h.slices es.length
  rwa [take_length, ← h.length, take_length] at hall

/-- Only the engine and the accepted changes matter. -/
theorem congr (h : Tracks x es) {y : Subscriber} (hengine : y.engine = x.engine)
    (haccepted : y.accepted = x.accepted) :
  Tracks y es
  where
  holds := hengine ▸ h.holds
  length := haccepted ▸ h.length
  slices := haccepted ▸ h.slices

theorem append (h : Tracks x es) {y : Subscriber} {e : Entry} {a : Accepted}
    (hholds : y.engine.Holds (es ++ [e])) (haccepted : y.accepted = x.accepted ++ [a])
    (hchange : slice ((contents es).after e) = (slice (contents es)).change a) :
  Tracks y (es ++ [e])
  where
  holds := hholds
  length := by rw [haccepted, length_append, length_append, h.length]; rfl
  slices k := by
    rw [haccepted]
    rcases Nat.lt_or_ge es.length k with hlt | hle
    · rw [take_of_length_le, take_of_length_le, contents_append, hchange, h.slice_eq,
        Slice.of_append]
      · rw [length_append, h.length]
        apply hlt
      · rw [length_append]
        apply hlt
    · rw [take_append_of_le_length hle, take_append_of_le_length (h.length ▸ hle)]
      apply h.slices

/-- All that a frame can do: leave the engine as it is, or add its change and move the position
on. -/
theorem receive_cases (h : Tracks x es) (frame : Frame) (disk : Option ℕ) :
  ((x.receive frame disk).engine = x.engine ∧ (x.receive frame disk).accepted = x.accepted)
    ∨ (∃ es', Tracks (x.receive frame disk) es')
      ∧ Forward x.engine.index.applied (x.receive frame disk).engine.index.applied
  := by
  obtain ⟨⟨r, answer⟩, happly⟩ : ∃ result, x.runner.apply frame disk = result := ⟨_, rfl⟩
  rcases Runner.apply_cases happly with ⟨hsame, hnone, hio⟩ | ⟨a, hchanges, hwrites⟩
  · left
    cases answer with
    | ok u =>
      rw [Subscriber.receive_ok happly, hnone rfl]
      use hsame
      apply append_nil
    | error reason =>
      rw [Subscriber.receive_error happly (fun heq => hio (heq ▸ rfl))]
      use hsame
  · obtain ⟨batch, pos, written, hwrite, rfl, hchange⟩ := hwrites.write
    have hindex : x.runner.engine.index = contents es := h.holds.index hwrites.healthy
    rcases h.holds.writeAt_cases hwrite with
      ⟨hsame, reason, hio, rfl⟩ | ⟨-, hcheck, hholds, hcase⟩
    · left
      rw [Subscriber.receive_error happly (fun heq => hio (ScopeError.engine.inj heq))]
      use hsame
    · right
      rw [hindex] at hchange
      rcases hcase with ⟨-, hunmoved, rfl⟩ | ⟨hhealthy, rfl⟩
      · rw [Subscriber.receive_io happly, hchanges]
        constructor
        · use es ++ [⟨Wal.formOf pos, batch⟩]
          apply h.append (y := ⟨⟨r.engine, []⟩, _⟩) hholds rfl hchange
        · apply Forward.of_eq
          apply congrArg MemState.applied hunmoved
      · rw [Subscriber.receive_ok happly, hchanges]
        constructor
        · use es ++ [⟨Wal.formOf pos, batch⟩]
          apply h.append (y := ⟨r, _⟩) hholds rfl hchange
        · have hmoved : r.engine.index.applied = pos.or x.engine.index.applied := by
            rw [hholds.index hhealthy, contents_append, MemState.applied_after, ← hindex]
            cases pos <;> rfl
          apply hmoved ▸ Forward.of_check hcheck

/-- A frame is accepted as a whole or leaves everything as it is. -/
theorem receive (h : Tracks x es) (frame : Frame) (disk : Option ℕ) :
  ∃ es', Tracks (x.receive frame disk) es'
  := by
  rcases h.receive_cases frame disk with ⟨hengine, haccepted⟩ | ⟨hmore, -⟩
  · use es
    apply h.congr hengine haccepted
  · apply hmore

/-- After a crash, the changes of a front part of the log are left. -/
theorem crash (h : Tracks x es) (n : ℕ) :
  ∃ es', Tracks (x.step (.crash n)) es'
  := by
  obtain ⟨e, k, hopen, -, hholds⟩ := h.holds.openLog n
  use es.take k
  rw [Subscriber.step, hopen]
  use hholds
  · rw [length_take, length_take, h.length]
  · intro j
    rw [take_take, take_take]
    apply h.slices

end Tracks

/-- After any events the log has a record for every accepted change. -/
theorem Subscriber.tracks_after (events : List Event) :
  ∃ es, Tracks (after events) es
  := by
  induction events using List.reverseRecOn with
  | nil =>
    use []
    apply Tracks.start
  | append_singleton events event ih =>
    obtain ⟨es, h⟩ := ih
    rw [after, foldl_concat]
    cases event with
    | frame frame disk => apply h.receive
    | connect =>
      use es
      apply h.congr (y := (after events).step .connect) rfl rfl
    | crash n => apply h.crash

/-- A delta on another position than that of the slice changes nothing. -/
theorem Subscriber.receive_outOfPosition (x : Subscriber) {prev : AppliedPosition}
    (hprev : x.engine.index.applied ≠ some prev) (pos : AppliedPosition) (ops : List ScopeOp)
    (disk : Option ℕ) :
  (x.receive (.delta prev pos ops) disk).engine = x.engine
    ∧ (x.receive (.delta prev pos ops) disk).accepted = x.accepted
  := by
  by_cases hpoisoned : x.runner.engine.wal.poisoned = true
  · have happly : x.runner.apply (.delta prev pos ops) disk
        = (x.runner, .error (.engine (.wal .poisoned))) := by
      rw [Runner.apply, WalEngine.appliedPosition, if_pos hpoisoned]
    rw [receive_error happly nofun]
    exact ⟨rfl, rfl⟩
  · have happly : x.runner.apply (.delta prev pos ops) disk
        = (x.runner, .error (.outOfPosition prev.index
          (x.engine.index.applied.map AppliedPosition.index))) := by
      rw [Runner.apply, WalEngine.appliedPosition, if_neg hpoisoned]
      exact if_pos hprev
    rw [receive_error happly nofun]
    exact ⟨rfl, rfl⟩

/-- A node that installs a snapshot, applies a delta and connects again. -/
def rejoined : List Event :=
  [.frame (.snapshotPart [⟨0, [1], [10], false⟩]) none, .frame (.snapshotEnd ⟨1, 5⟩ []) none,
    .frame (.delta ⟨1, 5⟩ ⟨1, 6⟩ [⟨0, [1], [], true⟩]) none, .connect]

end Kv9.Server
