import Kv9.Raft.Command

/-!
# The ring of catalog changes

A full node keeps the last entries that its metadata group has applied, so that scoped nodes can
follow it: the operations of each catalog transaction, and nothing for any other command.  The
ring drops its oldest entries when it is full, and all of them when the log moves on without it.
A reader continues from its position if the ring still holds what comes after it, and needs a
snapshot otherwise.
-/

namespace Kv9.Server

open Raft List

/-- An applied entry, with its catalog operations. -/
structure RingEntry where
  pos : AppliedPosition
  ops : List KvOp
deriving DecidableEq

/-- The entries of a ring.  `base` is the position before the first of them, `last` that of the
last one. -/
structure RingState where
  base : Option AppliedPosition
  last : Option AppliedPosition
  entries : List RingEntry
  bytes : ℕ
deriving DecidableEq

/-- Why a reader cannot continue from its position. -/
inductive Behind where
  | snapshot
deriving DecidableEq

/-- A ring and its limits. -/
structure ChangeRing where
  state : RingState
  maxEntries : ℕ
  maxBytes : ℕ
deriving DecidableEq

/-- The bytes an operation is charged for. -/
def opBytes : KvOp → ℕ
  | .put _ key value => key.length + value.length + 16
  | .delete _ key => key.length + 16

/-- The bytes an entry is charged for. -/
def entryBytes (ops : List KvOp) : ℕ := (ops.map opBytes).sum + 32

/-- The catalog operations of a command. -/
def catalogOps : Command → List KvOp
  | .catalogTxn ops => ops
  | _ => []

/-- Drop the oldest entries while there are too many entries or too many bytes. -/
def evict (maxEntries maxBytes : ℕ) (base last : Option AppliedPosition) :
    List RingEntry → ℕ → RingState
  | [], bytes => ⟨base, last, [], bytes⟩
  | front :: entries, bytes =>
    if maxEntries < entries.length + 1 ∨ (maxBytes < bytes ∧ 1 < entries.length + 1) then
      evict maxEntries maxBytes (some front.pos) last entries (bytes - entryBytes front.ops)
    else
      ⟨base, last, front :: entries, bytes⟩

/-- Record an applied entry. -/
def RingState.record (s : RingState) (maxEntries maxBytes : ℕ) (pos : AppliedPosition)
    (cmd : Command) : RingState :=
  if s.last.any (pos.index ≤ ·.index) then
    s
  else if s.last.any (pos.index == ·.index + 1) then
    evict maxEntries maxBytes s.base (some pos) (s.entries ++ [⟨pos, catalogOps cmd⟩])
      (s.bytes + entryBytes (catalogOps cmd))
  else
    ⟨some pos, some pos, [], 0⟩

namespace ChangeRing

/-- A ring that starts after a position, if it is known. -/
def new (start : Option AppliedPosition) (maxEntries maxBytes : ℕ) : ChangeRing :=
  ⟨⟨start, start, [], 0⟩, max maxEntries 1, max maxBytes 1⟩

/-- Observe an entry that was applied. -/
def observe (ring : ChangeRing) (pos : AppliedPosition) (cmd : Command) : ChangeRing :=
  { ring with state := ring.state.record ring.maxEntries ring.maxBytes pos cmd }

/-- Observe entries in order. -/
def observeAll (ring : ChangeRing) (calls : List (AppliedPosition × Command)) : ChangeRing :=
  calls.foldl (fun ring call => ring.observe call.1 call.2) ring

/-- The position a read with no apply in progress is handed, if it is known. -/
def frozen (ring : ChangeRing) : Option AppliedPosition := ring.state.last

/-- The place in the ring after a position, given the position before the first entry. -/
def startAfter (ring : ChangeRing) (base since : AppliedPosition) : Except Behind ℕ :=
  if since = base then
    .ok 0
  else if since.index < base.index + 1 then
    .error .snapshot
  else
    let offset := (since.index - (base.index + 1)).toNat
    match ring.state.entries[offset]? with
    | some entry => if entry.pos = since then .ok (offset + 1) else .error .snapshot
    | none => .error .snapshot

/-- The entries after a position.  A limit of zero counts as one. -/
def after (ring : ChangeRing) (since : AppliedPosition) (limit : ℕ) :
    Except Behind (List RingEntry) :=
  match ring.state.base, ring.state.last with
  | some base, some last =>
    if since = last then
      .ok []
    else if last.index < since.index then
      .error .snapshot
    else do
      let start ← ring.startAfter base since
      return (ring.state.entries.drop start).take (max limit 1)
  | _, _ => .error .snapshot

end ChangeRing

/-! ## The log -/

/-- The calls that are not replays of what was applied before, after a position. -/
def newCalls (last : Option AppliedPosition) :
    List (AppliedPosition × Command) → List (AppliedPosition × Command)
  | [] => []
  | (pos, cmd) :: calls =>
    if last.any (pos.index ≤ ·.index) then
      newCalls last calls
    else
      (pos, cmd) :: newCalls (some pos) calls

/-- The log that some calls make after a position. -/
def logAfter (last : Option AppliedPosition) (calls : List (AppliedPosition × Command)) :
    List RingEntry :=
  (newCalls last calls).map fun call => ⟨call.1, catalogOps call.2⟩

/-- The position after some entries. -/
def positionAfter (start : Option AppliedPosition) (entries : List RingEntry) :
    Option AppliedPosition :=
  match entries.getLast? with
  | some entry => some entry.pos
  | none => start

/-- Entries whose indices follow a number without a gap. -/
def Consecutive : ℕ → List RingEntry → Prop
  | _, [] => True
  | n, entry :: entries => entry.pos.index.toNat = n + 1 ∧ Consecutive (n + 1) entries

theorem positionAfter_append (start : Option AppliedPosition) (xs ys : List RingEntry) :
  positionAfter start (xs ++ ys) = positionAfter (positionAfter start xs) ys
  := by
  cases hys : ys.getLast? with
  | none =>
    rw [List.getLast?_eq_none_iff] at hys
    rw [hys, append_nil]
    rfl
  | some entry =>
    rw [positionAfter, positionAfter, List.getLast?_append, hys]
    rfl

theorem positionAfter_cons (start : Option AppliedPosition) (entry : RingEntry)
    (entries : List RingEntry) :
  positionAfter start (entry :: entries) = positionAfter (some entry.pos) entries
  := positionAfter_append start [entry] entries

theorem positionAfter_concat (start : Option AppliedPosition) (xs : List RingEntry)
    (entry : RingEntry) :
  positionAfter start (xs ++ [entry]) = some entry.pos
  := positionAfter_append ..

variable {start : Option AppliedPosition}

/-- A position is known after an entry. -/
theorem eq_nil_of_positionAfter {entries : List RingEntry}
    (h : positionAfter start entries = none) :
  start = none ∧ entries = []
  := by
  cases hlast : entries.getLast? with
  | none =>
    rw [positionAfter, hlast] at h
    exact ⟨h, List.getLast?_eq_none_iff.mp hlast⟩
  | some entry =>
    rw [positionAfter, hlast] at h
    nomatch h

variable {pos : AppliedPosition}

/-- What follows a part of consecutive entries is consecutive after that part. -/
theorem Consecutive.of_append {start : AppliedPosition} {xs ys : List RingEntry}
    (h : Consecutive start.index.toNat (xs ++ ys))
    (hpos : positionAfter (some start) xs = some pos) :
  Consecutive pos.index.toNat ys
  := by
  induction xs generalizing start with
  | nil =>
    cases hpos
    apply h
  | cons entry xs ih =>
    obtain ⟨hentry, hrest⟩ := h
    rw [← hentry] at hrest
    apply ih hrest
    rwa [positionAfter_cons] at hpos

theorem consecutive_concat {start : AppliedPosition} {xs : List RingEntry} {entry : RingEntry}
    (h : Consecutive start.index.toNat xs) (hpos : positionAfter (some start) xs = some pos)
    (hentry : entry.pos.index.toNat = pos.index.toNat + 1) :
  Consecutive start.index.toNat (xs ++ [entry])
  := by
  induction xs generalizing start with
  | nil =>
    cases hpos
    exact ⟨hentry, trivial⟩
  | cons first xs ih =>
    obtain ⟨hfirst, hrest⟩ := h
    use hfirst
    rw [← hfirst] at hrest ⊢
    apply ih hrest
    rwa [positionAfter_cons] at hpos

/-- One more call makes one more entry, unless it is a replay. -/
theorem newCalls_concat (start : Option AppliedPosition)
    (calls : List (AppliedPosition × Command)) (call : AppliedPosition × Command) :
  newCalls start (calls ++ [call])
    = newCalls start calls
      ++ if (positionAfter start (logAfter start calls)).any (call.1.index ≤ ·.index) then []
        else [call]
  := by
  induction calls generalizing start with
  | nil => rfl
  | cons first calls ih =>
    obtain ⟨pos, cmd⟩ := first
    rw [cons_append, newCalls, logAfter, newCalls]
    by_cases hreplay : start.any (pos.index ≤ ·.index) = true
    · rw [if_pos hreplay, if_pos hreplay]
      apply ih
    · rw [if_neg hreplay, if_neg hreplay, ih, map_cons, positionAfter_cons]
      rfl

/-! ## What a ring holds -/

/-- A ring holds the end of a log, without a gap. -/
structure Holds (start : Option AppliedPosition) (log : List RingEntry) (s : RingState) :
    Prop where
  last_eq : s.last = positionAfter start log
  split : ∃ dropped, log = dropped ++ s.entries ∧ s.base = positionAfter start dropped
  consecutive : ∀ base ∈ s.base, Consecutive base.index.toNat s.entries
  known : s.base = none → s.entries = []

theorem evict_spec (maxEntries maxBytes : ℕ) (base last : Option AppliedPosition)
    (entries : List RingEntry) (bytes : ℕ) :
  (evict maxEntries maxBytes base last entries bytes).last = last
    ∧ ∃ dropped, entries = dropped ++ (evict maxEntries maxBytes base last entries bytes).entries
      ∧ (evict maxEntries maxBytes base last entries bytes).base = positionAfter base dropped
  := by
  induction entries generalizing base bytes with
  | nil => exact ⟨rfl, [], rfl, rfl⟩
  | cons front entries ih =>
    rw [evict]
    split_ifs
    · obtain ⟨hlast, dropped, hentries, hbase⟩ :=
        ih (some front.pos) (bytes - entryBytes front.ops)
      refine ⟨hlast, front :: dropped, ?_, ?_⟩
      · rw [cons_append, ← hentries]
      · rw [hbase, positionAfter_cons]
    · exact ⟨rfl, [], rfl, rfl⟩

theorem holds_new (start : Option AppliedPosition) :
  Holds start [] ⟨start, start, [], 0⟩
  := ⟨rfl, ⟨[], rfl, rfl⟩, fun _ _ => trivial, fun _ => rfl⟩

variable {log : List RingEntry}

theorem Holds.record {s : RingState} (h : Holds start log s) (maxEntries maxBytes : ℕ)
    (cmd : Command) (hnew : s.last.any (pos.index ≤ ·.index) = false) :
  Holds start (log ++ [⟨pos, catalogOps cmd⟩]) (s.record maxEntries maxBytes pos cmd)
  := by
  rw [RingState.record, hnew]
  simp only [Bool.false_eq_true, if_false]
  split_ifs with hnext
  · rw [Option.any_eq_true] at hnext
    obtain ⟨last, hlast, hnext⟩ := hnext
    rw [hlast, Option.any_some, decide_eq_false_iff_not, not_le] at hnew
    obtain ⟨dropped, hlog, hbase⟩ := h.split
    obtain ⟨base, hsome⟩ : ∃ base, s.base = some base := by
      rw [← Option.ne_none_iff_exists']
      intro hnone
      have hentries := h.known hnone
      rw [hbase] at hnone
      rw [h.last_eq, hlog, hentries, append_nil, hnone] at hlast
      nomatch hlast
    have hindex : pos.index.toNat = last.index.toNat + 1 := by
      have := beq_iff_eq.mp hnext
      have hlt := UInt64.lt_iff_toNat_lt.mp hnew
      rw [this, UInt64.toNat_add] at hlt ⊢
      simp only [UInt64.reduceToNat] at hlt ⊢
      omega
    have hall : Consecutive base.index.toNat (s.entries ++ [⟨pos, catalogOps cmd⟩]) := by
      apply consecutive_concat (h.consecutive base hsome) _ hindex
      rw [← hsome, hbase, ← positionAfter_append, ← hlog, ← h.last_eq, hlast]
    obtain ⟨hevicted, dropped', hentries, hbase'⟩ := evict_spec maxEntries maxBytes s.base
      (some pos) (s.entries ++ [⟨pos, catalogOps cmd⟩]) (s.bytes + entryBytes (catalogOps cmd))
    constructor
    · rw [hevicted, positionAfter_concat]
    · refine ⟨dropped ++ dropped', ?_, ?_⟩
      · rw [hlog, append_assoc, append_assoc, ← hentries]
      · rw [hbase', positionAfter_append, ← hbase]
    · intro base' hbase''
      rw [hentries] at hall
      apply hall.of_append
      rw [← hsome, ← hbase']
      apply hbase''
    · intro hnone
      rw [hbase', hsome] at hnone
      nomatch (eq_nil_of_positionAfter hnone).1
  · constructor
    · rw [positionAfter_concat]
    · refine ⟨log ++ [⟨pos, catalogOps cmd⟩], ?_, ?_⟩
      · rw [append_nil]
      · rw [positionAfter_concat]
    · intro _ _
      trivial
    · nofun

variable {ring : ChangeRing}

/-- A ring that has observed some entries holds the end of the log they make. -/
theorem Holds.observeAll (h : Holds start log ring.state)
    (calls : List (AppliedPosition × Command)) :
  Holds start (log ++ logAfter ring.state.last calls) (ring.observeAll calls).state
  := by
  induction calls generalizing log ring with
  | nil => rwa [logAfter, newCalls, map_nil, append_nil]
  | cons call calls ih =>
    obtain ⟨pos, cmd⟩ := call
    rw [logAfter, newCalls]
    by_cases hreplay : ring.state.last.any (pos.index ≤ ·.index) = true
    · have hsame : ring.observe pos cmd = ring := by
        rw [ChangeRing.observe, RingState.record, if_pos hreplay]
      have := ih h
      rwa [if_pos hreplay, ChangeRing.observeAll, foldl_cons, hsame]
    · have hstep := h.record ring.maxEntries ring.maxBytes cmd (Bool.not_eq_true _ ▸ hreplay)
      have hlast : (ring.observe pos cmd).state.last = some pos := by
        rw [ChangeRing.observe, hstep.last_eq, positionAfter_concat]
      have hrest : Holds start _ ((ring.observe pos cmd).observeAll calls).state := ih hstep
      rw [hlast, append_assoc] at hrest
      rw [if_neg hreplay]
      apply hrest

namespace ChangeRing

/-- The ring is at the end of the log. -/
theorem holds_observeAll (start : Option AppliedPosition) (maxEntries maxBytes : ℕ)
    (calls : List (AppliedPosition × Command)) :
  Holds start (logAfter start calls) ((new start maxEntries maxBytes).observeAll calls).state
  := by
  have h : Holds start [] (new start maxEntries maxBytes).state := holds_new start
  apply h.observeAll

variable {since : AppliedPosition}

/-- Where a reader starts, the log is at the reader's position. -/
theorem startAfter_eq_ok {base : AppliedPosition} {n : ℕ} (h : ring.startAfter base since = .ok n) :
  positionAfter (some base) (ring.state.entries.take n) = some since
  := by
  rw [startAfter] at h
  split_ifs at h with hbase hbefore
  · cases h
    rw [hbase]
    rfl
  · simp only at h
    split at h
    · rename_i entry hentry
      split_ifs at h with hpos
      cases h
      rw [take_add_one, hentry, ← hpos]
      apply positionAfter_concat
    · nomatch h

theorem after_of_last (h : Holds start log ring.state)
    (hsince : positionAfter start log = some since) (limit : ℕ) :
  ring.after since limit = .ok []
  := by
  have hlast : ring.state.last = some since := by rw [h.last_eq, hsince]
  rw [after, hlast]
  cases hbase : ring.state.base with
  | some base => simp only [if_true]
  | none =>
    obtain ⟨dropped, hlog, hdropped⟩ := h.split
    rw [h.known hbase, append_nil] at hlog
    rw [hlog, ← hdropped, hbase] at hsince
    nomatch hsince

/-- A reader that continues reads the log after its position. -/
theorem after_eq_ok {limit : ℕ} {entries : List RingEntry} (h : Holds start log ring.state)
    (hok : ring.after since limit = .ok entries) :
  ∃ before rest, log = before ++ rest ∧ positionAfter start before = some since
    ∧ Consecutive since.index.toNat rest ∧ entries = rest.take (max limit 1)
  := by
  rw [after] at hok
  split at hok
  · rename_i base last hbase hlast
    split_ifs at hok with hsince hahead
    · cases hok
      refine ⟨log, [], (append_nil _).symm, ?_, trivial, take_nil.symm⟩
      rw [← h.last_eq, hlast, hsince]
    · obtain ⟨n, hn, hok⟩ := Except.bind_eq_ok.mp hok
      cases hok
      obtain ⟨dropped, hlog, hdropped⟩ := h.split
      have hread := startAfter_eq_ok hn
      refine ⟨dropped ++ ring.state.entries.take n, ring.state.entries.drop n, ?_, ?_, ?_, rfl⟩
      · rw [append_assoc, take_append_drop, ← hlog]
      · rw [positionAfter_append, ← hdropped, hbase, hread]
      · have hall := h.consecutive base hbase
        rw [← take_append_drop n ring.state.entries] at hall
        apply hall.of_append hread
  · nomatch hok

/-- A reader is up to date only at the end of the log. -/
theorem eq_nil_of_after {limit : ℕ} (h : Holds start log ring.state)
    (hok : ring.after since limit = .ok []) :
  positionAfter start log = some since
  := by
  obtain ⟨before, rest, hlog, hbefore, -, htake⟩ := after_eq_ok h hok
  have hrest : rest = [] := by
    rw [eq_comm, take_eq_nil_iff] at htake
    apply htake.resolve_left
    omega
  rw [hlog, hrest, append_nil, hbefore]

/-- Whatever a ring has observed, it sends a reader for a snapshot or hands it the log after the
reader's position: without a gap, from that position of that term on, and as many entries as the
limit allows, or one if it allows none.  It says that there is nothing more exactly at the last
position of the log. -/
theorem after_reads_log (start : Option AppliedPosition) (maxEntries maxBytes : ℕ)
    (calls : List (AppliedPosition × Command)) (since : AppliedPosition) (limit : ℕ) :
  (((new start maxEntries maxBytes).observeAll calls).after since limit = .error .snapshot
      ∨ ∃ before rest, logAfter start calls = before ++ rest
        ∧ positionAfter start before = some since
        ∧ Consecutive since.index.toNat rest
        ∧ ((new start maxEntries maxBytes).observeAll calls).after since limit
            = .ok (rest.take (max limit 1)))
    ∧ (((new start maxEntries maxBytes).observeAll calls).after since limit = .ok []
        ↔ positionAfter start (logAfter start calls) = some since)
  := by
  have h := holds_observeAll start maxEntries maxBytes calls
  constructor
  · cases hafter : ((new start maxEntries maxBytes).observeAll calls).after since limit with
    | error behind =>
      left
      rfl
    | ok entries =>
      right
      obtain ⟨before, rest, hlog, hbefore, hrest, hentries⟩ := after_eq_ok h hafter
      use before, rest, hlog, hbefore, hrest
      rw [hentries]
  · constructor
    · apply eq_nil_of_after h
    · intro hsince
      apply after_of_last h hsince

/-- A reader that asks for no entries is handed one. -/
theorem after_zero_hands_one_entry :
  logAfter (some ⟨1, 1⟩) [(⟨1, 2⟩, .noop)] = [⟨⟨1, 2⟩, []⟩]
    ∧ ((new (some ⟨1, 1⟩) 8 1024).observeAll [(⟨1, 2⟩, .noop)]).after ⟨1, 1⟩ 0
      = .ok [⟨⟨1, 2⟩, []⟩]
  := by
  decide +kernel

end ChangeRing

end Kv9.Server
