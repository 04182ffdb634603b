import Kv9.Raft.Driver
import Kv9.Server.ChangeRing

/-!
# The ring follows the engine

The metadata group of a full node has a machine that shows every entry it applies to the ring of
catalog changes, unless the driver applies the entry as part of a group.  As long as every turn
of the driver applies one entry, the ring has seen what the machine has applied, and a reader is
handed the position of the engine.  A turn that applies a group leaves the ring behind.
-/

namespace Kv9.Raft

open Engine Except

/-- The position of an engine.  One that has applied nothing is before the first entry. -/
def Store.position (s : Store) : AppliedPosition := s.applied.getD ⟨0, 0⟩

namespace Driver

/-- The entries that join a group of some bytes and entries, whatever judges the fences, and
those that are left. -/
def gatherBy (judge : Option Judge) (m : Machine) (bytes count : ℕ) :
    List CommittedEntry → List (AppliedPosition × Command) × List CommittedEntry
  | [] => ([], [])
  | next :: rest =>
    if count < Machine.maxRawGroupEntries ∧ next.kind = .command
        ∧ next.data.length ≤ Machine.maxRawGroupBytes - bytes then
      match Command.decode next.data with
      | .error _ => ([], next :: rest)
      | .ok cmd =>
        if m.canGroupRawBy judge cmd then
          let (more, rest) := gatherBy judge m (bytes + next.data.length) (count + 1) rest
          ((next.pos, cmd) :: more, rest)
        else
          ([], next :: rest)
    else
      ([], next :: rest)

/-- The entries that an entry is applied with, and those that are left. -/
def joined (judge : Option Judge) (m : Machine) (entry : CommittedEntry) (cmd : Command)
    (rest : List CommittedEntry) : List (AppliedPosition × Command) × List CommittedEntry :=
  if entry.data.length ≤ Machine.maxRawGroupBytes ∧ m.applied < entry.index
      ∧ m.canGroupRawBy judge cmd = true then
    gatherBy judge m entry.data.length 1 rest
  else
    ([], rest)

/-- Whether the next turn applies a group. -/
def groups (judge : Option Judge) (m : Machine) : List CommittedEntry → Bool
  | [] => false
  | entry :: rest =>
    entry.kind = .command && match entry.decode with
      | .ok cmd => !(joined judge m entry cmd rest).1.isEmpty
      | .error _ => false

theorem gatherBy_judge (m : Machine) (bytes count : ℕ) (entries : List CommittedEntry) :
  gatherBy m.judge m bytes count entries = gather m bytes count entries
  := by
  induction entries generalizing bytes count with
  | nil => rfl
  | cons next rest ih =>
    cases hdecode : Command.decode next.data with
    | error e => simp only [gatherBy, gather, hdecode]
    | ok cmd => simp only [gatherBy, gather, hdecode, Machine.canGroupRawBy_judge, ih]

end Driver

end Kv9.Raft

namespace Kv9.Server

open Raft Engine Except

/-- A machine that shows entries to a ring: the calls the ring has had, and the entries that the
machine has applied. -/
structure Watched where
  machine : Machine
  ring : ChangeRing
  shown : List (AppliedPosition × Command)
  applied : List (AppliedPosition × Command)

namespace Watched

variable {x : Externals} {judge : Option Judge} {start : Option AppliedPosition}
  {maxEntries maxBytes : ℕ} {w w' : Watched} {pos : AppliedPosition} {cmd : Command}

/-- Apply an entry and show it to the ring. -/
def applyAt (x : Externals) (judge : Option Judge) (w : Watched) (pos : AppliedPosition)
    (cmd : Command) : Except Error Watched := do
  let (m, _) ← w.machine.applyAtBy x judge pos cmd
  return {
    machine := m
    ring := w.ring.observe pos cmd
    shown := w.shown ++ [(pos, cmd)]
    applied := if w.machine.applied < pos.index then w.applied ++ [(pos, cmd)] else w.applied }

/-- Apply a group.  The ring is not shown its entries. -/
def applyGroup (judge : Option Judge) (w : Watched)
    (commands : List (AppliedPosition × Command)) : Except Error Watched := do
  let (m, _) ← w.machine.applyRawGroupBy judge commands
  return { w with machine := m, applied := w.applied ++ commands }

/-- Apply one command, or a group of them. -/
def applyCommands (x : Externals) (judge : Option Judge) (w : Watched) (pos : AppliedPosition)
    (cmd : Command) : List (AppliedPosition × Command) → Except Error Watched
  | [] => w.applyAt x judge pos cmd
  | more => w.applyGroup judge ((pos, cmd) :: more)

/-- One turn of the driver's loop. -/
def turn (x : Externals) (judge : Option Judge) (w : Watched) :
    List CommittedEntry → Except Error (Watched × List CommittedEntry)
  | [] => .ok (w, [])
  | entry :: rest =>
    if entry.kind = .command then do
      let cmd ← entry.decode
      let (more, rest) := Driver.joined judge w.machine entry cmd rest
      let w ← w.applyCommands x judge entry.pos cmd more
      return (w, rest)
    else
      .ok (w, rest)

/-- The ring has seen every entry that was applied, once and in order, and hands out the position
of the engine.  It hands out none only if it was given none and nothing has been applied. -/
structure Follows (start : Option AppliedPosition) (w : Watched) : Prop where
  seen : newCalls start w.shown = w.applied
  frozen : ∀ pos ∈ w.ring.frozen, pos = w.machine.engine.position
  known : w.ring.frozen = none → start = none ∧ w.applied = []

/-- A ring that has observed what it was shown, beside a machine at the end of the log. -/
structure Tracks (start : Option AppliedPosition) (maxEntries maxBytes : ℕ) (w : Watched) :
    Prop where
  ring_eq : w.ring = (ChangeRing.new start maxEntries maxBytes).observeAll w.shown
  seen : newCalls start w.shown = w.applied
  index_eq : w.machine.applied = w.machine.engine.position.index
  at_end : positionAfter start (logAfter start w.shown) = some w.machine.engine.position
    ∨ (positionAfter start (logAfter start w.shown) = none ∧ w.machine.applied = 0)

section

variable (h : Tracks start maxEntries maxBytes w)
include h

theorem Tracks.frozen_eq :
  w.ring.frozen = positionAfter start (logAfter start w.shown)
  := by
  rw [h.ring_eq]
  exact (ChangeRing.holds_observeAll start maxEntries maxBytes w.shown).last_eq

theorem Tracks.follows :
  Follows start w
  := by
  constructor
  · apply h.seen
  · intro pos hpos
    rw [h.frozen_eq] at hpos
    obtain hend | ⟨hend, -⟩ := h.at_end
    · rw [hend] at hpos
      exact (Option.some.inj hpos).symm
    · rw [hend] at hpos
      nomatch hpos
  · intro hnone
    rw [h.frozen_eq] at hnone
    obtain ⟨hstart, hlog⟩ := eq_nil_of_positionAfter hnone
    rw [logAfter, h.seen, List.map_eq_nil_iff] at hlog
    use hstart, hlog

/-- An entry is new to the ring exactly if the machine has not applied it. -/
theorem Tracks.isReplay_iff (hindex : pos.index ≠ 0) :
  (positionAfter start (logAfter start w.shown)).any (pos.index ≤ ·.index) = true
    ↔ ¬ w.machine.applied < pos.index
  := by
  obtain hend | ⟨hend, hzero⟩ := h.at_end
  · rw [hend, Option.any_some, decide_eq_true_iff, not_lt, h.index_eq]
  · rw [hend, hzero]
    constructor
    · nofun
    · intro hle
      exact absurd (UInt64.pos_iff_ne_zero.mpr hindex) hle

/-- An entry that is applied alone keeps the ring beside the machine. -/
theorem Tracks.applyAt (hindex : pos.index ≠ 0) (happly : w.applyAt x judge pos cmd = .ok w') :
  Tracks start maxEntries maxBytes w'
  := by
  obtain ⟨⟨m, result⟩, hm, happly⟩ := bind_eq_ok.mp happly
  cases happly
  have hring : w.ring.observe pos cmd
      = (ChangeRing.new start maxEntries maxBytes).observeAll (w.shown ++ [(pos, cmd)]) := by
    rw [h.ring_eq, ChangeRing.observeAll, ChangeRing.observeAll, List.foldl_append]
    rfl
  have hcalls := newCalls_concat start w.shown (pos, cmd)
  by_cases hnew : w.machine.applied < pos.index
  · obtain ⟨hengine, happlied⟩ := Machine.engine_of_applyAtBy hm hnew
    rw [if_neg (not_not.mpr hnew ∘ (h.isReplay_iff hindex).mp), h.seen] at hcalls
    have hposition : m.engine.position = pos := by rw [Store.position, hengine, Option.getD_some]
    constructor
    · apply hring
    · simp [if_pos hnew, hcalls]
    · rw [happlied, hposition]
    · left
      rw [logAfter, hcalls, List.map_append, hposition]
      apply positionAfter_concat
  · rw [Machine.applyAtBy_of_le (not_lt.mp hnew)] at hm
    cases hm
    rw [if_pos ((h.isReplay_iff hindex).mpr hnew), List.append_nil] at hcalls
    constructor
    · apply hring
    · simp [if_neg hnew, hcalls, h.seen]
    · apply h.index_eq
    · rw [logAfter, hcalls]
      apply h.at_end

/-- A group leaves the ring behind. -/
theorem Tracks.not_follows_applyGroup {commands : List (AppliedPosition × Command)} (happly : w.applyGroup judge commands = .ok w') :
  ¬ Follows start w'
  := by
  intro hfollows
  obtain ⟨⟨m, results⟩, hm, happly⟩ := bind_eq_ok.mp happly
  cases happly
  obtain ⟨batch, last, hloop, hlast, rfl⟩ := Machine.after_of_applyRawGroupBy hm
  have hbefore := (Machine.of_groupLoopBy_eq_ok hloop).index_lt last (List.mem_of_getLast? hlast)
  cases hfrozen : w.ring.frozen with
  | none =>
    have hnil := (hfollows.known hfrozen).2
    rw [List.append_eq_nil_iff] at hnil
    rw [hnil.2] at hlast
    nomatch hlast
  | some pos =>
    have hold := h.follows.frozen pos hfrozen
    have hnew : pos = last.1 := hfollows.frozen pos hfrozen
    rw [h.index_eq, ← hold, hnew] at hbefore
    exact absurd hbefore (lt_irrefl _)

/-- A turn keeps the ring beside the machine exactly if it applies no group. -/
theorem Tracks.turn {entries rest : List CommittedEntry}
    (hindex : ∀ e ∈ entries, e.index ≠ 0) (hturn : w.turn x judge entries = .ok (w', rest)) :
  (Driver.groups judge w.machine entries = false → Tracks start maxEntries maxBytes w')
    ∧ (Driver.groups judge w.machine entries = true → ¬ Follows start w')
  := by
  cases entries with
  | nil =>
    cases hturn
    exact ⟨fun _ => h, nofun⟩
  | cons entry rest' =>
    rw [Watched.turn] at hturn
    split_ifs at hturn with hkind
    · obtain ⟨cmd, hcmd, hturn⟩ := bind_eq_ok.mp hturn
      simp only [Driver.groups, hkind, hcmd, decide_true, Bool.true_and, bind_eq_ok] at hturn ⊢
      obtain ⟨w₁, happly, hturn⟩ := hturn
      cases hturn
      cases hmore : (Driver.joined judge w.machine entry cmd rest').1 with
      | nil =>
        rw [hmore] at happly
        exact ⟨fun _ => h.applyAt (hindex entry List.mem_cons_self) happly, nofun⟩
      | cons next more =>
        rw [hmore] at happly
        use nofun, fun _ => h.not_follows_applyGroup happly
    · cases hturn
      simp only [Driver.groups, hkind, decide_false, Bool.false_and]
      exact ⟨fun _ => h, nofun⟩

end

/-- The runs of a driver in which no turn applies a group. -/
inductive Runs (x : Externals) (judge : Option Judge) (opened : Watched) : Watched → Prop where
  | start : Runs x judge opened opened
  | turn {w w' : Watched} {entries rest : List CommittedEntry} (hrun : Runs x judge opened w)
      (hindex : ∀ e ∈ entries, e.index ≠ 0)
      (halone : Driver.groups judge w.machine entries = false)
      (hturn : w.turn x judge entries = .ok (w', rest)) :
      Runs x judge opened w'

/-- A node opens its ring at the position of its engine, which an engine that keeps nothing does
not know. -/
theorem tracks_of_withEngine {engine : Store} {m : Machine}
    (hopen : Machine.withEngine engine = .ok m)
    (hstart : start = some engine.position ∨ start = none ∧ engine.applied = none) :
  Tracks start maxEntries maxBytes ⟨m, ChangeRing.new start maxEntries maxBytes, [], []⟩
  := by
  obtain ⟨clock, -, hopen⟩ := bind_eq_ok.mp hopen
  cases hopen
  have hindex : engine.appliedIndex = engine.position.index := by
    rw [Store.appliedIndex, Store.position]
    cases engine.applied with
    | none => rfl
    | some pos => rfl
  constructor
  · rfl
  · rfl
  · apply hindex
  · obtain rfl | ⟨rfl, hnone⟩ := hstart
    · left
      rfl
    · right
      constructor
      · rfl
      · simp [Store.appliedIndex, hnone]

/-- As long as no turn of the driver applies a group, the ring has seen every applied entry once
and in order, and hands out the position of the engine; and any turn leaves it so exactly if it
applies no group. -/
theorem ring_follows_engine {engine : Store} {m : Machine}
    (hopen : Machine.withEngine engine = .ok m)
    (hstart : start = some engine.position ∨ start = none ∧ engine.applied = none)
    (hrun : Runs x judge ⟨m, ChangeRing.new start maxEntries maxBytes, [], []⟩ w) :
  Follows start w
    ∧ ∀ entries w' rest, (∀ e ∈ entries, e.index ≠ 0) → w.turn x judge entries = .ok (w', rest) →
      (Follows start w' ↔ Driver.groups judge w.machine entries = false)
  := by
  have htracks : Tracks start maxEntries maxBytes w := by
    induction hrun with
    | start => apply tracks_of_withEngine hopen hstart
    | turn _ hindex halone hturn ih => apply (ih.turn hindex hturn).1 halone
  constructor
  · apply htracks.follows
  · intro entries w' rest hindex hturn
    obtain ⟨halone, hgroup⟩ := htracks.turn hindex hturn
    constructor
    · intro hfollows
      rw [← Bool.not_eq_true]
      exact fun h => hgroup h hfollows
    · exact fun h => (halone h).follows

/-- A put of a client's value. -/
def clientPut (index : UInt64) : CommittedEntry :=
  ⟨index, 1, .command, [1, 1, 0, 0, 0, 0, 5, 0x72, 0, 0, 7, 1, 0, 0, 0, 1, 9]⟩

/-- A node that has applied nothing. -/
def fresh : Watched := ⟨⟨none, Store.empty, 0, false⟩, .new (some ⟨0, 0⟩) 8 1024, [], []⟩

/-- Two puts that the driver applies as a group: the engine is at the second one, and the ring
has seen neither and hands out the position before the first. -/
theorem group_leaves_ring_behind :
  ∃ x : Externals, ∀ judge, ∃ w', Machine.withEngine Store.empty = .ok fresh.machine
    ∧ fresh.turn x judge [clientPut 1, clientPut 2] = .ok (w', [])
    ∧ w'.applied.length = 2 ∧ w'.shown = []
    ∧ w'.machine.engine.position = ⟨1, 2⟩ ∧ w'.ring.frozen = some ⟨0, 0⟩
  := by
  obtain ⟨x⟩ := nonempty_externals
  use x
  intro judge
  exact ⟨_, rfl, rfl, rfl, rfl, rfl, rfl⟩

/-- A put that the driver applies alone. -/
theorem ring_follows_engine_put :
  ∃ (x : Externals) (w' : Watched), fresh.turn x none [clientPut 1] = .ok (w', [])
    ∧ Follows (some ⟨0, 0⟩) w' ∧ w'.ring.frozen = some ⟨1, 1⟩
  := by
  obtain ⟨x⟩ := nonempty_externals
  have hturn : fresh.turn x none [clientPut 1] = .ok (_, []) := rfl
  have hopen : Machine.withEngine Store.empty = .ok fresh.machine := rfl
  have hrun : Runs x none ⟨fresh.machine, .new (some Store.empty.position) 8 1024, [], []⟩ _ :=
    Runs.start.turn (by simp [clientPut]) rfl hturn
  exact ⟨x, _, hturn, (ring_follows_engine hopen (.inl rfl) hrun).1, rfl⟩

end Watched

end Kv9.Server
