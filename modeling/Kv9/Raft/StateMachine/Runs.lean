import Kv9.Raft.StateMachine.RawGroup

/-!
# Runs of a state machine

A run applies single entries and groups of entries, in whatever way they are cut, and reopens
the machine over its engine any number of times.  The trace of a run lists the entries that
were applied, with their outcomes; entries that were skipped are not in it.
-/

namespace Kv9.Raft

open Codec Engine Except RawTtl

/-- An entry that was applied, and what that meant. -/
structure Event where
  pos : AppliedPosition
  cmd : Command
  outcome : ApplyOutcome

namespace Machine

variable {x : Externals} {start m m' : Machine} {pos : AppliedPosition} {cmd : Command}
  {outcome : ApplyOutcome} {batch : WriteBatch} {trace : List Event}

/-- Open the machine again over its engine. -/
def reopen (m : Machine) : Except Error Machine := do
  let fresh ← withEngine m.engine
  match m.dataIdentity with
  | none => return fresh
  | some identity => fresh.setDataGroup identity

/-- The events of commands with their answers. -/
def events (commands : List (AppliedPosition × Command)) (results : List ApplyResult) :
    List Event :=
  List.zipWith (fun c r => ⟨c.1, c.2, r.outcome⟩) commands results

/-- The runs from a machine. -/
inductive Run (x : Externals) (start : Machine) : List Event → Machine → Prop where
  | start : Run x start [] start
  | apply {trace : List Event} {m m' : Machine} {pos : AppliedPosition} {cmd : Command}
      {result : ApplyResult} (hrun : Run x start trace m)
      (happly : m.applyAt x pos cmd = .ok (m', result)) :
      Run x start
        (if m.applied < pos.index then trace ++ [⟨pos, cmd, result.outcome⟩] else trace) m'
  | group {trace : List Event} {m m' : Machine} {commands : List (AppliedPosition × Command)}
      {results : List ApplyResult} (hrun : Run x start trace m)
      (happly : m.applyRawGroup commands = .ok (m', results)) :
      Run x start (trace ++ events commands results) m'
  | reopen {trace : List Event} {m m' : Machine} (hrun : Run x start trace m)
      (hreopen : m.reopen = .ok m') :
      Run x start trace m'

/-- Open a machine over an engine that has applied nothing. -/
def opening (identity : Identity) : Except Error Machine := do
  let m ← withEngine Store.empty
  m.setDataGroup identity

theorem opening_eq_ok {identity : Identity} (h : opening identity = .ok start) :
  start = ⟨some identity, Store.empty, 0, false⟩
  := by
  have hengine : withEngine Store.empty = .ok ⟨none, Store.empty, 0, false⟩ := rfl
  rw [opening, hengine, ok_bind] at h
  simp only [setDataGroup, bind_eq_ok] at h
  obtain ⟨_, -, _, -, h⟩ := h
  cases h
  rfl

theorem settled_of_opening {identity : Identity} (h : opening identity = .ok start) :
  start.Settled
  := by
  rw [opening_eq_ok h]
  nofun

theorem Run.trans {trace' : List Event} (h : Run x start trace m) (h' : Run x m trace' m') :
  Run x start (trace ++ trace') m'
  := by
  induction h' with
  | start => rwa [List.append_nil]
  | apply _ hat ih =>
    have := ih.apply hat
    split_ifs with hlt
    · rwa [if_pos hlt, List.append_assoc] at this
    · rwa [if_neg hlt] at this
  | group _ hgroup ih =>
    rw [← List.append_assoc]
    exact ih.group hgroup
  | reopen _ hopen ih => exact ih.reopen hopen

/-! ## Reopening -/

/-- A reopened machine has its engine and its identity, and expiry is enabled exactly when
there is a watermark. -/
theorem reopen_eq_ok (h : m.reopen = .ok m') :
  ∃ clock, readRow ClockWatermark.decode (m.engine.get .default clockKey) = .ok clock
    ∧ m' = ⟨m.dataIdentity, m.engine, m.engine.appliedIndex, clock.isSome⟩
  := by
  rw [reopen, bind_eq_ok] at h
  obtain ⟨fresh, hfresh, h⟩ := h
  rw [withEngine, bind_eq_ok] at hfresh
  obtain ⟨clock, hclock, hfresh⟩ := hfresh
  cases hfresh
  use clock, hclock
  cases hid : m.dataIdentity with
  | none =>
    rw [hid] at h
    cases h
    rfl
  | some identity =>
    rw [hid] at h
    simp only [setDataGroup, bind_eq_ok] at h
    obtain ⟨_, -, _, -, h⟩ := h
    cases h
    rfl

theorem settled_of_reopen (h : m.reopen = .ok m') :
  m'.Settled
  := by
  obtain ⟨clock, -, rfl⟩ := reopen_eq_ok h
  intro previous hprevious
  rw [Store.appliedIndex, Option.mem_def.mp hprevious]

theorem Applied.settled (h : Applied x m pos cmd m' outcome batch) :
  m'.Settled
  := by
  rw [h.after_eq]
  exact settled_after m batch pos

theorem Applied.applied_eq (h : Applied x m pos cmd m' outcome batch) :
  m'.applied = pos.index
  := by
  rw [h.after_eq]
  rfl

end Machine

end Kv9.Raft
