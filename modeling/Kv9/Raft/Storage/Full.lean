import Kv9.Raft.Storage.Store

/-!
# The log that forgets nothing

Compaction drops entries and rewriting drops records.  The full log is kept beside the store for
the sake of the argument: all entries and all applied configurations since the group started, or
since the last protocol snapshot.  It says which configuration was in force at an index, whatever
the store has forgotten by then.

A store is sound when replaying its log on disk gives what it knows, and what it knows is the
part of the full log that it has not dropped.
-/

namespace Kv9.Raft.Storage

open Except

/-- An applied configuration. -/
structure Change where
  index : ℕ
  state : ConfState
  origin : Option AppliedConfigurationOrigin

/-- The record of an applied configuration. -/
def Change.record (c : Change) : Record :=
  match c.origin with
  | some r => .origin r c.state
  | none => .confStateAt c.index c.state

/-- The origin of a change is that of its index. -/
def Change.Indexed (c : Change) : Prop := ∀ r ∈ c.origin, r.position.index = c.index

/-- Everything since the group started at a configuration. -/
structure Full where
  start : ℕ
  state : ConfState
  changes : List Change
  entries : List Entry

namespace Full

/-- The applied configurations with their indices. -/
def applied (g : Full) : List (ℕ × ConfState) := g.changes.map fun c => (c.index, c.state)

/-- The last configuration applied at or below an index. -/
def lastApplied (g : Full) (k : ℕ) : ℕ × ConfState :=
  (g.applied.filter fun a => a.1 ≤ k).getLast?.getD (g.start, g.state)

/-- The configuration in force at an index: the last one applied at or below it, unless the log
has a change after that one. -/
def effective (g : Full) (k : ℕ) : Option ConfState :=
  if g.entries.any fun e =>
      isConfiguration e.entryType && (g.lastApplied k).1 < e.index && e.index ≤ k then none
  else some (g.lastApplied k).2

/-- Add a record. -/
def record (g : Full) : Record → Full
  | .entry e => { g with entries := g.entries.take (e.index - (g.start + 1)) ++ [e] }
  | .confStateAt index cs => { g with changes := g.changes ++ [⟨index, cs, none⟩] }
  | .origin r cs => { g with changes := g.changes ++ [⟨r.position.index, cs, some r⟩] }
  | .snapshot image _ => ⟨image.cut.index, image.confState, [], []⟩
  | _ => g

/-- Add records. -/
def records (g : Full) (rs : List Record) : Full := rs.foldl record g

end Full

/-- Two views agree on the configurations. -/
structure Agrees (v v' : View) : Prop where
  confIndex : v.confIndex = v'.confIndex
  confHistory : v.confHistory = v'.confHistory
  origins : v.origins = v'.origins
  confState : v.mem.confState = v'.mem.confState
  membership : v.membership.SameRecords v'.membership

/-- What a store knows is the part of the full log that it has not dropped. -/
structure Good (w : Wire) (g : Full) (v : View) : Prop where
  wf : v.mem.Wf
  cut_le : v.mem.cut.index ≤ v.mem.hardState.commit
  start : g.start = (v.snapshot.map (·.cut.index)).getD 0
  start_le : g.start ≤ v.mem.cut.index
  full : Contiguous (g.start + 1) g.entries
  covered : v.mem.cut.index ≤ g.start + g.entries.length
  entries : v.mem.entries = g.entries.drop (v.mem.cut.index - g.start)
  history : v.confHistory = ⟨if v.snapshot.isNone then some g.state else none, g.applied, false⟩
  ascending : (g.start :: g.changes.map Change.index).Pairwise (· < ·)
  indexed : ∀ c ∈ g.changes, c.Indexed
  confIndex : ∀ c ∈ g.changes, c.index ≤ v.confIndex
  confIndex_ge : g.start ≤ v.confIndex
  origin : ∀ c ∈ g.changes, v.origins.get c.index = c.origin
  /-- Nothing is known of a base that is not there. -/
  no_base : v.mem.cut.index = 0 → v.mem.cut = ⟨0, 0⟩ ∧ v.configurationBase = none
  base : 0 < v.mem.cut.index → ∃ cs, v.configurationBase = some (v.mem.cut, cs)
    ∧ ((∀ c ∈ g.changes, v.mem.cut.index < c.index) → cs = g.state)
  /-- Every change up to the base was applied by then. -/
  quiet : ∀ e ∈ g.entries, isConfiguration e.entryType → e.index ≤ v.mem.cut.index →
    ∃ c ∈ g.changes, e.index ≤ c.index ∧ c.index ≤ v.mem.cut.index
  hashed : v.membership.Hashed w
  /-- The accounts are those of a log that has nothing but the changes. -/
  told : v.snapshot = none → ∃ c,
    (View.new w).replay w (.confState g.state :: g.changes.map Change.record) = .ok c ∧ Agrees v c

/-- What the Raft library hands over to be written: entries that go on from the log without
touching what is committed, and a hard state that goes back on nothing. -/
structure Ready (v : View) (entries : List Entry) (hs : Option HardState) : Prop where
  contiguous : ∀ e ∈ entries.head?, Contiguous e.index entries
  uncommitted : ∀ e ∈ entries.head?, v.mem.hardState.commit < e.index
  reached : ∀ e ∈ entries.head?, e.index ≤ v.mem.lastIndex + 1
  term_le : ∀ h ∈ hs, v.mem.hardState.term ≤ h.term
  vote_eq : ∀ h ∈ hs, h.term = v.mem.hardState.term → v.mem.hardState.vote ≠ 0 →
    h.vote = v.mem.hardState.vote
  commit_le : ∀ h ∈ hs, v.mem.hardState.commit ≤ h.commit

/-- A record that some call writes to the log. -/
inductive Admissible (w : Wire) (v : View) : Record → Prop where
  | entry {e : Entry} (h : Ready v [e] none) : Admissible w v (.entry e)
  | hardState {hs : HardState} (h : Ready v [] (some hs)) : Admissible w v (.hardState hs)
  | confStateAt {index : ℕ} {cs : ConfState} (hnew : v.confIndex < index)
      (horigin : v.origins.get index = none) : Admissible w v (.confStateAt index cs)
  | origin {r : AppliedConfigurationOrigin} {cs : ConfState}
      (hnew : v.confIndex < r.position.index) (hinsert : v.origins.validateInsert r = .ok ()) :
      Admissible w v (.origin r cs)
  | leaseEpoch {next : Lease.LeaseEpoch} (hsnapshot : v.snapshot = none)
      (hnext : Lease.LeaseEpoch.successor v.leaseEpoch next.policy = .ok next) :
      Admissible w v (.leaseEpoch next)
  | snapshot {image : Snapshot} {hs : HardState} (hlease : v.leaseEpoch = none)
      (hvalid : validateTransition w v.mem v.snapshot image hs = .ok ()) :
      Admissible w v (.snapshot image hs)
  | compaction {floor : Position} {decision : RootDigest} {cs : ConfState}
      {appliedAt : Option Position} (habove : v.mem.cut.index < floor.index)
      (hfound : v.configurationAtCommitted floor = .ok (.found ⟨floor, appliedAt, cs⟩)) :
      Admissible w v (.compaction floor decision cs)

/-- Records that can be written one after the other. -/
def Admits (w : Wire) : View → List Record → Prop
  | _, [] => True
  | v, r :: rs => Admissible w v r ∧ ∀ v', v.replayRecord w r = .ok v' → Admits w v' rs

end Kv9.Raft.Storage
