import Kv9.Raft.StateMachine.Expiry

/-!
# The apply loop of a driver

The driver takes the entries its peer hands over and applies them in log order.  It joins
writes of clients' values that are already there into one group; every other entry is applied
alone.  After a crash the machine is opened over an engine that had been reached before, and
the log is handed over again from an earlier entry.
-/

namespace Kv9.Raft

open Codec Engine Except RawTtl

/-- What an entry of the log carries. -/
inductive EntryKind where
  | command
  | confChangeV1
  | confChangeV2
  | noop
deriving DecidableEq

/-- A committed entry. -/
structure CommittedEntry where
  index : UInt64
  term : UInt64
  kind : EntryKind
  data : Bytes

/-- The position of an entry. -/
def CommittedEntry.pos (e : CommittedEntry) : AppliedPosition := ⟨e.term, e.index⟩

/-- The refusal of a configuration change that travels as a command. -/
def unwiredConfChange : Error := .raft
  ("legacy Command::ConfChange is unwired; membership "
    ++ "changes must use raft conf-change entries")

/-- The command of an entry.  A configuration change must not travel as a command. -/
def CommittedEntry.decode (e : CommittedEntry) : Except Error Command := do
  let cmd ← Command.decode e.data
  match cmd with
  | .confChange _ _ => throw unwiredConfChange
  | cmd => return cmd

namespace Driver

/-- The entries that join a group of some bytes and entries, and those that are left. -/
def gather (m : Machine) (bytes count : ℕ) :
    List CommittedEntry → List (AppliedPosition × Command) × List CommittedEntry
  | [] => ([], [])
  | next :: rest =>
    if count < Machine.maxRawGroupEntries ∧ next.kind = .command
        ∧ next.data.length ≤ Machine.maxRawGroupBytes - bytes then
      match Command.decode next.data with
      | .error _ => ([], next :: rest)
      | .ok cmd =>
        if m.canGroupRaw cmd then
          let (more, rest) := gather m (bytes + next.data.length) (count + 1) rest
          ((next.pos, cmd) :: more, rest)
        else
          ([], next :: rest)
    else
      ([], next :: rest)

/-- Apply one command, or a group of them. -/
def applyCommands (x : Externals) (m : Machine) (pos : AppliedPosition) (cmd : Command) :
    List (AppliedPosition × Command) → Except Error Machine
  | [] => do
    let (m, _) ← m.applyAt x pos cmd
    return m
  | more => do
    let (m, _) ← m.applyRawGroup ((pos, cmd) :: more)
    return m

/-- One turn of the loop: the machine after it, and the entries that are left. -/
def turn (x : Externals) (m : Machine) :
    List CommittedEntry → Except Error (Machine × List CommittedEntry)
  | [] => .ok (m, [])
  | entry :: rest =>
    if entry.kind = .command then do
      let cmd ← entry.decode
      let (more, rest) :=
        if entry.data.length ≤ Machine.maxRawGroupBytes ∧ m.applied < entry.index
            ∧ m.canGroupRaw cmd = true then
          gather m entry.data.length 1 rest
        else
          ([], rest)
      let m ← applyCommands x m entry.pos cmd more
      return (m, rest)
    else
      -- Barriers and configuration changes do not reach the machine.
      .ok (m, rest)

/-- Apply one entry alone. -/
def applyEntry (x : Externals) (m : Machine) (entry : CommittedEntry) : Except Error Machine :=
  if entry.kind = .command then do
    let cmd ← entry.decode
    let (m, _) ← m.applyAt x entry.pos cmd
    return m
  else
    .ok m

/-- One uninterrupted pass over a log, entry by entry. -/
def pass (x : Externals) (m : Machine) (log : List CommittedEntry) : Except Error Machine :=
  log.foldlM (applyEntry x) m

/-- A log as consensus commits it: indices ascend from one, and terms do not descend and are
not zero. -/
structure CommittedLog (log : List CommittedEntry) : Prop where
  ordered : log.Pairwise fun a b => a.index < b.index ∧ a.term ≤ b.term
  index_ne : ∀ e ∈ log, e.index ≠ 0
  term_ne : ∀ e ∈ log, e.term ≠ 0

/-- A driver in the middle of a log: its machine, the entries it has taken and not applied, how
much of the log was handed over, and the engines a crash may leave. -/
structure Delivery where
  machine : Machine
  pending : List CommittedEntry
  cursor : ℕ
  engines : List Store

/-- The deliveries of a log to a machine, with crashes. -/
inductive Delivers (x : Externals) (start : Machine) (log : List CommittedEntry) :
    Delivery → Prop where
  | start : Delivers x start log ⟨start, [], 0, [start.engine]⟩
  /-- The peer hands over the next entries. -/
  | take {d : Delivery} (n : ℕ) (hd : Delivers x start log d) (hidle : d.pending = []) :
      Delivers x start log { d with
          pending := (log.drop d.cursor).take n
          cursor := min (d.cursor + n) log.length }
  /-- The loop takes a turn. -/
  | turn {d : Delivery} {m : Machine} {rest : List CommittedEntry}
      (hd : Delivers x start log d) (hturn : Driver.turn x d.machine d.pending = .ok (m, rest)) :
      Delivers x start log
        { d with machine := m, pending := rest, engines := m.engine :: d.engines }
  /-- A crash leaves an engine that had been reached; delivery restarts anywhere, as long as no
  command is left out that the engine has not applied. -/
  | crash {d : Delivery} {engine : Store} {m : Machine} {cursor : ℕ}
      (hd : Delivers x start log d) (hengine : engine ∈ d.engines)
      (hreopen : { d.machine with engine := engine }.reopen = .ok m)
      (hcursor : cursor ≤ log.length)
      (hskipped : ∀ e ∈ log.take cursor, e.kind = .command → e.index ≤ m.applied) :
      Delivers x start log { d with machine := m, pending := [], cursor := cursor }

end Driver

end Kv9.Raft
