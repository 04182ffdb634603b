import Kv9.Common.LogBudget.Basic

/-!
# The accounts of the log budget

Any number of threads use the budget.  A turn is what one of them does while it holds the
lock.  Between the turns there are claims that are not accepted yet, writes in progress, and
reservations that wait for a sample of the free space.

Whatever the order of the turns, the counters of the budget agree with what they count, and
none of them falls below zero.
-/

namespace Kv9.LogBudget

open OrderedMap

variable {Path : Type} [LinearOrder Path]

/-- A write in progress.  `outstanding` are the bytes of it that its source is still charged
for: none after the source was measured. -/
structure OpenWrite (Path : Type) where
  path : Path
  bytes : ℕ
  outstanding : ℕ

/-- What a sample of the free space is for. -/
inductive Purpose where
  | proposal
  | rewrite
  | observation
deriving DecidableEq

/-- A thread that waits for a sample of the free space. -/
structure Sampling where
  purpose : Purpose
  bytes : ℕ
  started : ℕ
  writing : ℕ

/-- The budget, and what its users hold between their turns, by name. -/
structure World (Path : Type) [LinearOrder Path] where
  state : State Path
  disk : Option ℕ
  claims : OrderedMap ℕ ℕ
  rewrites : OrderedMap ℕ ℕ
  writes : OrderedMap ℕ (OpenWrite Path)
  samplings : OrderedMap ℕ Sampling

/-- What a thread does while it holds the lock. -/
inductive Turn (Path : Type) where
  | grow (path : Path) (bytes : ℕ)
  | beginWrite (write : ℕ) (path : Path) (bytes : ℕ)
  | unwritten (write n : ℕ)
  | endWrite (write : ℕ)
  | reconcile (path : Path) (bytes : ℕ)
  | markUncertain (path : Path)
  | retainPosition (path : Path) (index term bytes : ℕ)
  | replacePendingSuffix (path : Path) (first : ℕ) (replacement : OrderedMap Position ℕ)
  | appliedThrough (path : Path) (index : ℕ)
  | forgetEmpty (path : Path)
  | reserve (claim bytes : ℕ)
  | beginReserve (sampling bytes : ℕ)
  | finishReserve (sampling claim : ℕ) (sample : Option ℕ)
  | accept (claim : ℕ) (path : Path) (index term : ℕ)
  | dropClaim (claim : ℕ)
  | beginRewrite (sampling bytes : ℕ)
  | finishRewrite (sampling claim : ℕ) (sample : Option ℕ)
  | dropRewrite (claim : ℕ)
  | beginObserve (sampling : ℕ)
  | finishObserve (sampling : ℕ) (sample : Option ℕ)

namespace World

variable (w : World Path)

/-- A new budget. -/
def new (limit rewriteLimit : ℕ) (disk : Option ℕ) : World Path where
  state := {
    limit := limit
    files := 0
    reserved := 0
    peak := 0
    refused := 0
    uncertain := 0
    sources := ∅
    writeStarted := 0
    writing := 0
    observation := ⟨none, 0, 0, 0, 0⟩
    rewrite := ⟨rewriteLimit, 0, 0, 0, 0, 0⟩ }
  disk := disk
  claims := ∅
  rewrites := ∅
  writes := ∅
  samplings := ∅

/-- Nothing of a write on the path has to be given back. -/
def measured (path : Path) : OrderedMap ℕ (OpenWrite Path) :=
  w.writes.map fun _ o => if o.path = path then { o with outstanding := 0 } else o

/-- Wait for a sample of the free space. -/
def wait (sampling : ℕ) (purpose : Purpose) (bytes : ℕ) : World Path :=
  { w with
    samplings :=
      w.samplings.insert sampling ⟨purpose, bytes, w.state.writeStarted, w.state.writing⟩ }

/-- The sampling of a name, if it is for the given purpose. -/
def sampled (sampling : ℕ) (purpose : Purpose) : Option Sampling :=
  w.samplings[sampling]?.filter fun s => decide (s.purpose = purpose)

/-- One turn.  A turn of a claim, a write or a sampling that there is not does nothing. -/
def turn : Turn Path → Except Fault (World Path × Reply)
  | .grow path bytes =>
    let (s, reply) := w.state.grow path bytes
    .ok ({ w with state := s }, reply)
  | .beginWrite write path bytes =>
    let (s, reply) := w.state.beginWrite path bytes
    .ok ({ w with
      state := s
      writes := if reply = .done then w.writes.insert write ⟨path, bytes, bytes⟩
        else w.writes }, reply)
  | .unwritten write n =>
    match w.writes[write]? with
    | none => .ok (w, .done)
    | some o => do
      let (s, reply) ← w.state.unwritten o.path (o.bytes - n)
      return ({ w with
        state := s
        writes := w.writes.insert write { o with outstanding := 0 } }, reply)
  | .endWrite write =>
    match w.writes[write]? with
    | none => .ok (w, .done)
    | some o => do
      let (s, reply) ← w.state.endWrite o.bytes
      return ({ w with state := s, writes := w.writes.erase write }, reply)
  | .reconcile path bytes => do
    let (s, reply) ← w.state.reconcile path bytes
    return ({ w with
      state := s
      writes := if reply = .done then w.measured path else w.writes }, reply)
  | .markUncertain path =>
    let (s, reply) := w.state.markUncertain path
    .ok ({ w with state := s }, reply)
  | .retainPosition path index term bytes =>
    let (s, reply) := w.state.retainPosition path index term bytes
    .ok ({ w with state := s }, reply)
  | .replacePendingSuffix path first replacement => do
    let (s, reply) ← w.state.replacePendingSuffix path first replacement
    return ({ w with state := s }, reply)
  | .appliedThrough path index => do
    let (s, reply) ← w.state.appliedThrough path index
    return ({ w with state := s }, reply)
  | .forgetEmpty path => do
    let (s, reply) ← w.state.forgetEmpty path
    return ({ w with state := s }, reply)
  | .reserve claim bytes =>
    -- Without a disk to watch there is no sample, and the reservation is one turn.
    if w.disk.isSome then .ok (w, .done)
    else
      let (s, reply) := w.state.grant true bytes
      .ok ({ w with
        state := s
        claims := if reply = .granted then w.claims.insert claim bytes else w.claims }, reply)
  | .beginReserve sampling bytes =>
    let (s, reply) := w.state.beginReserve bytes
    let next := { w with state := s }
    .ok (if reply = .done then next.wait sampling .proposal bytes else next, reply)
  | .finishReserve sampling claim sample =>
    match w.sampled sampling .proposal, w.disk with
    | some waiting, some minimum => do
      let (s, reply) ← w.state.finishReserve minimum sample waiting.started waiting.writing
        waiting.bytes
      return ({ w with
        state := s
        samplings := w.samplings.erase sampling
        claims := if reply = .granted then w.claims.insert claim waiting.bytes
          else w.claims }, reply)
    | _, _ => .ok (w, .done)
  | .accept claim path index term =>
    match w.claims[claim]? with
    | none => .ok (w, .done)
    | some bytes => do
      let (s, reply) ← w.state.accept bytes path index term
      return ({ w with state := s, claims := w.claims.erase claim }, reply)
  | .dropClaim claim =>
    match w.claims[claim]? with
    | none => .ok (w, .done)
    | some bytes => do
      let (s, reply) ← w.state.dropClaim bytes
      return ({ w with state := s, claims := w.claims.erase claim }, reply)
  | .beginRewrite sampling bytes =>
    let (s, reply) := w.state.beginRewrite bytes
    let next := { w with state := s }
    .ok (if reply = .done then next.wait sampling .rewrite bytes else next, reply)
  | .finishRewrite sampling claim sample =>
    match w.sampled sampling .rewrite with
    | none => .ok (w, .done)
    | some waiting => do
      let (s, reply) ← w.state.finishRewrite w.disk sample waiting.started waiting.writing
        waiting.bytes
      return ({ w with
        state := s
        samplings := w.samplings.erase sampling
        rewrites := if reply = .granted then w.rewrites.insert claim waiting.bytes
          else w.rewrites }, reply)
  | .dropRewrite claim =>
    match w.rewrites[claim]? with
    | none => .ok (w, .done)
    | some bytes => do
      let (s, reply) ← w.state.dropRewrite bytes
      return ({ w with state := s, rewrites := w.rewrites.erase claim }, reply)
  | .beginObserve sampling =>
    match w.state.beginObserve with
    | some capacity => .ok (w, .capacity capacity)
    | none => .ok (w.wait sampling .observation 0, .done)
  | .finishObserve sampling sample =>
    match w.sampled sampling .observation with
    | none => .ok (w, .done)
    | some waiting => do
      let (s, reply) ← w.state.finishObserve w.disk sample waiting.started waiting.writing
      return ({ w with state := s, samplings := w.samplings.erase sampling }, reply)

/-- What the users of the budget keep to: the names of claims, writes and samplings are new,
and a write gives back no more than its source is still charged for, since nobody measures a
source while it is written to. -/
def Allowed : Turn Path → Prop
  | .beginWrite write _ _ => w.writes[write]? = none
  | .unwritten write n => ∀ o, w.writes[write]? = some o → o.bytes - n ≤ o.outstanding
  | .reserve claim _ => w.claims[claim]? = none
  | .beginReserve sampling _ => w.samplings[sampling]? = none
  | .finishReserve _ claim _ => w.claims[claim]? = none
  | .beginRewrite sampling _ => w.samplings[sampling]? = none
  | .finishRewrite _ claim _ => w.rewrites[claim]? = none
  | .beginObserve sampling => w.samplings[sampling]? = none
  | _ => True

/-- The worlds that turns lead to. -/
inductive Reachable (start : World Path) : World Path → Prop
  | start : Reachable start start
  | turn {w w' : World Path} {t : Turn Path} {reply : Reply} :
      Reachable start w → w.Allowed t → w.turn t = .ok (w', reply) → Reachable start w'

end World

end Kv9.LogBudget
