import Kv9.Lib.Totals

/-!
# The log budget of a node

All logs of a node share one budget.  A source is one log layout; it has the bytes of its
files, and a charge for every position that was accepted and is not applied yet.  A proposal
first reserves its bytes by a claim, which becomes the charge of a position once the proposal
has one.

Every operation of the budget runs under one lock.  Reservations take the lock twice, and
look at the free space of the disk in between.
-/

namespace Kv9.LogBudget

/-- What cannot happen to a correct program: a counter falls below zero, or a source is
missing that its owner expects. -/
inductive Fault where
  | underflow
  | unregistered
deriving DecidableEq

/-- Why an operation is refused. -/
inductive Refusal where
  | overflow
  | backpressure
  | deferred
  | suffixBoundary
  | unresolved
deriving DecidableEq

/-- The answer to an operation. -/
inductive Reply where
  | done
  | refused (reason : Refusal)
  | granted
  | capacity (bytes : Option ℕ)
deriving DecidableEq

/-- Addition of 64-bit numbers, if the sum is one. -/
def checkedAdd (a b : ℕ) : Option ℕ := if a + b < 2 ^ 64 then some (a + b) else none

/-- Addition of 64-bit numbers, cut off at the greatest one. -/
def saturatingAdd (a b : ℕ) : ℕ := min (a + b) (2 ^ 64 - 1)

/-- Subtraction, which must not fall below zero. -/
def minus (a b : ℕ) : Except Fault ℕ := if b ≤ a then .ok (a - b) else .error .underflow

/-- An index and a term, ordered by the index first. -/
abbrev Position := ℕ ×ₗ ℕ

/-- The position of an index and a term. -/
def Position.mk (index term : ℕ) : Position := toLex (index, term)

/-- The index of a position. -/
def Position.index (p : Position) : ℕ := (ofLex p).1

/-- One log layout: the bytes of its files, whether they are unknown, and the charges of
positions that are not applied yet. -/
structure Source where
  bytes : ℕ
  uncertain : Bool
  pending : OrderedMap Position ℕ

/-- A source that nothing is known of. -/
def Source.default : Source := ⟨0, false, ∅⟩

/-- The charges of a source. -/
def Source.charges (s : Source) : ℕ := OrderedMap.total id s.pending

/-- The space set aside for rewriting logs. -/
structure Rewrite where
  limitBytes : ℕ
  reservedBytes : ℕ
  peakBytes : ℕ
  active : ℕ
  admitted : ℕ
  deferred : ℕ

/-- Whether the space for rewrites has room. -/
def Rewrite.fits (r : Rewrite) (bytes : ℕ) : Bool :=
  (checkedAdd r.reservedBytes bytes).any fun n => decide (n ≤ r.limitBytes)

/-- What was last seen of the disk. -/
structure Observation where
  available : Option ℕ
  overlap : ℕ
  probes : ℕ
  errors : ℕ
  refusals : ℕ

variable {Path : Type} [LinearOrder Path]

/-- The state under the lock. -/
structure State (Path : Type) [LinearOrder Path] where
  limit : ℕ
  files : ℕ
  reserved : ℕ
  peak : ℕ
  refused : ℕ
  uncertain : ℕ
  sources : OrderedMap Path Source
  writeStarted : ℕ
  writing : ℕ
  observation : Observation
  rewrite : Rewrite

namespace Observation

/-- Take note of a sample of the free space; there is none if the disk could not be asked or
took too long to answer. -/
def observe (o : Observation) (sample : Option ℕ) (overlap : ℕ) : Observation × Option ℕ :=
  ({ o with
      available := sample
      overlap := min overlap (2 ^ 64 - 1)
      probes := saturatingAdd o.probes 1
      errors := if sample.isNone then saturatingAdd o.errors 1 else o.errors }, sample)

/-- Whether the free space is enough for what is reserved, what was written since the sample
was asked for, and `bytes` more. -/
def admits (o : Observation) (minimum : ℕ) (sample : Option ℕ) (overlap reserved bytes : ℕ) :
    Observation × Bool :=
  let (o, available) := o.observe sample overlap
  let needed := minimum + reserved + bytes
  let accepted := available.any fun free =>
    decide (overlap + needed < 2 ^ 128 ∧ overlap + needed ≤ free)
  ({ o with refusals := if accepted then o.refusals else saturatingAdd o.refusals 1 }, accepted)

end Observation

namespace State

variable (s : State Path)

/-- The source of a path. -/
def source (path : Path) : Source := s.sources[path]?.getD .default

/-- Everything that is accounted for. -/
def used : ℕ := s.files + s.reserved + s.rewrite.reservedBytes

/-- Remember the highest sum of all charges. -/
def accountPeak : State Path :=
  { s with
    peak := max s.peak (saturatingAdd (saturatingAdd s.files s.reserved) s.rewrite.reservedBytes) }

/-- Whether there is room for `bytes` more. -/
def hasCapacity (bytes : ℕ) : Bool :=
  s.uncertain = 0 ∧
    (do
      let used ← checkedAdd s.files s.reserved
      let used ← checkedAdd used s.rewrite.reservedBytes
      checkedAdd used bytes).any fun used => decide (used ≤ s.limit)

/-- Change one source. -/
def setSource (path : Path) (source : Source) : State Path :=
  { s with sources := s.sources.insert path source }

/-- Count a refused proposal. -/
def refuse : State Path × Reply :=
  ({ s with refused := saturatingAdd s.refused 1 }, .refused .backpressure)

/-! ## Files -/

/-- Charge bytes before they are written. -/
def grow (path : Path) (bytes : ℕ) : State Path × Reply :=
  match checkedAdd s.files bytes with
  | none => (s, .refused .overflow)
  | some total =>
    let source := s.source path
    match checkedAdd source.bytes bytes with
    | none => (s.setSource path source, .refused .overflow)
    | some sum =>
      ({ s.setSource path { source with bytes := sum } with files := total }.accountPeak, .done)

/-- Charge bytes at the start of a write. -/
def beginWrite (path : Path) (bytes : ℕ) : State Path × Reply :=
  match checkedAdd s.files bytes, checkedAdd s.writing bytes with
  | some files, some writing =>
    if s.writeStarted + bytes < 2 ^ 128 then
      let source := s.source path
      match checkedAdd source.bytes bytes with
      | none => (s.setSource path source, .refused .overflow)
      | some sum =>
        ({ s.setSource path { source with bytes := sum } with
            files := files
            writing := writing
            writeStarted := s.writeStarted + bytes }.accountPeak, .done)
    else (s, .refused .overflow)
  | _, _ => (s, .refused .overflow)

/-- Give back the bytes that a write has not written. -/
def unwritten (path : Path) (bytes : ℕ) : Except Fault (State Path × Reply) :=
  match s.sources[path]? with
  | none => .error .unregistered
  | some source => do
    let sum ← minus source.bytes bytes
    let files ← minus s.files bytes
    return ({ s.setSource path { source with bytes := sum } with files := files }, .done)

/-- A write is over. -/
def endWrite (bytes : ℕ) : Except Fault (State Path × Reply) := do
  let writing ← minus s.writing bytes
  return ({ s with writing := writing }, .done)

/-- Set the bytes of a source to what was measured. -/
def reconcile (path : Path) (bytes : ℕ) : Except Fault (State Path × Reply) :=
  let old := s.source path
  if s.files < old.bytes then .ok (s, .refused .overflow)
  else
    match checkedAdd (s.files - old.bytes) bytes with
    | none => .ok (s, .refused .overflow)
    | some total => do
      let uncertain ← minus s.uncertain old.uncertain.toNat
      return ({ s.setSource path { old with bytes := bytes, uncertain := false } with
          uncertain := uncertain
          files := total }.accountPeak, .done)

/-- The bytes of a source are no longer known. -/
def markUncertain (path : Path) : State Path × Reply :=
  let source := s.source path
  ({ s.setSource path { source with uncertain := true } with
      uncertain := s.uncertain + (!source.uncertain).toNat }, .done)

/-! ## Positions -/

/-- Keep a charge for a position, unless there is one as high. -/
def retainPosition (path : Path) (index term bytes : ℕ) : State Path × Reply :=
  let source := s.source path
  let old := (source.pending[Position.mk index term]?).getD 0
  if bytes ≤ old then (s, .done)
  else
    match checkedAdd s.reserved (bytes - old) with
    | none => (s, .refused .overflow)
    | some next =>
      let pending := source.pending.insert (Position.mk index term) bytes
      ({ s.setSource path { source with pending := pending } with
          reserved := next }.accountPeak, .done)

/-- Replace the charges from an index on. -/
def replacePendingSuffix (path : Path) (first : ℕ) (replacement : OrderedMap Position ℕ) :
    Except Fault (State Path × Reply) :=
  if replacement.toList.any fun e => decide (e.1.index < first) then
    .ok (s, .refused .suffixBoundary)
  else
    match s.sources[path]? with
    | none => .error .unregistered
    | some source =>
      let boundary := Position.mk first 0
      let old := ((OrderedMap.range source.pending (.included boundary) .unbounded).map
        Prod.snd).sum
      match replacement.toList.foldlM (fun n e => checkedAdd n e.2) 0 with
      | none => .ok (s, .refused .overflow)
      | some next =>
        if s.reserved < old then .ok (s, .refused .overflow)
        else
          match checkedAdd (s.reserved - old) next with
          | none => .ok (s, .refused .overflow)
          | some total =>
            let kept := source.pending.filter fun k _ => decide (k < boundary)
            let pending := OrderedMap.extend kept replacement.toList
            .ok ({ s.setSource path { source with pending := pending } with
                reserved := total }.accountPeak, .done)

/-- Take out the charges up to an index, and add them up. -/
def popThrough (index : ℕ) : ℕ → OrderedMap Position ℕ → ℕ → OrderedMap Position ℕ × ℕ
  | 0, pending, released => (pending, released)
  | fuel + 1, pending, released =>
    match pending.toList.head? with
    | some (k, n) =>
      if k.index ≤ index then popThrough index fuel (pending.erase k) (released + n)
      else (pending, released)
    | none => (pending, released)

/-- Release the charges of the positions up to an index. -/
def appliedThrough (path : Path) (index : ℕ) : Except Fault (State Path × Reply) :=
  match s.sources[path]? with
  | none => .error .unregistered
  | some source => do
    let (pending, released) := popThrough index source.pending.size source.pending 0
    let reserved ← minus s.reserved released
    return ({ s.setSource path { source with pending := pending } with reserved := reserved },
      .done)

/-- Forget a source without debt. -/
def forgetEmpty (path : Path) : Except Fault (State Path × Reply) :=
  match s.sources[path]? with
  | none => .error .unregistered
  | some source =>
    if source.bytes ≠ 0 ∨ source.pending.isEmpty = false ∨ source.uncertain = true then
      .ok (s, .refused .unresolved)
    else
      .ok ({ s with sources := s.sources.erase path }, .done)

/-! ## Claims -/

/-- The first part of a reservation on a node that watches its disk. -/
def beginReserve (bytes : ℕ) : State Path × Reply :=
  if s.hasCapacity bytes then (s, .done) else s.refuse

/-- Grant a reservation, if the disk allows it and there is room for it. -/
def grant (diskOk : Bool) (bytes : ℕ) : State Path × Reply :=
  if !diskOk || !s.hasCapacity bytes then s.refuse
  else
    match checkedAdd s.reserved bytes with
    | none => (s, .refused .overflow)
    | some reserved => ({ s with reserved := reserved }.accountPeak, .granted)

/-- What was written while the disk was asked: since `started`, or in flight before. -/
def overlap (started writing : ℕ) : Except Fault ℕ := do
  let since ← minus s.writeStarted started
  return since + writing

/-- The second part of a reservation on a node that watches its disk. -/
def finishReserve (minimum : ℕ) (sample : Option ℕ) (started writing bytes : ℕ) :
    Except Fault (State Path × Reply) := do
  let overlap ← s.overlap started writing
  let (observation, diskOk) :=
    s.observation.admits minimum sample overlap (s.reserved + s.rewrite.reservedBytes) bytes
  return { s with observation := observation }.grant diskOk bytes

/-- A claim becomes the charge of a position. -/
def accept (claim : ℕ) (path : Path) (index term : ℕ) : Except Fault (State Path × Reply) := do
  let source := s.source path
  let old := (source.pending[Position.mk index term]?).getD 0
  let pending := source.pending.insert (Position.mk index term) (max claim old)
  let reserved ← minus s.reserved (min old claim)
  return ({ s.setSource path { source with pending := pending } with reserved := reserved }, .done)

/-- A claim is given up. -/
def dropClaim (claim : ℕ) : Except Fault (State Path × Reply) := do
  let reserved ← minus s.reserved claim
  return ({ s with reserved := reserved }, .done)

/-- Count a deferred rewrite. -/
def deferRewrite : State Path × Reply :=
  ({ s with rewrite := { s.rewrite with deferred := saturatingAdd s.rewrite.deferred 1 } },
    .refused .deferred)

/-- The first part of a reservation for a rewrite. -/
def beginRewrite (bytes : ℕ) : State Path × Reply :=
  if bytes = 0 ∨ s.uncertain ≠ 0 ∨ s.rewrite.fits bytes = false then s.deferRewrite
  else (s, .done)

/-- The second part of a reservation for a rewrite. -/
def finishRewrite (disk : Option ℕ) (sample : Option ℕ) (started writing bytes : ℕ) :
    Except Fault (State Path × Reply) := do
  let (s, diskOk) ←
    match disk with
    | none => pure (s, true)
    | some minimum => do
      let overlap ← s.overlap started writing
      let (observation, available) := s.observation.observe sample overlap
      let needed := minimum + s.reserved + s.rewrite.reservedBytes + bytes
      pure ({ s with observation := observation }, available.any fun free =>
        decide (overlap + needed < 2 ^ 128 ∧ overlap + needed ≤ free))
  if !diskOk || decide (s.uncertain ≠ 0) || !s.rewrite.fits bytes then
    return s.deferRewrite
  else
    let reserved := s.rewrite.reservedBytes + bytes
    return ({ s with
      rewrite := { s.rewrite with
        reservedBytes := reserved
        active := s.rewrite.active + 1
        admitted := saturatingAdd s.rewrite.admitted 1
        peakBytes := max s.rewrite.peakBytes reserved } }.accountPeak, .granted)

/-- The space of a rewrite is given back. -/
def dropRewrite (claim : ℕ) : Except Fault (State Path × Reply) := do
  let reserved ← minus s.rewrite.reservedBytes claim
  let active ← minus s.rewrite.active 1
  return ({ s with rewrite := { s.rewrite with reservedBytes := reserved, active := active } },
    .done)

/-- The first part of an observation of the capacity; it may be the whole. -/
def beginObserve : Option (Option ℕ) :=
  if s.uncertain ≠ 0 then some none
  else if s.hasCapacity 1 = false then some (some 0)
  else none

/-- The second part of an observation of the capacity. -/
def finishObserve (disk : Option ℕ) (sample : Option ℕ) (started writing : ℕ) :
    Except Fault (State Path × Reply) :=
  if s.uncertain ≠ 0 then .ok (s, .capacity none)
  else
    let capacity := s.limit
      - saturatingAdd (saturatingAdd s.files s.reserved) s.rewrite.reservedBytes
    match disk with
    | none => .ok (s, .capacity (some capacity))
    | some minimum => do
      let overlap ← s.overlap started writing
      let (observation, available) := s.observation.observe sample overlap
      let needed := minimum + s.reserved + s.rewrite.reservedBytes + overlap
      let answer := available.bind fun free =>
        if needed < 2 ^ 128 then some (min capacity ((free - needed) % 2 ^ 64)) else none
      return ({ s with observation := observation }, .capacity answer)

end State

end Kv9.LogBudget
