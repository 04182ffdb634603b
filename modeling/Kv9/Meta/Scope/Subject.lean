import Kv9.Common.DataRange
import Kv9.Meta.Store

/-!
# What a task row is about

Every task row of a data group names regions, keyspaces, tenants and nodes, and the earlier
tasks whose subject it shares.  This is all that decides which nodes the row is streamed to.
The payload of a row is read by the decoder of its kind; how its bytes are laid out plays no
part here, and of a payload only what its subject is made of.
-/

namespace Kv9.Meta.Scope

open Codec Except

abbrev NodeId := UInt64

abbrev TaskId := UInt64

/-- The retry identity of an operation. -/
abbrev Operation := Bytes

/-- The refusals of the decoders. -/
def invalid (message : String) : Error := .config message

/-- The subject of one task row. -/
structure TaskSubject where
  kind : UInt64 := 0
  regions : List RegionId := []
  keyspaces : List UInt64 := []
  tenants : List UInt64 := []
  /-- Nodes the row names as a replica, destination or source. -/
  nodes : List NodeId := []
  /-- Earlier tasks whose subject this row shares. -/
  refs : List TaskId := []
  /-- The backup whose intent's subject a completion or a retirement shares. -/
  backupOperation : Option Operation := none
  /-- A drain is about its node alone. -/
  drain : Option NodeId := none
  /-- The creations of the regions this row derives from `parents`. -/
  childCreations : List TaskId := []
  parents : List RegionId := []
  /-- Lineage given directly, as a child and its parent. -/
  edges : List (RegionId × RegionId) := []
  /-- A row about the ranges of a whole keyspace. -/
  umbrella : Bool := false

/-! ## Payloads -/

structure CreationIntent where
  task : TaskId
  region : RegionId
  replicas : List NodeId

structure MigrationIntent where
  creationTask : TaskId
  region : RegionId
  destination : NodeId

structure InstallEvidence where
  migrationTask : TaskId
  region : RegionId
  destination : NodeId

structure MigrationAbort where
  migrationTask : TaskId
  region : RegionId
  destination : NodeId

structure TruncationDecision where
  evidenceTask : TaskId
  region : RegionId

structure RemovalDecision where
  evidenceTask : TaskId
  region : RegionId
  source : NodeId
  originTask : TaskId

structure GroupCompaction where
  creationTask : TaskId
  region : RegionId

structure ReplicaPlan where
  migrationTask : TaskId
  region : RegionId
  /-- The replica that a move retires. -/
  source : Option NodeId

structure SplitIntent where
  parentBindTask : TaskId
  parentRegion : RegionId
  childLow : TaskId
  childHigh : TaskId

/-- The evidence that the child of a split or a merge was populated. -/
structure PopulationEvidence where
  intentTask : TaskId
  childTask : TaskId

structure MergeIntent where
  lowBindTask : TaskId
  lowRegion : RegionId
  highBindTask : TaskId
  highRegion : RegionId
  child : TaskId

structure BackupRange where
  region : RegionId
  creationTask : TaskId
  bindTask : TaskId

structure BackupIntent where
  operation : Operation
  keyspace : KeyspaceId
  tenant : TenantId
  ranges : List BackupRange

structure RestoreTarget where
  sourceRegion : RegionId
  creationTask : TaskId
  region : RegionId

structure RestoreIntent where
  backupTask : TaskId
  keyspace : KeyspaceId
  tenant : TenantId
  targets : List RestoreTarget

structure RestoreEvidence where
  sourceRegion : RegionId
  targetTask : TaskId

/-- The decoders of the payloads. -/
structure Payloads where
  creation : Bytes → Except Error CreationIntent
  migration : Bytes → Except Error MigrationIntent
  evidence : Bytes → Except Error InstallEvidence
  truncation : Bytes → Except Error TruncationDecision
  removal : Bytes → Except Error RemovalDecision
  abort : Bytes → Except Error MigrationAbort
  compaction : Bytes → Except Error GroupCompaction
  plan : Bytes → Except Error ReplicaPlan
  /-- The node that is drained. -/
  drain : Bytes → Except Error NodeId
  split : Bytes → Except Error SplitIntent
  splitEvidence : Bytes → Except Error PopulationEvidence
  merge : Bytes → Except Error MergeIntent
  mergeEvidence : Bytes → Except Error PopulationEvidence
  /-- The task that is aborted. -/
  rangeAbort : Bytes → Except Error TaskId
  /-- The region that was sealed. -/
  sealEvidence : Bytes → Except Error RegionId
  backup : Bytes → Except Error BackupIntent
  /-- The region that was anchored. -/
  backupAnchor : Bytes → Except Error RegionId
  /-- The backup that is retired. -/
  backupRetirement : Bytes → Except Error Operation
  /-- The backup that is complete. -/
  backupCompletion : Bytes → Except Error Operation
  restore : Bytes → Except Error RestoreIntent
  restoreEvidence : Bytes → Except Error RestoreEvidence
  /-- The region of the capture a descriptor describes. -/
  capture : Bytes → Except Error RegionId

/-- The kinds that are declared. -/
def declaredKinds : List UInt64 :=
  [100, 101, 102, 103, 104, 105, 106, 108, 110, 111, 112, 113, 114, 115, 116, 117, 118, 119, 120,
    121, 122, 123, 124]

/-- The synthetic destination of a backup. -/
def backupDestinationNode : NodeId := 0xffffffffffffffff

/-- A node, unless it is the synthetic destination of a backup. -/
def real (node : NodeId) : Option NodeId :=
  if node ≠ backupDestinationNode then some node else none

/-- What a range binding is about: its creation, and the range after it. -/
def bindingSubject (bytes : Bytes) : Except Error TaskSubject := do
  failIf (bytes.length < 8) (invalid "range binding payload too short")
  let range ← DataRange.decode (bytes.drop 8)
  return {
    refs := [fromBe64 (bytes.take 8)]
    regions := [range.region]
    keyspaces := [range.keyspace.toUInt64]
    tenants := [range.tenant] }

/-- The subject of a payload of a declared kind. -/
def subjectOfKind (p : Payloads) (kind : UInt64) (bytes : Bytes) : Except Error TaskSubject :=
  if kind = 100 then do
    let intent ← p.creation bytes
    return { regions := [intent.region], nodes := intent.replicas }
  else if kind = 101 then do
    let intent ← p.creation bytes
    return { regions := [intent.region], nodes := intent.replicas
             refs := [intent.task] }
  else if kind = 102 then bindingSubject bytes
  else if kind = 103 then do
    let m ← p.migration bytes
    return { regions := [m.region], nodes := [m.destination], refs := [m.creationTask] }
  else if kind = 104 then do
    let e ← p.evidence bytes
    return { regions := [e.region], nodes := (real e.destination).toList
             refs := [e.migrationTask] }
  else if kind = 105 then do
    let t ← p.truncation bytes
    return { regions := [t.region], refs := [t.evidenceTask] }
  else if kind = 106 then do
    let r ← p.removal bytes
    return { regions := [r.region], nodes := [r.source]
             refs := [r.evidenceTask, r.originTask].filter (· ≠ 0) }
  else if kind = 108 then do
    let a ← p.abort bytes
    return { regions := [a.region], nodes := (real a.destination).toList
             refs := [a.migrationTask] }
  else if kind = 110 then do
    let c ← p.compaction bytes
    return { regions := [c.region], refs := [c.creationTask] }
  else if kind = 111 then do
    let q ← p.plan bytes
    return { regions := [q.region], nodes := q.source.toList
             refs := [q.migrationTask].filter (· ≠ 0) }
  else if kind = 112 then do
    let d ← p.drain bytes
    return { drain := some d }
  else if kind = 113 then do
    let i ← p.split bytes
    return { regions := [i.parentRegion], refs := [i.parentBindTask, i.childLow, i.childHigh]
             childCreations := [i.childLow, i.childHigh], parents := [i.parentRegion] }
  else if kind = 114 then do
    let e ← p.splitEvidence bytes
    return { refs := [e.intentTask, e.childTask] }
  else if kind = 115 then do
    let m ← p.merge bytes
    return { regions := [m.lowRegion, m.highRegion]
             refs := [m.lowBindTask, m.highBindTask, m.child]
             childCreations := [m.child], parents := [m.lowRegion, m.highRegion] }
  else if kind = 116 then do
    let e ← p.mergeEvidence bytes
    return { refs := [e.intentTask, e.childTask] }
  else if kind = 117 then do
    let a ← p.rangeAbort bytes
    return { refs := [a] }
  else if kind = 118 then do
    let region ← p.sealEvidence bytes
    return { regions := [region] }
  else if kind = 119 then do
    let b ← p.backup bytes
    return { umbrella := true, keyspaces := [b.keyspace.toUInt64], tenants := [b.tenant]
             regions := b.ranges.map (·.region)
             refs := b.ranges.flatMap fun r => [r.creationTask, r.bindTask] }
  else if kind = 120 then do
    let region ← p.backupAnchor bytes
    return { regions := [region] }
  else if kind = 121 then do
    let r ← p.backupRetirement bytes
    return { backupOperation := some r, umbrella := true }
  else if kind = 122 then do
    let c ← p.backupCompletion bytes
    return { backupOperation := some c, umbrella := true }
  else if kind = 123 then do
    let r ← p.restore bytes
    return { umbrella := true, edges := r.targets.map fun t => (t.region, t.sourceRegion)
             keyspaces := [r.keyspace.toUInt64], tenants := [r.tenant]
             regions := r.targets.flatMap fun t => [t.region, t.sourceRegion]
             refs := r.backupTask :: r.targets.map (·.creationTask) }
  else do
    let e ← p.restoreEvidence bytes
    return { regions := [e.sourceRegion], refs := [e.targetTask], childCreations := [e.targetTask]
             parents := [e.sourceRegion] }

/-- `task_subject`: the subject of a task row, unless its kind is not declared. -/
def taskSubject (p : Payloads) (value : RowValue) : Except Error (Option TaskSubject) :=
  match value.get 2 with
  | some (.uint kind) =>
    if kind ∉ declaredKinds then .ok none
    else
      match value.get 3 with
      | some (.bytes bytes) => do
        let s ← subjectOfKind p kind bytes
        return some { s with kind := kind, refs := s.refs.filter (· ≠ 0) }
      | _ => .error (invalid "task row without a payload")
  | _ => .error (invalid "task row without a kind")

/-- `backup_intent_operation`: the operation of a backup intent. -/
def backupIntentOperation (p : Payloads) (value : RowValue) : Except Error (Option Operation) :=
  if value.get 2 ≠ some (.uint 119) then .ok none
  else
    match value.get 3 with
    | some (.bytes bytes) => do
      let b ← p.backup bytes
      return some b.operation
    | _ => .error (invalid "task row without a payload")

/-- The operation of a backup intent can be read if its subject can. -/
theorem backupIntentOperation_isOk {p : Payloads} {value : RowValue} {s : Option TaskSubject}
    (h : taskSubject p value = .ok s) :
  ∃ operation, backupIntentOperation p value = .ok operation
  := by
  rw [backupIntentOperation]
  split_ifs with hkind
  · use none
  · have hdeclared : ¬ (119 : UInt64) ∉ declaredKinds := by
      decide
    simp only [taskSubject, not_not.mp hkind, if_neg hdeclared] at h
    split at h
    · next bytes _ =>
        obtain ⟨subject, hsubject, -⟩ := bind_eq_ok.mp h
        obtain ⟨intent, hintent, -⟩ := bind_eq_ok.mp (hsubject : (do
          let b ← p.backup bytes
          return _) = _)
        use some intent.operation
        simp [hintent]
    · nomatch h

end Kv9.Meta.Scope
