import Kv9.Engine.Image
import Kv9.Lib.Saturation
import Kv9.Meta.Scope.Resolver

/-!
# The scope of a node

A node that does not hold the whole catalog holds its scope: the regions it hosts or is named
for, their ancestors, the regions named next to these, and what goes with them.  The closure is
computed from one view, and says for every later change whether it is delivered to the node,
skipped, or widens the scope so that the node needs a new snapshot.
-/

namespace Kv9.Meta.Scope

open Codec Except Engine Saturation List

/-- One node's scope. -/
structure Closure where
  node : NodeId
  /-- The regions the node hosts or is named for, with their ancestors. -/
  anchors : List RegionId := []
  /-- The anchors, and the regions named next to one. -/
  regions : List RegionId := []
  keyspaces : List UInt64 := []
  tenants : List UInt64 := []
  nodes : List NodeId := []

/-- How one entry reaches one subscriber. -/
inductive Route where
  | deliver
  | skip
  /-- Deliver it if the subscriber holds the key. -/
  | ifHeld
  /-- Send a new snapshot instead. -/
  | resnapshot
  /-- Stop the stream. -/
  | undeclared
deriving DecidableEq

/-- Two sets have a common member. -/
def Meets (a b : List UInt64) : Prop := ∃ x ∈ a, x ∈ b

instance (a b : List UInt64) : Decidable (Meets a b) := inferInstanceAs (Decidable (∃ x ∈ a, _))

namespace Closure

/-- `delivers`: whether a task row is delivered. -/
def delivers (c : Closure) (r : Resolved) : Bool :=
  match r.drain with
  | some node => node = c.node
  | none =>
    if r.umbrella then Meets r.regions c.regions
    else Meets r.regions c.regions ∧ r.regions ⊆ c.regions

/-- `widened_by`: whether a task row would grow the closure. -/
def widenedBy (c : Closure) (r : Resolved) : Bool :=
  if r.drain.isSome then false
  else if ∃ e ∈ r.edges, e.1 ∈ c.anchors ∧ e.2 ∉ c.anchors then true
  else if r.umbrella then false
  else if c.node ∈ r.nodes ∧ ¬ r.regions ⊆ c.anchors then true
  else if Meets r.regions c.anchors ∧ ¬ r.regions ⊆ c.regions then true
  else c.delivers r
    ∧ ¬ (r.nodes ⊆ c.nodes ∧ r.keyspaces ⊆ c.keyspaces ∧ r.tenants ⊆ c.tenants)

end Closure

/-! ## Computing a closure -/

/-- What is found in a view. -/
structure Collected where
  taskIds : List TaskId := []
  regionKeyspace : OrderedMap RegionId UInt64 := ∅
  peers : List (RegionId × NodeId) := []
  keyspaceTenant : OrderedMap UInt64 UInt64 := ∅

/-- Note an entry of the view. -/
def collectEntry (p : Payloads) (found : Collected) (e : ScanEntry) : Except Error Collected := do
  match ← classify p e.1 (some e.2) with
  | some (.task _) =>
    let task ← decodeUintComponent (e.1.drop (e.1.length - 8))
    return { found with taskIds := found.taskIds ++ [task] }
  | some (.region region) =>
    if isRow e.1 then
      match (← RowValue.decode e.2).get 2 with
      | some (.uint keyspace) =>
        return { found with regionKeyspace := found.regionKeyspace.insert region keyspace }
      | _ => return found
    else return found
  | some (.regionPeer region node) =>
    if isRow e.1 then return { found with peers := found.peers ++ [(region, node)] }
    else return found
  | some (.keyspace keyspace) =>
    if isRow e.1 ∧ isTable e.1 keyspaces then
      match (← RowValue.decode e.2).get 3 with
      | some (.uint tenant) =>
        return { found with keyspaceTenant := found.keyspaceTenant.insert keyspace tenant }
      | _ => return found
    else return found
  | _ => return found

/-- Resolve the tasks that were found. -/
def resolveTasks (p : Payloads) (view : MemState) :
    List TaskId → Resolver → Except Error (List Resolved × Resolver)
  | [], r => .ok ([], r)
  | task :: rest, r => do
    let (resolved, r) ← r.task p view task
    let (more, r) ← resolveTasks p view rest r
    return (resolved.toList ++ more, r)

/-- A row that can widen a scope by what it names. -/
def Resolved.isLineage (t : Resolved) : Bool := t.drain.isNone && !t.umbrella

/-- The regions a node hosts or is named for. -/
def seeds (node : NodeId) (found : Collected) (tasks : List Resolved) : List RegionId :=
  ((tasks.filter fun t => t.isLineage && node ∈ t.nodes).flatMap (·.regions))
    ++ (found.peers.filter (·.2 = node)).map (·.1)

/-- The lineage that the tasks state. -/
def lineageEdges (tasks : List Resolved) : List (RegionId × RegionId) :=
  (tasks.filter (·.drain.isNone)).flatMap (·.edges)

/-- The regions a node hosts or is named for, with their ancestors. -/
def anchorsOf (node : NodeId) (found : Collected) (tasks : List Resolved) : List RegionId :=
  saturate (lineageEdges tasks) ((lineageEdges tasks).length + 1) (seeds node found tasks)

/-- The anchors, and every region that a row about an anchor names. -/
def regionsOf (anchors : List RegionId) (tasks : List Resolved) : List RegionId :=
  anchors ++ (tasks.filter fun t => t.isLineage && Meets t.regions anchors).flatMap (·.regions)

/-- What goes with the regions of a closure. -/
def close (node : NodeId) (full : List NodeId) (found : Collected) (tasks : List Resolved) :
    Closure :=
  let anchors := anchorsOf node found tasks
  let regions := regionsOf anchors tasks
  let c : Closure := { node := node, anchors := anchors, regions := regions }
  let delivered := tasks.filter fun t => t.isLineage && c.delivers t
  let keyspaces := delivered.flatMap (·.keyspaces)
    ++ (found.regionKeyspace.toList.filter (·.1 ∈ regions)).map (·.2)
  { c with
    nodes := node :: full ++ delivered.flatMap (·.nodes)
      ++ (found.peers.filter (·.1 ∈ regions)).map (·.2)
    keyspaces := keyspaces
    tenants := delivered.flatMap (·.tenants) ++ keyspaces.filterMap (found.keyspaceTenant[·]?) }

/-- `closure`: a node's scope, from one view and the full nodes. -/
def closure (p : Payloads) (view : MemState) (node : NodeId) (full : List NodeId) :
    Except Error Closure := do
  let found ← (forEach view allStart allEnd).foldlM (collectEntry p) {}
  let (tasks, _) ← resolveTasks p view found.taskIds .new
  return close node full found tasks

/-! ## Routing -/

/-- Route a task. -/
def routeTask (p : Payloads) (view : MemState) (c : Closure) (s : TaskSubject) (r : Resolver) :
    Except Error (Route × Resolver) := do
  let (resolved, r) ← r.resolve p view s
  if c.widenedBy resolved then return (.resnapshot, r)
  else if c.delivers resolved then return (.deliver, r)
  else return (.skip, r)

/-- Deliver an entry about something in the scope. -/
def deliverIf (inScope : Prop) [Decidable inScope] : Route :=
  if inScope then .deliver else .skip

/-- Route an entry about a replica. -/
def routePeer (c : Closure) (region : RegionId) (node : NodeId) (value : Option Bytes) : Route :=
  if node = c.node ∧ value.isSome ∧ region ∉ c.anchors then .resnapshot
  else if region ∈ c.regions then
    if node ∈ c.nodes ∨ value.isNone then .deliver else .resnapshot
  else .skip

/-- Route an entry about a keyspace. -/
def routeKeyspace (c : Closure) (keyspace : UInt64) (key : Bytes) (value : Option Bytes) :
    Except Error Route :=
  if keyspace ∉ c.keyspaces then .ok .skip
  else
    match value with
    | none => .ok .deliver
    | some bytes =>
      if isRow key ∧ isTable key keyspaces then do
        match (← RowValue.decode bytes).get 3 with
        | some (.uint tenant) => return if tenant ∉ c.tenants then .resnapshot else .deliver
        | _ => return .deliver
      else .ok .deliver

/-- `route`: how an entry reaches the subscriber with the closure.  A delete has no value. -/
def route (p : Payloads) (view : MemState) (c : Closure) (key : Bytes) (value : Option Bytes)
    (r : Resolver) : Except Error (Route × Resolver) := do
  match ← classify p key value with
  | none => return (.undeclared, r)
  | some .global => return (.deliver, r)
  | some .fullOnly => return (.skip, r)
  | some .held => return (.ifHeld, r)
  | some (.task s) => routeTask p view c s r
  | some (.region region) => return (deliverIf (region ∈ c.regions), r)
  | some (.regionPeer region node) => return (routePeer c region node value, r)
  | some (.keyspace keyspace) => return (← routeKeyspace c keyspace key value, r)
  | some (.tenant tenant) => return (deliverIf (tenant ∈ c.tenants), r)
  | some (.node node) => return (deliverIf (node ∈ c.nodes), r)
  | some (.capture region) => return (deliverIf (region ∈ c.regions), r)

/-- A snapshot stops at a key that is not declared. -/
def undeclaredKey (key : Bytes) : Error :=
  .malformedKey ("catalog scope: undeclared metadata key " ++ hex (key.take 48))

/-- The rows of a snapshot among the entries that follow. -/
def snapshotFrom (p : Payloads) (view : MemState) (c : Closure) :
    List ScanEntry → Resolver → Except Error (List ScanEntry)
  | [], _ => .ok []
  | e :: rest, r => do
    let (answer, r) ← route p view c e.1 (some e.2) r
    failIf (answer = .undeclared) (undeclaredKey e.1)
    let rows ← snapshotFrom p view c rest r
    return if answer = .deliver then e :: rows else rows

/-- `snapshot_rows`: the entries of a view in the scope. -/
def snapshotRows (p : Payloads) (view : MemState) (c : Closure) :
    Except Error (List ScanEntry) :=
  snapshotFrom p view c (forEach view allStart allEnd) .new

/-- Route entries one after the other, through one resolver. -/
def routeAll (p : Payloads) (view : MemState) (c : Closure) :
    List ScanEntry → Resolver → Except Error (List Route × Resolver)
  | [], r => .ok ([], r)
  | e :: rest, r => do
    let (answer, r) ← route p view c e.1 (some e.2) r
    let (answers, r) ← routeAll p view c rest r
    return (answer :: answers, r)

/-! ## A closure is closed -/

section Close

variable {node : NodeId} {full : List NodeId} {found : Collected} {tasks : List Resolved}
  {t : Resolved}

/-- A member of a filtered list adds its own members. -/
theorem subset_flatMap_filter {α β : Type*} {keep : α → Bool} {f : α → List β} {as : List α}
    {a : α} (ha : a ∈ as) (hkeep : keep a = true) :
  f a ⊆ (as.filter keep).flatMap f
  := by
  intro b hb
  apply mem_flatMap.mpr ⟨a, mem_filter.mpr ⟨ha, hkeep⟩, hb⟩

theorem seeds_subset_anchorsOf (node : NodeId) (found : Collected) (tasks : List Resolved) :
  seeds node found tasks ⊆ anchorsOf node found tasks
  := subset_saturate _ _ _

/-- The parents of an anchor are anchors. -/
theorem parent_mem_anchorsOf (ht : t ∈ tasks) (hdrain : t.drain = none) {e : RegionId × RegionId}
    (he : e ∈ t.edges) (hchild : e.1 ∈ anchorsOf node found tasks) :
  e.2 ∈ anchorsOf node found tasks
  := by
  apply closed_saturate _ _ e _ hchild
  apply subset_flatMap_filter ht _ he
  rw [hdrain]
  rfl

/-- No row that was resolved for a closure widens it. -/
theorem widenedBy_close (ht : t ∈ tasks) :
  (close node full found tasks).widenedBy t = false
  := by
  rw [Closure.widenedBy]
  split_ifs with hdrain hedges humbrella hnamed hmeets
  · rfl
  · obtain ⟨e, he, hchild, hparent⟩ := hedges
    have hnone : t.drain = none := Option.not_isSome_iff_eq_none.mp hdrain
    apply absurd (parent_mem_anchorsOf ht hnone he hchild) hparent
  · rfl
  all_goals
    have hlineage : t.isLineage = true := by
      simp only [Resolved.isLineage, Option.not_isSome_iff_eq_none.mp hdrain, humbrella]
      rfl
  · -- a row that names the node has its regions among the seeds
    apply absurd _ hnamed.2
    apply List.Subset.trans _ (seeds_subset_anchorsOf node found tasks)
    apply List.Subset.trans _ (subset_append_left _ _)
    apply subset_flatMap_filter ht
    simp only [hlineage, Bool.true_and]
    exact decide_eq_true hnamed.1
  · apply absurd _ hmeets.2
    apply List.Subset.trans _ (subset_append_right _ _)
    apply subset_flatMap_filter ht
    simp only [hlineage, Bool.true_and]
    exact decide_eq_true hmeets.1
  · apply decide_eq_false
    rintro ⟨hdelivers, hnot⟩
    have hkeep : (t.isLineage && Closure.delivers
        { node := node, anchors := anchorsOf node found tasks
          regions := regionsOf (anchorsOf node found tasks) tasks } t) = true := by
      rw [hlineage]
      exact hdelivers
    apply hnot
    refine ⟨?_, ?_, ?_⟩
    · apply List.Subset.trans _ (subset_append_left _ _)
      apply List.Subset.trans _ (subset_append_right _ _)
      apply subset_flatMap_filter ht hkeep
    · apply List.Subset.trans _ (subset_append_left _ _)
      apply subset_flatMap_filter ht hkeep
    · apply List.Subset.trans _ (subset_append_left _ _)
      apply subset_flatMap_filter ht hkeep

/-- No replica that was found asks for a snapshot. -/
theorem routePeer_close {region : RegionId} {n : NodeId} (h : (region, n) ∈ found.peers)
    (value : Option Bytes) :
  routePeer (close node full found tasks) region n value ≠ .resnapshot
  := by
  rw [routePeer]
  split_ifs with hown hregion hnode
  · obtain ⟨rfl, -, hanchor⟩ := hown
    apply absurd _ hanchor
    apply seeds_subset_anchorsOf
    apply mem_append_right
    apply mem_map.mpr ⟨(region, _), mem_filter.mpr ⟨h, decide_eq_true rfl⟩, rfl⟩
  · nofun
  · apply absurd _ (not_or.mp hnode).1
    apply mem_append_right
    apply mem_map.mpr ⟨(region, n), mem_filter.mpr ⟨h, decide_eq_true hregion⟩, rfl⟩
  · nofun

/-- The tenant of a keyspace in the scope is in the scope. -/
theorem tenant_mem_close {keyspace tenant : UInt64}
    (h : keyspace ∈ (close node full found tasks).keyspaces)
    (htenant : found.keyspaceTenant[keyspace]? = some tenant) :
  tenant ∈ (close node full found tasks).tenants
  := by
  apply mem_append_right
  apply mem_filterMap.mpr ⟨keyspace, h, htenant⟩

end Close

end Kv9.Meta.Scope
