import Kv9.Common.Bytes

/-!
# The catalog schema

The tables of the catalog are fixed: their columns, their secondary indexes and the references
between them.  The numbers of tables, indexes and columns are part of the stored keys and rows.
-/

namespace Kv9.Meta

/-- The identifier of a catalog table. -/
abbrev TableId := UInt32

/-- The identifier of a secondary index within a table. -/
abbrev IndexId := UInt8

/-- The identifier of a column within a table, and its tag in a stored row. -/
abbrev ColumnId := UInt16

/-- The logical type of a column. -/
inductive ColumnType where
  | uint
  | text
  | bytes
deriving DecidableEq

/-- A column. -/
structure ColumnDesc where
  id : ColumnId
  name : String
  ty : ColumnType
  pk : Bool := false
deriving DecidableEq

/-- A secondary index.  A unique index stores the primary key as its value, any other index
appends it to the key. -/
structure IndexDesc where
  id : IndexId
  name : String
  columns : List ColumnId
  unique : Bool
deriving DecidableEq

/-- A reference to a row of another table. -/
structure FkDesc where
  column : ColumnId
  references : TableId
deriving DecidableEq

/-- A table. -/
structure TableDesc where
  id : TableId
  name : String
  columns : List ColumnDesc
  indexes : List IndexDesc := []
  fks : List FkDesc := []
deriving DecidableEq

/-- The columns of the primary key, in the order they are declared. -/
def TableDesc.pkColumns (table : TableDesc) : List ColumnDesc := table.columns.filter (·.pk)

def tenants : TableId := 1
def keyspaces : TableId := 2
def nodes : TableId := 5
def regions : TableId := 6
def regionPeers : TableId := 7
def sstFiles : TableId := 8
def placementRules : TableId := 9
def tasks : TableId := 10
def gacAllotments : TableId := 11
def schemaVersionTable : TableId := 12
def idSequences : TableId := 13
def clusterMeta : TableId := 14
def nodeAdmissions : TableId := 15
def rootMeta : TableId := 16

def tenantsDesc : TableDesc where
  id := tenants
  name := "tenants"
  columns := [⟨1, "id", .uint, true⟩, ⟨2, "name", .text, false⟩, ⟨3, "quota_tokens", .uint, false⟩,
    ⟨4, "state", .uint, false⟩]
  indexes := [⟨1, "by_name", [2], true⟩]

def keyspacesDesc : TableDesc where
  id := keyspaces
  name := "keyspaces"
  columns := [⟨1, "id", .uint, true⟩, ⟨2, "name", .text, false⟩, ⟨3, "tenant_id", .uint, false⟩,
    ⟨4, "api_type", .uint, false⟩, ⟨5, "start_key", .bytes, false⟩, ⟨6, "end_key", .bytes, false⟩,
    ⟨7, "state", .uint, false⟩, ⟨8, "config", .bytes, false⟩]
  indexes := [⟨1, "by_tenant", [3], false⟩, ⟨2, "by_name", [2], true⟩]
  fks := [⟨3, tenants⟩]

def nodesDesc : TableDesc where
  id := nodes
  name := "nodes"
  columns := [⟨1, "id", .uint, true⟩, ⟨2, "addr", .text, false⟩, ⟨3, "state", .uint, false⟩,
    ⟨4, "last_heartbeat", .uint, false⟩, ⟨5, "capacity", .bytes, false⟩,
    ⟨6, "endpoint_generation", .uint, false⟩, ⟨7, "endpoint_previous_address", .text, false⟩]

def regionsDesc : TableDesc where
  id := regions
  name := "regions"
  columns := [⟨1, "id", .uint, true⟩, ⟨2, "keyspace_id", .uint, false⟩,
    ⟨3, "start_key", .bytes, false⟩, ⟨4, "end_key", .bytes, false⟩, ⟨5, "epoch_conf", .uint, false⟩,
    ⟨6, "epoch_ver", .uint, false⟩, ⟨7, "leader_node", .uint, false⟩]
  indexes := [⟨1, "by_range", [2, 3], false⟩]
  fks := [⟨2, keyspaces⟩]

def regionPeersDesc : TableDesc where
  id := regionPeers
  name := "region_peers"
  columns := [⟨1, "region_id", .uint, true⟩, ⟨2, "node_id", .uint, true⟩, ⟨3, "role", .uint, false⟩]
  indexes := [⟨1, "by_node", [2], false⟩]
  fks := [⟨1, regions⟩, ⟨2, nodes⟩]

def sstFilesDesc : TableDesc where
  id := sstFiles
  name := "sst_files"
  columns := [⟨1, "file_id", .uint, true⟩, ⟨4, "refcount", .uint, false⟩, ⟨7, "bytes", .uint, false⟩,
    ⟨8, "keyspace_id", .uint, false⟩, ⟨9, "state", .uint, false⟩, ⟨10, "created", .uint, false⟩]
  fks := [⟨8, keyspaces⟩]

def placementRulesDesc : TableDesc where
  id := placementRules
  name := "placement_rules"
  columns := [⟨1, "id", .uint, true⟩, ⟨2, "keyspace_id", .uint, false⟩, ⟨3, "replicas", .uint, false⟩,
    ⟨4, "constraints", .bytes, false⟩]
  fks := [⟨2, keyspaces⟩]

def tasksDesc : TableDesc where
  id := tasks
  name := "tasks"
  columns := [⟨1, "id", .uint, true⟩, ⟨2, "kind", .uint, false⟩, ⟨3, "target", .bytes, false⟩,
    ⟨4, "state", .uint, false⟩, ⟨5, "created", .uint, false⟩]

def gacAllotmentsDesc : TableDesc where
  id := gacAllotments
  name := "gac_allotments"
  columns := [⟨1, "tenant_id", .uint, true⟩, ⟨2, "tokens", .uint, false⟩,
    ⟨3, "refreshed", .uint, false⟩]
  fks := [⟨1, tenants⟩]

def schemaVersionDesc : TableDesc where
  id := schemaVersionTable
  name := "schema_version"
  columns := [⟨1, "singleton", .uint, true⟩, ⟨2, "v", .uint, false⟩]

def idSequencesDesc : TableDesc where
  id := idSequences
  name := "id_sequences"
  columns := [⟨1, "kind", .uint, true⟩, ⟨2, "next", .uint, false⟩]

def clusterMetaDesc : TableDesc where
  id := clusterMeta
  name := "cluster_meta"
  columns := [⟨1, "id", .uint, true⟩, ⟨2, "cluster_id", .bytes, false⟩,
    ⟨3, "created_unix", .uint, false⟩]

def nodeAdmissionsDesc : TableDesc where
  id := nodeAdmissions
  name := "node_admissions"
  columns := [⟨1, "node_id", .uint, true⟩, ⟨2, "cluster_id", .bytes, false⟩, ⟨3, "addr", .text, false⟩,
    ⟨4, "role", .uint, false⟩, ⟨5, "state", .uint, false⟩, ⟨6, "nonce_sha256", .bytes, false⟩,
    ⟨7, "expires_unix", .uint, false⟩]

def rootMetaDesc : TableDesc where
  id := rootMeta
  name := "root_meta"
  columns := [⟨1, "id", .uint, true⟩, ⟨2, "descriptor", .bytes, false⟩, ⟨3, "digest", .bytes, false⟩,
    ⟨4, "bootstrap_generation", .bytes, false⟩]

/-- Every table of the catalog. -/
def allTables : List TableDesc :=
  [tenantsDesc, keyspacesDesc, nodesDesc, regionsDesc, regionPeersDesc, sstFilesDesc,
    placementRulesDesc, tasksDesc, gacAllotmentsDesc, schemaVersionDesc, idSequencesDesc,
    clusterMetaDesc, nodeAdmissionsDesc, rootMetaDesc]

/-- The table of an identifier. -/
def tableDesc (id : TableId) : Option TableDesc := allTables.find? (·.id = id)

/-! ## What the schema guarantees -/

variable {t : TableDesc}

theorem eq_of_id_eq {t' : TableDesc} (ht : t ∈ allTables) (ht' : t' ∈ allTables)
    (h : t.id = t'.id) :
  t = t'
  := by
  have hall : ∀ t ∈ allTables, ∀ t' ∈ allTables, t.id = t'.id → t = t' := by
    decide
  apply hall t ht t' ht' h

theorem tableDesc_eq_some {id : TableId} :
  tableDesc id = some t ↔ t ∈ allTables ∧ t.id = id
  := by
  constructor
  · intro h
    apply And.intro (List.mem_of_find?_eq_some h)
    simpa using List.find?_some h
  · rintro ⟨ht, rfl⟩
    cases hfind : tableDesc t.id with
    | none =>
      have := List.find?_eq_none.mp hfind t ht
      simp at this
    | some t' =>
      have hid : t'.id = t.id := by
        simpa using List.find?_some hfind
      rw [eq_of_id_eq (List.mem_of_find?_eq_some hfind) ht hid]

/-- The indexes of a table are told apart by their identifiers. -/
theorem index_eq_of_id_eq (ht : t ∈ allTables) {index index' : IndexDesc}
    (hindex : index ∈ t.indexes) (hindex' : index' ∈ t.indexes) (h : index.id = index'.id) :
  index = index'
  := by
  have hall : ∀ t ∈ allTables, ∀ index ∈ t.indexes, ∀ index' ∈ t.indexes,
      index.id = index'.id → index = index' := by
    decide
  apply hall t ht index hindex index' hindex' h

/-- A column an index is made of is declared. -/
theorem exists_column_of_index (ht : t ∈ allTables) {index : IndexDesc} (hindex : index ∈ t.indexes)
    {id : ColumnId} (hid : id ∈ index.columns) :
  ∃ column ∈ t.columns, column.id = id
  := by
  have hall : ∀ t ∈ allTables, ∀ index ∈ t.indexes, index.columns ⊆ t.columns.map (·.id) := by
    decide
  apply List.mem_map.mp (hall t ht index hindex hid)

/-- A table that is referenced has one number for its primary key. -/
theorem pkColumns_of_fk (ht : t ∈ allTables) {fk : FkDesc} (hfk : fk ∈ t.fks) :
  ∃ parent ∈ allTables, parent.id = fk.references ∧ parent.pkColumns.map (·.ty) = [.uint]
  := by
  have hall : ∀ t ∈ allTables, ∀ fk ∈ t.fks,
      (tableDesc fk.references).map (fun parent => parent.pkColumns.map (·.ty)) = some [.uint] := by
    decide
  obtain ⟨parent, hparent, hpk⟩ := Option.map_eq_some_iff.mp (hall t ht fk hfk)
  obtain ⟨hmem, hid⟩ := tableDesc_eq_some.mp hparent
  use parent, hmem, hid, hpk

end Kv9.Meta
