import Kv9.Meta.Consistency
import Kv9.Meta.KeyOrder
import Kv9.Meta.Scope.Keys
import Kv9.Meta.Scope.Subject

/-!
# What an entry of the catalog is about

Every key that the catalog can hold is declared: the rows and the index entries of its tables,
the retention ledger, the stamp of the task history, the captures and the state that the engine
keeps for itself.  The class of an entry says what it is about.
-/

namespace Kv9.Meta.Scope

open Codec Except List

/-- `RETENTION_PREFIX`. -/
def retentionPrefix : Bytes :=
  [0, 107, 118, 57, 0, 114, 101, 116, 101, 110, 116, 105, 111, 110, 95, 118, 49, 0]

/-- `MANIFEST_PAIR_PREFIX`. -/
def manifestPairPrefix : Bytes :=
  [0, 107, 118, 57, 0, 109, 97, 110, 105, 102, 101, 115, 116, 95, 112, 97, 105, 114, 0]

/-- `MANIFEST_GEN_PREFIX`. -/
def manifestGenPrefix : Bytes :=
  [0, 107, 118, 57, 0, 109, 97, 110, 105, 102, 101, 115, 116, 95, 103, 101, 110, 0]

/-- `ENGINE_SINGLETON`. -/
def engineSingleton : Bytes := [107, 118, 57, 46]

/-- `CAPTURE_PREFIX`. -/
def capturePrefix : Bytes :=
  [0, 107, 118, 57, 0, 109, 105, 103, 114, 97, 116, 105, 111, 110, 45, 99, 97, 112, 116, 117, 114,
    101, 45, 118, 49, 0]

/-- `system_prefix`. -/
def systemPrefix : Bytes := [0x73, 0, 0, 0]

/-- What one entry is about. -/
inductive RowClass where
  /-- Every scope holds it. -/
  | global
  /-- Only full nodes hold it. -/
  | fullOnly
  | task (subject : TaskSubject)
  | region (region : RegionId)
  | regionPeer (region : RegionId) (node : NodeId)
  | keyspace (keyspace : UInt64)
  | tenant (tenant : UInt64)
  | node (node : NodeId)
  | capture (region : RegionId)
  /-- A delete whose subject went with its value. -/
  | held

/-- A key or a value that is not what its class says. -/
def malformed (what : String) : Error := .malformedKey s!"catalog scope: {what}"

/-- The first number of a primary key. -/
def firstOfKey (pk : Bytes) : Except Error UInt64 := do
  failIf (pk.length < 8) (malformed "short primary key")
  decodeUintComponent (pk.take 8)

/-- The keyspace a placement rule is for. -/
def classifyRule (value : Bytes) : Except Error (Option RowClass) := do
  let row ← RowValue.decode value
  match row.get 2 with
  | some (.uint keyspace) => return some (.keyspace keyspace)
  | _ => .error (malformed "placement rule without a keyspace")

/-- The subject of a task row, if its kind is declared. -/
def classifyTask (p : Payloads) (value : Bytes) : Except Error (Option RowClass) := do
  let row ← RowValue.decode value
  return (← taskSubject p row).map .task

/-- `classify_row`. -/
def classifyRow (p : Payloads) (table : TableId) (pk : Bytes) (value : Option Bytes) :
    Except Error (Option RowClass) :=
  if table = tenants then return some (.tenant (← firstOfKey pk))
  else if table = keyspaces then return some (.keyspace (← firstOfKey pk))
  else if table = nodes ∨ table = nodeAdmissions then return some (.node (← firstOfKey pk))
  else if table = regions then return some (.region (← firstOfKey pk))
  else if table = regionPeers then do
    failIf (pk.length ≠ 16) (malformed "region peer key")
    return some (.regionPeer (← decodeUintComponent (pk.take 8)) (← decodeUintComponent (pk.drop 8)))
  else if table = schemaVersionTable ∨ table = clusterMeta ∨ table = rootMeta then
    return some .global
  else if table = sstFiles ∨ table = idSequences ∨ table = gacAllotments then
    return some .fullOnly
  else if table = placementRules then
    match value with
    | none => return some .held
    | some bytes => classifyRule bytes
  else if table = tasks then
    match value with
    | none => return some .held
    | some bytes => classifyTask p bytes
  else return none

/-- The row that an entry of a unique index points at. -/
def uniquePk (value : Option Bytes) (row : UInt64 → RowClass) : Except Error RowClass :=
  match value with
  | none => return .held
  | some pk => do
    failIf (pk.length ≠ 8) (malformed "unique index value")
    return row (← decodeUintComponent pk)

/-- `classify_index`. -/
def classifyIndex (table : TableId) (body : Bytes) (value : Option Bytes) :
    Except Error (Option RowClass) :=
  match body with
  | [] => return none
  | index :: cols =>
    if index = 1 ∧ table = tenants then return some (← uniquePk value .tenant)
    else if index = 1 ∧ table = keyspaces then do
      let parts ← splitComponents [.uint, .uint] cols true
      return some (.keyspace (← decodeUintComponent (parts.getD 1 [])))
    else if index = 2 ∧ table = keyspaces then return some (← uniquePk value .keyspace)
    else if index = 1 ∧ table = regions then do
      let parts ← splitComponents [.uint, .bytes, .uint] cols true
      return some (.region (← decodeUintComponent (parts.getD 2 [])))
    else if index = 1 ∧ table = regionPeers then do
      let parts ← splitComponents [.uint, .uint, .uint] cols true
      return some (.regionPeer (← decodeUintComponent (parts.getD 1 []))
        (← decodeUintComponent (parts.getD 2 [])))
    else return none

/-- The class of a capture. -/
def classifyCapture (p : Payloads) (value : Option Bytes) : Except Error (Option RowClass) :=
  match value with
  | none => return some .held
  | some bytes => do
    failIf (bytes.length ≤ 48) (malformed "capture record too short")
    return some (.capture (← p.capture ((bytes.drop 16).take (bytes.length - 48))))

/-- The class of an entry of the system keyspace. -/
def classifySystem (p : Payloads) (rest : Bytes) (value : Option Bytes) :
    Except Error (Option RowClass) :=
  if engineSingleton <+: rest then return some .fullOnly
  else if rest.length < 5 then return none
  else
    let table := fromBe32 (rest.take 4)
    let marker := rest.getD 4 0
    let body := rest.drop 5
    if marker = rowMarker then classifyRow p table body value
    else if marker = indexMarker then classifyIndex table body value
    else return none

/-- `classify`: what an entry is about, unless its key is not declared.  A delete has no
value. -/
def classify (p : Payloads) (key : Bytes) (value : Option Bytes) :
    Except Error (Option RowClass) :=
  if retentionPrefix <+: key ∨ key = taskHistoryKey ∨ manifestPairPrefix <+: key
      ∨ manifestGenPrefix <+: key ∨ key = sliceMarker then
    return some .fullOnly
  else if key.head? = some rowMarker then return some .fullOnly
  else if capturePrefix <+: key then classifyCapture p value
  else if systemPrefix <+: key then classifySystem p (key.drop systemPrefix.length) value
  else return none

/-- `is_row`. -/
def isRow (key : Bytes) : Prop :=
  systemPrefix.length + 4 < key.length ∧ key.getD (systemPrefix.length + 4) 0 = rowMarker

/-- `is_table`. -/
def isTable (key : Bytes) (table : TableId) : Prop :=
  systemPrefix.length + 4 < key.length ∧ (key.drop systemPrefix.length).take 4 = be32 table

instance (key : Bytes) : Decidable (isRow key) := inferInstanceAs (Decidable (_ ∧ _))

instance (key : Bytes) (table : TableId) : Decidable (isTable key table) :=
  inferInstanceAs (Decidable (_ ∧ _))

/-! ## Classes and keys -/

variable {p : Payloads} {key body : Bytes} {value : Option Bytes} {table : TableId}
  {marker : UInt8} {c : RowClass}

/-- An entry of the system keyspace is the engine's, or a table's. -/
theorem exists_table_of_classifySystem {rest : Bytes}
    (h : classifySystem p rest value = .ok (some c)) :
  c = .fullOnly ∨ ∃ table marker body, rest = be32 table ++ ([marker] ++ body)
    ∧ (marker = rowMarker ∧ classifyRow p table body value = .ok (some c)
      ∨ marker = indexMarker ∧ classifyIndex table body value = .ok (some c))
  := by
  rw [classifySystem] at h
  split_ifs at h with hengine hlength
  · cases h
    exact .inl rfl
  · nomatch h
  · right
    have hrest : rest = be32 (fromBe32 (rest.take 4)) ++ ([rest.getD 4 0] ++ rest.drop 5) := by
      have hlt : 4 < rest.length := by
        omega
      rw [be32_fromBe32 (length_take_of_le hlt.le), getD_eq_getElem _ _ hlt,
        singleton_append, ← drop_eq_getElem_cons, take_append_drop]
    refine ⟨_, _, _, hrest, ?_⟩
    dsimp only at h
    split_ifs at h with hrow hindex
    · exact .inl ⟨hrow, h⟩
    · exact .inr ⟨hindex, h⟩
    · nomatch h

/-- What a class says about the key: it is a row's or an index entry's, or the class is none of
a table's. -/
theorem exists_header_of_classify (h : classify p key value = .ok (some c)) :
  (c = .fullOnly ∨ c = .held ∨ ∃ region, c = .capture region)
    ∨ ∃ table marker body, key = tableHeader table marker ++ body
      ∧ (marker = rowMarker ∧ classifyRow p table body value = .ok (some c)
        ∨ marker = indexMarker ∧ classifyIndex table body value = .ok (some c))
  := by
  rw [classify] at h
  split_ifs at h with hown hraw hcapture hsystem
  · cases h
    exact .inl (.inl rfl)
  · cases h
    exact .inl (.inl rfl)
  · left
    right
    cases value with
    | none =>
      cases h
      exact .inl rfl
    | some bytes =>
      simp only [classifyCapture, bind_eq_ok] at h
      obtain ⟨_, -, region, -, h⟩ := h
      cases h
      exact .inr ⟨region, rfl⟩
  · obtain ⟨rest, rfl⟩ := hsystem
    rcases exists_table_of_classifySystem h with hengine | ⟨table, marker, body, rfl, hclass⟩
    · exact .inl (.inl hengine)
    · right
      use table, marker, body
      rw [tableHeader, systemPrefix]
      simp only [append_assoc]
      use trivial
  · cases h

/-- The table an entry is in, where its class tells it. -/
def RowClass.InTable : RowClass → TableId → Prop
  | .task _, table => table = tasks
  | .regionPeer _ _, table => table = regionPeers
  | _, _ => True

theorem inTable_of_classifyRow (h : classifyRow p table body value = .ok (some c)) :
  c.InTable table
  := by
  rw [classifyRow.eq_def] at h
  split_ifs at h with h₁ h₂ h₃ h₄ hpeers hglobal hfull hrules htasks
  · obtain ⟨_, -, h⟩ := bind_eq_ok.mp h
    cases h
    trivial
  · obtain ⟨_, -, h⟩ := bind_eq_ok.mp h
    cases h
    trivial
  · obtain ⟨_, -, h⟩ := bind_eq_ok.mp h
    cases h
    trivial
  · obtain ⟨_, -, h⟩ := bind_eq_ok.mp h
    cases h
    trivial
  · simp only [bind_eq_ok] at h
    obtain ⟨_, -, _, -, _, -, h⟩ := h
    cases h
    exact hpeers
  · cases h
    trivial
  · cases h
    trivial
  · cases value with
    | none =>
      cases h
      trivial
    | some bytes =>
      obtain ⟨row, -, h⟩ := bind_eq_ok.mp h
      split at h
      · cases h
        trivial
      · cases h
  · cases value with
    | none =>
      cases h
      trivial
    | some bytes =>
      simp only [classifyTask, bind_eq_ok] at h
      obtain ⟨row, -, subject, -, h⟩ := h
      obtain ⟨s, -, rfl⟩ := Option.map_eq_some_iff.mp (Except.ok.inj h)
      exact htasks
  · cases h

theorem inTable_of_classifyIndex (h : classifyIndex table body value = .ok (some c)) :
  c.InTable table ∧ ∀ s, c ≠ .task s
  := by
  cases body with
  | nil => cases h
  | cons index cols =>
    have hunique : ∀ {row : UInt64 → RowClass}, (do
          let c ← uniquePk value row
          return some c) = .ok (some c) → c = .held ∨ ∃ n, c = row n := by
      intro row h
      obtain ⟨c', hc, h⟩ := bind_eq_ok.mp h
      cases h
      cases value with
      | none =>
        cases hc
        exact .inl rfl
      | some pk =>
        simp only [uniquePk, bind_eq_ok] at hc
        obtain ⟨_, -, n, -, hc⟩ := hc
        cases hc
        exact .inr ⟨n, rfl⟩
    simp only [classifyIndex] at h
    split_ifs at h with h₁ h₂ h₃ h₄ hpeers
    · rcases hunique h with rfl | ⟨n, rfl⟩
      · use trivial, (by simp)
      · use trivial, (by simp)
    · simp only [bind_eq_ok] at h
      obtain ⟨_, -, _, -, h⟩ := h
      cases h
      use trivial, (by simp)
    · rcases hunique h with rfl | ⟨n, rfl⟩
      · use trivial, (by simp)
      · use trivial, (by simp)
    · simp only [bind_eq_ok] at h
      obtain ⟨_, -, _, -, h⟩ := h
      cases h
      use trivial, (by simp)
    · simp only [bind_eq_ok] at h
      obtain ⟨_, -, _, -, _, -, h⟩ := h
      cases h
      use hpeers.2, (by simp)
    · cases h

/-! ## The entries of a consistent catalog -/

/-- `task_key`. -/
def taskKey (task : TaskId) : Bytes := rowKey tasks [memcmpUint task]

/-- The key of a replica's row. -/
def peerKey (region : RegionId) (node : NodeId) : Bytes :=
  rowKey regionPeers [memcmpUint region, memcmpUint node]

/-- The key of a keyspace's row. -/
def keyspaceKey (keyspace : UInt64) : Bytes := rowKey keyspaces [memcmpUint keyspace]

theorem classify_taskKey (p : Payloads) (task : TaskId) (bytes : Bytes) :
  classify p (taskKey task) (some bytes) = classifyTask p bytes
  := by
  rfl

theorem decode_taskKey (task : TaskId) :
  decodeUintComponent ((taskKey task).drop ((taskKey task).length - 8)) = .ok task
  := by
  have hkey : taskKey task = tableHeader tasks rowMarker ++ memcmpUint task := by
    rw [taskKey, rowKey, flatten_cons, flatten_nil, append_nil]
  have hlength : (taskKey task).length - 8 = (tableHeader tasks rowMarker).length := by
    rw [hkey, length_append, memcmpUint, length_be64, Nat.add_sub_cancel]
  rw [hlength, hkey, drop_left, decodeUintComponent_memcmpUint]

theorem classify_peerKey (p : Payloads) (region : RegionId) (node : NodeId) (value : Option Bytes) :
  classify p (peerKey region node) value = .ok (some (.regionPeer region node))
  := by
  have hregion : (memcmpUint region).length = 8 := length_be64 region
  have hlength : ¬ (memcmpUint region ++ memcmpUint node).length ≠ 16 := by
    rw [length_append, hregion, memcmpUint, length_be64]
    decide
  change (do
    failIf ((memcmpUint region ++ memcmpUint node).length ≠ 16) (malformed "region peer key")
    return some (RowClass.regionPeer
      (← decodeUintComponent ((memcmpUint region ++ memcmpUint node).take 8))
      (← decodeUintComponent ((memcmpUint region ++ memcmpUint node).drop 8)))) = _
  rw [failIf_neg hlength, take_left' hregion, drop_left' hregion, ok_bind,
    decodeUintComponent_memcmpUint, ok_bind, decodeUintComponent_memcmpUint]
  rfl

theorem classify_keyspaceKey (p : Payloads) (keyspace : UInt64) (value : Option Bytes) :
  classify p (keyspaceKey keyspace) value = .ok (some (.keyspace keyspace))
  := by
  have hlength : (memcmpUint keyspace).length = 8 := length_be64 keyspace
  change (do return some (RowClass.keyspace (← firstOfKey (memcmpUint keyspace)))) = _
  rw [firstOfKey, take_of_length_le hlength.le, decodeUintComponent_memcmpUint]
  rfl

theorem eq_uint_of_wellKeyed {t : TableDesc} {pk : List PkComponent} (h : WellKeyed t pk)
    (ht : t.pkColumns.map (·.ty) = [.uint]) :
  ∃ n, pk = [memcmpUint n]
  := by
  rw [WellKeyed, ht] at h
  obtain ⟨_, _, ⟨n, rfl⟩, hnil, rfl⟩ := forall₂_cons_left_iff.mp h
  cases hnil
  use n

section

variable {M : Bytes → Option Bytes} {bytes : Bytes}

theorem exists_task_of_classify (hM : RowsReadable M) (hget : M key = some bytes)
    {s : TaskSubject} (h : classify p key (some bytes) = .ok (some (.task s))) :
  ∃ task v, key = taskKey task ∧ RowValue.decode bytes = .ok v ∧ taskSubject p v = .ok (some s)
  := by
  obtain (hother | hother | ⟨_, hother⟩) | ⟨table, marker, body, rfl, ⟨rfl, hrow⟩ | ⟨-, hindex⟩⟩ :=
    exists_header_of_classify h
  · nomatch hother
  · nomatch hother
  · nomatch hother
  · obtain rfl : table = tasks := inTable_of_classifyRow hrow
    obtain ⟨pk, v, hpk, rfl, hdecode, -⟩ := hM tasksDesc (by decide) body bytes hget
    obtain ⟨task, rfl⟩ := eq_uint_of_wellKeyed hpk rfl
    have hclass := classify_taskKey p task bytes
    rw [taskKey, rowKey, h, classifyTask, hdecode, ok_bind] at hclass
    obtain ⟨subject, hsubject, heq⟩ := bind_eq_ok.mp hclass.symm
    obtain ⟨s', rfl, hs⟩ := Option.map_eq_some_iff.mp (Except.ok.inj heq)
    cases hs
    use task, v, rfl, hdecode
  · apply absurd rfl ((inTable_of_classifyIndex hindex).2 s)

theorem eq_uints_of_wellKeyed {pk : List PkComponent} (h : WellKeyed regionPeersDesc pk) :
  ∃ region node, pk = [memcmpUint region, memcmpUint node]
  := by
  obtain ⟨_, _, ⟨region, rfl⟩, hrest, rfl⟩ := forall₂_cons_left_iff.mp h
  obtain ⟨_, _, ⟨node, rfl⟩, hnil, rfl⟩ := forall₂_cons_left_iff.mp hrest
  cases hnil
  use region, node

/-- The entry of a replica in the index by node is about the replica. -/
theorem classify_peerEntry (p : Payloads) (first region : UInt64) (node : NodeId)
    (value : Option Bytes) :
  classify p (indexKey regionPeers 1 [memcmpUint first] [memcmpUint region, memcmpUint node]) value
    = .ok (some (.regionPeer region node))
  := by
  have hsplit : splitComponents [.uint, .uint, .uint]
      (memcmpUint first ++ (memcmpUint region ++ memcmpUint node)) true
      = .ok [memcmpUint first, memcmpUint region, memcmpUint node] := by
    simpa [KeyValue.type, KeyValue.component] using
      splitComponents_flatMap [.uint first, .uint region, .uint node] [] true fun _ => rfl
  change (do
    let parts ← splitComponents [.uint, .uint, .uint]
      (memcmpUint first ++ (memcmpUint region ++ memcmpUint node)) true
    return some (RowClass.regionPeer (← decodeUintComponent (parts.getD 1 []))
      (← decodeUintComponent (parts.getD 2 [])))) = _
  rw [hsplit]
  simp [decodeUintComponent_memcmpUint]

/-- An entry about a replica is the replica's row, or has one. -/
theorem exists_peer_of_classify (hM : Consistent M) (hget : M key = some bytes) {region : RegionId}
    {node : NodeId} (h : classify p key (some bytes) = .ok (some (.regionPeer region node))) :
  ∃ bytes', M (peerKey region node) = some bytes'
  := by
  obtain (hother | hother | ⟨_, hother⟩) | ⟨table, marker, body, rfl, ⟨rfl, hrow⟩ | ⟨rfl, hindex⟩⟩ :=
    exists_header_of_classify h
  · nomatch hother
  · nomatch hother
  · nomatch hother
  · obtain rfl : table = regionPeers := inTable_of_classifyRow hrow
    obtain ⟨pk, v, hpk, rfl, -⟩ := hM.rows regionPeersDesc (by decide) body bytes hget
    obtain ⟨region', node', rfl⟩ := eq_uints_of_wellKeyed hpk
    have hclass := classify_peerKey p region' node' (some bytes)
    rw [peerKey, rowKey, h] at hclass
    cases hclass
    use bytes
    exact hget
  · obtain rfl : table = regionPeers := (inTable_of_classifyIndex hindex).1
    obtain ⟨index, hmem, pk, v, hlive, cols, hcols, hkey, -⟩ :=
      (hM.entries regionPeersDesc (by decide) body bytes).mp hget
    obtain rfl := mem_singleton.mp hmem
    obtain ⟨region', node', rfl⟩ := eq_uints_of_wellKeyed hlive.1
    obtain ⟨cols', hcols', htyped⟩ :=
      exists_indexColumns (t := regionPeersDesc) (by decide) hmem 
        (hM.rows.validateRow_of_live (by decide) hlive)
    cases hcols.symm.trans hcols'
    obtain ⟨_, _, ⟨first, rfl⟩, hnil, rfl⟩ := forall₂_cons_left_iff.mp htyped
    cases hnil
    have hclass := classify_peerEntry p first region' node' (some bytes)
    obtain ⟨-, row, hrow, -⟩ := hlive
    have hkey : tableHeader regionPeers indexMarker ++ body = indexKey regionPeers 1
        [memcmpUint first] [memcmpUint region', memcmpUint node'] := hkey
    rw [hkey] at h
    cases hclass.symm.trans h
    use row
    exact hrow

theorem isRow_tableHeader (table : TableId) (marker : UInt8) (body : Bytes) :
  isRow (tableHeader table marker ++ body) ↔ marker = rowMarker
  := by
  have hlength : (systemPrefix ++ be32 table).length = systemPrefix.length + 4 := by
    rw [length_append, length_be32]
  have hheader : tableHeader table marker ++ body
      = (systemPrefix ++ be32 table) ++ (marker :: body) := by
    simp [tableHeader, systemPrefix]
  rw [isRow, hheader, length_append, length_cons]
  apply and_iff_right
  omega

theorem isTable_tableHeader (table table' : TableId) (marker : UInt8) (body : Bytes) :
  isTable (tableHeader table marker ++ body) table' ↔ table = table'
  := by
  have hheader : tableHeader table marker ++ body
      = systemPrefix ++ (be32 table ++ (marker :: body)) := by
    simp [tableHeader, systemPrefix]
  have hinj : be32 table = be32 table' ↔ table = table' :=
    ⟨fun h => by rw [← fromBe32_be32 table, h, fromBe32_be32], fun h => h ▸ rfl⟩
  rw [isTable, hheader, drop_left, take_left' (length_be32 table), hinj,
    length_append, length_append, length_be32, length_cons]
  apply and_iff_right
  omega

/-- The row of a keyspace has the key of a keyspace, and can be read. -/
theorem exists_keyspace_of_classify (hM : RowsReadable M) (hget : M key = some bytes)
    (hrow : isRow key) (htable : isTable key keyspaces) {keyspace : UInt64}
    (h : classify p key (some bytes) = .ok (some (.keyspace keyspace))) :
  key = keyspaceKey keyspace ∧ ∃ v, RowValue.decode bytes = .ok v
  := by
  obtain (hother | hother | ⟨_, hother⟩) | ⟨table, marker, body, rfl, -⟩ :=
    exists_header_of_classify h
  · nomatch hother
  · nomatch hother
  · nomatch hother
  · rw [isRow_tableHeader] at hrow
    rw [isTable_tableHeader] at htable
    subst hrow htable
    obtain ⟨pk, v, hpk, rfl, hdecode, -⟩ := hM keyspacesDesc (by decide) body bytes hget
    obtain ⟨keyspace', rfl⟩ := eq_uint_of_wellKeyed hpk rfl
    have hclass := classify_keyspaceKey p keyspace' (some bytes)
    rw [keyspaceKey, rowKey, h] at hclass
    cases hclass
    use rfl, v

end

end Kv9.Meta.Scope
