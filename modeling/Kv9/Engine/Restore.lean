import Kv9.Engine.Image
import Kv9.Lib.Stateful

/-!
# Uploading and restoring a checkpoint

The objects of a plan are put into an object store one after the other, and each is read back
before the next.  An object is written once: the same bytes may be put again, other bytes under
its name are refused.  A manifest is restored by reading every table it names, checking it against
its reference, and inserting its rows at version one.
-/

namespace Kv9.Engine

open Except OrderedMap Sst View Stateful MemState
open List hiding ext_getElem? getElem?_insert

/-! ## The object store -/

/-- Objects by their names. -/
abbrev ObjectStore := OrderedMap String Bytes

namespace ObjectStore

/-- Write an object once. -/
def put (key : ObjectKey) (bytes : Bytes) : Stateful CheckpointError ObjectStore Unit := do
  let objects ← get
  match objects[key.name]? with
  | some existing =>
    if existing = bytes then
      return ()
    else
      throw (.contentMismatch key.name)
  | none => set (objects.insert key.name bytes)

/-- Read an object of at most the size. -/
def getSharedBounded (store : ObjectStore) (key : ObjectKey) (maxBytes : ℕ) :
    Except CheckpointError (Option Bytes) := do
  failIf (∃ v ∈ store[key.name]?, maxBytes < v.length) .bodyTooLarge
  return store[key.name]?

end ObjectStore

/-! ## Uploading -/

/-- A checkpoint whose tables were read back. -/
structure PreparedFlush where
  scope : FlushScope
  position : AppliedPosition
  files : List SstReference

/-- The manifest of a checkpoint. -/
def PreparedFlush.intoManifest (p : PreparedFlush) : CheckpointManifest :=
  ⟨p.scope, p.position.term, p.position.index, p.files⟩

/-- Put a table and read it back. -/
def uploadSst (o : SstReference × Bytes) : Stateful CheckpointError ObjectStore SstReference := do
  let key ← ofExcept (ObjectKey.new o.1.key)
  ObjectStore.put key o.2
  let store ← get
  let read ← ofExcept (store.getSharedBounded key o.2.length)
  if read ≠ some o.2 then
    throw .notVisible
  return o.1

/-- Put tables one after the other. -/
def uploadAll : List (SstReference × Bytes) →
    Stateful CheckpointError ObjectStore (List SstReference)
  | [] => return []
  | o :: os => do
    let file ← uploadSst o
    let files ← uploadAll os
    return file :: files

/-- Upload the objects of a plan. -/
def uploadPlanned (planned : PlannedFlush) : Stateful CheckpointError ObjectStore PreparedFlush := do
  let files ← uploadAll (planned.manifest.files.zip planned.objects)
  return ⟨planned.manifest.scope, ⟨planned.manifest.term, planned.manifest.index⟩, files⟩

/-! ## Restoring -/

/-- A table must have the size and the digest of its reference. -/
def checkSstDigest (x : Externals) (file : SstReference) (bytes : Bytes) :
    Except CheckpointError Unit :=
  failIf (UInt64.ofNat bytes.length ≠ file.size ∨ digest x bytes ≠ file.sha256) .digestMismatch

/-- A table must say what its reference says. -/
def checkSstMetadata (file : SstReference) (sst : Validated) : Except CheckpointError Unit :=
  failIf (some sst.cf ≠ ColumnFamily.all[file.cf.toNat]? ∨ sst.smallest ≠ file.smallest
    ∨ sst.largest ≠ file.largest ∨ UInt64.ofNat sst.count ≠ file.count) .metadataMismatch

/-- Read a table of a manifest. -/
def verifiedSst (x : Externals) (store : ObjectStore) (file : SstReference) :
    Except CheckpointError Validated := do
  let key ← ObjectKey.new file.key
  match ← store.getSharedBounded key file.size.toNat with
  | none => throw .missingSst
  | some bytes => do
    checkSstDigest x file bytes
    let sst ← (Validated.parse bytes).mapError .sst
    checkSstMetadata file sst
    return sst

/-- An engine being built: every row at version one. -/
structure CheckpointBuilder where
  engine : Shared
  changes : Bool

namespace CheckpointBuilder

/-- An empty engine. -/
def empty : CheckpointBuilder := ⟨.new, false⟩

/-- Insert a row, with memory for it. -/
def put (b : CheckpointBuilder) (cf : ColumnFamily) (row : ScanEntry) : CheckpointBuilder where
  engine := b.engine.treeMut cf fun t => t.insert (.new row.1 1) (some row.2)
  changes := b.changes || changesDataRevision cf row.1

/-- Publish the rows at a position. -/
def finish (b : CheckpointBuilder) (position : AppliedPosition) : Shared :=
  { b.engine with
    published := ⟨1, some position, if b.changes then 1 else 0⟩
    visible := 1
    writer := 1 }

end CheckpointBuilder

/-- Insert the rows of a table. -/
def restoreSst (x : Externals) (store : ObjectStore) (b : CheckpointBuilder)
    (file : SstReference) : Except CheckpointError CheckpointBuilder := do
  let sst ← verifiedSst x store file
  let rows ← sst.iter.mapError .sst
  return rows.foldl (fun b row => b.put sst.cf row) b

/-- Build the engine a manifest names. -/
def restore (x : Externals) (store : ObjectStore) (manifest : CheckpointManifest) :
    Except CheckpointError Shared := do
  let bytes ← (manifest.encode x).mapError .manifest
  let manifest ← (CheckpointManifest.decode x bytes).mapError .manifest
  let b ← manifest.files.foldlM (restoreSst x store) .empty
  return b.finish manifest.position

/-! ## Uploaded objects are stored -/

/-- What a later store still holds. -/
def ObjectStore.Keeps (store store' : ObjectStore) : Prop :=
  ∀ (name : String) (bytes : Bytes), store[name]? = some bytes → store'[name]? = some bytes

/-- Nothing but the bytes is stored under the name. -/
def ObjectStore.Admits (store : ObjectStore) (name : String) (bytes : Bytes) : Prop :=
  ∀ b, store[name]? = some b → b = bytes

/-- What a successful put leaves. -/
structure Stored (name : String) (bytes : Bytes) (store store' : ObjectStore) : Prop where
  holds : store'[name]? = some bytes
  keeps : store.Keeps store'
  only : ∀ (name' : String) (b : Bytes), store'[name']? = some b → (name' = name ∧ b = bytes) ∨ store[name']? = some b

variable {store : ObjectStore}

variable {key : ObjectKey} {bytes : Bytes} {n : ℕ} {m : CheckpointManifest}
  {groups : ColumnFamily → List (List ScanEntry)}

theorem wp_put (h : store.Admits key.name bytes) :
  Stateful.wp (ObjectStore.put key bytes)
    (fun r store' => r = .ok () ∧ Stored key.name bytes store store') store
  := by
  rw [ObjectStore.put, wp_get_bind]
  cases hget : store[key.name]? with
  | some existing =>
    simp only [h existing hget, if_true]
    refine ⟨rfl, ?_, fun _ _ hb => hb, fun _ _ hb => .inr hb⟩
    change store[key.name]? = some bytes
    rw [hget, h existing hget]
  | none =>
    refine ⟨rfl, ?_, ?_, ?_⟩
    · change (store.insert key.name bytes)[key.name]? = some bytes
      rw [getElem?_insert, if_pos rfl]
    · intro name b hb
      change (store.insert key.name bytes)[name]? = some b
      rw [getElem?_insert, if_neg]
      · exact hb
      · rintro rfl
        rw [hget] at hb
        nomatch hb
    · intro name b hb
      change (store.insert key.name bytes)[name]? = some b at hb
      rw [getElem?_insert] at hb
      split_ifs at hb with hname
      · left
        cases hb
        exact ⟨hname.symm, rfl⟩
      · right
        exact hb

theorem getSharedBounded_eq (h : store[key.name]? = some bytes) (hn : bytes.length ≤ n) :
  store.getSharedBounded key n = .ok (some bytes)
  := by
  have hsize : ¬ ∃ v ∈ store[key.name]?, n < v.length := by
    rw [h]
    rintro ⟨v, ⟨⟩, hlt⟩
    omega
  rw [ObjectStore.getSharedBounded, failIf_neg hsize, h]
  rfl

theorem wp_uploadSst {o : SstReference × Bytes} (hkey : o.1.key ≠ "")
    (h : store.Admits o.1.key o.2) :
  Stateful.wp (uploadSst o) (fun r store' => r = .ok o.1 ∧ Stored o.1.key o.2 store store') store
  := by
  have hput : Stateful.wp (ObjectStore.put ⟨o.1.key, hkey⟩ o.2)
      (fun r store' => r = .ok () ∧ Stored o.1.key o.2 store store') store := wp_put h
  rw [uploadSst, objectKey_new_eq hkey, wp_bind, wp_ofExcept]
  apply wp_bind_of hput
  · rintro _ store' ⟨-, hstored⟩
    rw [wp_get_bind, getSharedBounded_eq hstored.holds le_rfl, wp_bind, wp_ofExcept]
    simp only [ne_eq, not_true, if_false]
    exact ⟨rfl, hstored⟩
  · rintro e store' ⟨⟨⟩, -⟩

variable {os : List (SstReference × Bytes)}

/-- Objects are uploaded that no other bytes are stored or uploaded under the name of. -/
theorem wp_uploadAll (hkey : ∀ o ∈ os, o.1.key ≠ "") (h : ∀ o ∈ os, store.Admits o.1.key o.2)
    (hdistinct : ∀ o ∈ os, ∀ o' ∈ os, o.1.key = o'.1.key → o.2 = o'.2) :
  Stateful.wp (uploadAll os) (fun r store' => r = .ok (os.map (·.1)) ∧ store.Keeps store'
    ∧ ∀ o ∈ os, store'[o.1.key]? = some o.2) store
  := by
  induction os generalizing store with
  | nil => exact ⟨rfl, fun _ _ hb => hb, nofun⟩
  | cons o os ih =>
    apply wp_bind_of (wp_uploadSst (hkey o (mem_cons_self ..)) (h o (mem_cons_self ..)))
    · rintro file mid ⟨⟨⟩, hmid⟩
      have hadmits : ∀ o' ∈ os, ObjectStore.Admits mid o'.1.key o'.2 := by
        intro o' ho' b hb
        rcases hmid.only _ _ hb with ⟨hname, rfl⟩ | hb
        · apply hdistinct o (mem_cons_self ..) o' (mem_cons_of_mem o ho') hname.symm
        · apply h o' (mem_cons_of_mem o ho') b hb
      apply wp_bind_of (ih (fun o' ho' => hkey o' (mem_cons_of_mem o ho')) hadmits
        fun a ha b hb => hdistinct a (mem_cons_of_mem o ha) b (mem_cons_of_mem o hb))
      · rintro files last ⟨⟨⟩, hkeeps, hholds⟩
        use rfl, fun name b hb => hkeeps name b (hmid.keeps name b hb)
        intro o' ho'
        rcases mem_cons.mp ho' with rfl | ho'
        · apply hkeeps _ _ hmid.holds
        · apply hholds o' ho'
      · rintro e last ⟨⟨⟩, -⟩
    · rintro e mid ⟨⟨⟩, -⟩

/-! ## Names tell digests apart -/

theorem hexDigit_injective {m : ℕ} (hm : m < 16) (hn : n < 16) (h : hexDigit m = hexDigit n) :
  m = n
  := by
  have hdigits : ∀ m n : Fin 16, hexDigit m = hexDigit n → m = n := by
    decide
  exact congrArg Fin.val (hdigits ⟨m, hm⟩ ⟨n, hn⟩ h)

theorem hex_injective {a b : Bytes} (h : hex a = hex b) :
  a = b
  := by
  have hlist := String.ofList_injective h
  clear h
  induction a generalizing b with
  | nil =>
    cases b with
    | nil => rfl
    | cons d b => nomatch hlist
  | cons c a ih =>
    cases b with
    | nil => nomatch hlist
    | cons d b =>
      simp only [flatMap_cons, cons_append, nil_append, List.cons.injEq] at hlist
      obtain ⟨hhigh, hlow, hrest⟩ := hlist
      have hc := c.toNat_lt
      have hd := d.toNat_lt
      have hhigh := hexDigit_injective (by omega) (by omega) hhigh
      have hlow := hexDigit_injective (by omega) (by omega) hlow
      have hcd : c = d := by
        rw [← UInt8.toNat_inj]
        omega
      rw [hcd, ih hrest]

variable {scope : FlushScope}

theorem objectName_inj {hash hash' : String}
    (h : CheckpointManifest.objectName scope hash = CheckpointManifest.objectName scope hash') :
  hash = hash'
  := by
  simp only [CheckpointManifest.objectName] at h
  have hlist := congrArg String.toList h
  simp only [String.toList_append] at hlist
  apply String.toList_injective (append_cancel_left hlist)

/-! ## Tables are restored -/

variable {x : Externals} {cf : ColumnFamily} {rows : List ScanEntry}

/-- A stored table passes the checks of its reference. -/
theorem verifiedSst_object (hfits : Fits .production rows)
    (hstore : store[(object x scope cf rows).1.key]? = some (image cf rows)) :
  verifiedSst x store (object x scope cf rows).1
    = .ok (described .production cf rows)
  := by
  have hkey : (object x scope cf rows).1.key ≠ "" := objectName_ne_empty scope _
  have hsize : (UInt64.ofNat (tableSize rows)).toNat = tableSize rows := by
    apply Nat.mod_eq_of_lt (Nat.lt_of_le_of_lt hfits.size (by decide))
  have hread : ObjectStore.getSharedBounded store ⟨(object x scope cf rows).1.key, hkey⟩
      (object x scope cf rows).1.size.toNat = .ok (some (image cf rows)) := by
    apply getSharedBounded_eq hstore
    rw [length_image, object, hsize]
  have hdigest : checkSstDigest x (object x scope cf rows).1 (image cf rows) = .ok () := by
    rw [checkSstDigest, length_image]
    simp [object]
  have hmetadata : checkSstMetadata (object x scope cf rows).1 (described .production cf rows)
      = .ok () := by
    rw [checkSstMetadata, described]
    have hcf : ColumnFamily.all[(Wal.cfCode cf).toNat]? = some cf := by
      cases cf <;> rfl
    simp [object, hcf]
  rw [verifiedSst, objectKey_new_eq hkey, ok_bind, hread, ok_bind]
  simp only
  rw [hdigest, Validated.parse, validate_image sound_production hfits]
  change (checkSstMetadata _ _ >>= _) = _
  rw [hmetadata]
  rfl

theorem restoreSst_object (hfits : Fits .production rows)
    (hstore : store[(object x scope cf rows).1.key]? = some (image cf rows))
    (b : CheckpointBuilder) :
  restoreSst x store b (object x scope cf rows).1 = .ok (rows.foldl (fun b row => b.put cf row) b)
  := by
  rw [restoreSst, verifiedSst_object hfits hstore, ok_bind, iter_eq sound_production hfits]
  rfl

/-- The tables of a column family are restored to its rows. -/
theorem foldlM_restoreSst {groups : List (List ScanEntry)}
    (hfits : ∀ group ∈ groups, Fits .production group) (hstore : ∀ group ∈ groups,
      store[(object x scope cf group).1.key]? = some (image cf group)) (b : CheckpointBuilder) :
  (groups.map fun group => (object x scope cf group).1).foldlM (restoreSst x store) b
    = .ok (groups.flatten.foldl (fun b row => b.put cf row) b)
  := by
  induction groups generalizing b with
  | nil => rfl
  | cons group groups ih =>
    rw [map_cons, foldlM_cons,
      restoreSst_object (hfits group (mem_cons_self ..)) (hstore group (mem_cons_self ..)),
      ok_bind, ih (fun g hg => hfits g (mem_cons_of_mem group hg))
        fun g hg => hstore g (mem_cons_of_mem group hg), flatten_cons, foldl_append]

/-- The rows inserted so far are the contents of `t`. -/
structure Built (b : CheckpointBuilder) (t : MemState) : Prop where
  current : ShowsAll b.engine 1 t
  stored : StoredUpTo b.engine 1

theorem built_empty :
  Built .empty .empty
  := by
  have hstart := related_start.engine
  constructor
  · apply hstart.current.mono hstart.stored (Nat.zero_le 1)
  · intro cf key n hn
    apply le_trans (hstart.stored cf key n hn) (Nat.zero_le 1)

variable {b : CheckpointBuilder} {t : MemState}

theorem Built.put (h : Built b t) (cf : ColumnFamily) (row : ScanEntry) :
  Built (b.put cf row) (t.applyMutation (.put cf row.1 row.2))
  := by
  constructor
  · apply h.current.applyMutation (.put cf row.1 row.2)
  · apply h.stored.treeMut (.put cf row.1 row.2)

/-- Write rows to a column family. -/
def MemState.putRows (t : MemState) (cf : ColumnFamily) (rows : List ScanEntry) : MemState :=
  rows.foldl (fun t row => t.applyMutation (.put cf row.1 row.2)) t

theorem Built.putRows (h : Built b t) (cf : ColumnFamily) (rows : List ScanEntry) :
  Built (rows.foldl (fun b row => b.put cf row) b) (t.putRows cf rows)
  := by
  induction rows generalizing b t with
  | nil => exact h
  | cons row rows ih =>
    apply ih (h.put cf row)

/-- Written rows are read, and other column families do not change. -/
theorem MemState.getElem?_putRows (t : MemState) (cf : ColumnFamily) (hrows : Ascending rows)
    (cf' : ColumnFamily) (key : Bytes) :
  (∀ value, cf' = cf → (key, value) ∈ rows → ((t.putRows cf rows).cf cf')[key]? = some value)
    ∧ ((cf' = cf → ∀ value, (key, value) ∉ rows) →
      ((t.putRows cf rows).cf cf')[key]? = (t.cf cf')[key]?)
  := by
  induction rows generalizing t with
  | nil => exact ⟨nofun, fun _ => rfl⟩
  | cons row rows ih =>
    obtain ⟨hwritten, hother⟩ := ih (t.applyMutation (.put cf row.1 row.2)) hrows.tail
    constructor
    · intro value hcf hmem
      rcases mem_cons.mp hmem with hrow | hmem
      · -- No later row has the same key.
        have hlater : cf' = cf → ∀ value', (key, value') ∉ rows := by
          intro _ value' hmem'
          have hlt := hrows.lt_of_mem hmem'
          rw [← hrow] at hlt
          apply lt_irrefl _ hlt
        change (((t.applyMutation (.put cf row.1 row.2)).putRows cf rows).cf cf')[key]? = _
        rw [hother hlater, getElem?_applyMutation, ← hrow, if_pos ⟨hcf, rfl⟩]
        rfl
      · apply hwritten value hcf hmem
    · intro hnone
      have hlater : cf' = cf → ∀ value', (key, value') ∉ rows := by
        intro hcf value' hmem'
        apply hnone hcf value' (mem_cons_of_mem row hmem')
      change (((t.applyMutation (.put cf row.1 row.2)).putRows cf rows).cf cf')[key]? = _
      rw [hother hlater, getElem?_applyMutation, if_neg]
      rintro ⟨hcf, rfl⟩
      apply hnone hcf row.2 (mem_cons_self ..)

theorem MemState.cf_putRows_of_ne {cf' : ColumnFamily} (hrows : Ascending rows) (hne : cf' ≠ cf) :
  (t.putRows cf rows).cf cf' = t.cf cf'
  := by
  apply ext_getElem?
  intro key
  apply (getElem?_putRows t cf hrows cf' key).2
  intro hcf
  apply absurd hcf hne

theorem MemState.cf_putRows_self {m : CfMap} (ht : t.cf cf = ∅) :
  (t.putRows cf m.toList).cf cf = m
  := by
  apply ext_getElem?
  intro key
  obtain ⟨hwritten, hother⟩ := getElem?_putRows t cf (ascending_toList m) cf key
  cases hkey : m[key]? with
  | some value =>
    apply hwritten value rfl (mem_toList.mpr hkey)
  | none =>
    rw [hother, ht]
    · rfl
    · intro _ value hmem
      rw [mem_toList, hkey] at hmem
      nomatch hmem

variable {frozen : FrozenFlush}

/-- The objects of a checkpoint are restored to the contents its view shows. -/
theorem exists_built (hcut : IsCut frozen.rows groups)
    (hstore : ∀ o ∈ objects x frozen.scope groups, store[o.1.key]? = some o.2)
    (ht : ShowsAll frozen.shared frozen.view.version t) :
  ∃ b t', ((objects x frozen.scope groups).map (·.1)).foldlM (restoreSst x store) .empty = .ok b
    ∧ Built b t' ∧ ∀ cf, t'.cf cf = t.cf cf
  := by
  have hrows (cf : ColumnFamily) : (groups cf).flatten = (t.cf cf).toList := by
    rw [hcut.flatten, FrozenFlush.rows, View.rows_eq (ht cf)]
  have hascending (cf : ColumnFamily) : Ascending (t.cf cf).toList := ascending_toList _
  have hfamily (cf : ColumnFamily) (b : CheckpointBuilder) :
      ((groups cf).map fun group => (object x frozen.scope cf group).1).foldlM (restoreSst x store) b
        = .ok ((t.cf cf).toList.foldl (fun b row => b.put cf row) b) := by
    rw [← hrows, foldlM_restoreSst]
    · intro group hgroup
      apply (hcut.isTable cf group hgroup).fits
      apply List.Pairwise.sublist (sublist_flatten_of_mem hgroup)
      rw [hrows]
      apply hascending
    · intro group hgroup
      apply hstore
      apply mem_flatMap.mpr
      refine ⟨cf, by cases cf <;> decide, mem_map_of_mem hgroup⟩
  refine ⟨_, _, ?_, ((built_empty.putRows .default (t.cf .default).toList).putRows .lock
    (t.cf .lock).toList).putRows .write (t.cf .write).toList, ?_⟩
  · simp only [objects, ColumnFamily.all, flatMap_cons, flatMap_nil, append_nil,
      map_append, map_map, foldlM_append]
    change (List.foldlM (restoreSst x store) .empty
      ((groups .default).map fun group => (object x frozen.scope .default group).1) >>= _) = _
    rw [hfamily]
    change (List.foldlM (restoreSst x store) _
      ((groups .lock).map fun group => (object x frozen.scope .lock group).1) >>= _) = _
    rw [hfamily]
    apply hfamily
  · rintro (_ | _ | _)
    · rw [cf_putRows_of_ne (hascending _) (by decide),
        cf_putRows_of_ne (hascending _) (by decide), cf_putRows_self rfl]
    · rw [cf_putRows_of_ne (hascending _) (by decide), cf_putRows_self]
      rw [cf_putRows_of_ne (hascending _) (by decide)]
      rfl
    · rw [cf_putRows_self]
      rw [cf_putRows_of_ne (hascending _) (by decide), cf_putRows_of_ne (hascending _) (by decide)]
      rfl

/-! ## The image is restored -/

/-- A plan names and holds the objects, and its manifest is readable. -/
theorem encodePlan_eq_ok {layout : ImageLayout} (hos : encodeTables x frozen layout = .ok os)
    {planned : PlannedFlush} (h : encodePlan x frozen layout = .ok planned) :
  planned = ⟨⟨frozen.scope, frozen.position.term, frozen.position.index, os.map (·.1)⟩,
      os.map (·.2)⟩
    ∧ ∃ bytes, planned.manifest.encode x = .ok bytes
      ∧ CheckpointManifest.decode x bytes = .ok planned.manifest
  := by
  simp only [encodePlan, hos, ok_bind, bind_eq_ok, mapError_eq_ok] at h
  obtain ⟨bytes, hencode, manifest, hdecode, h⟩ := h
  cases h
  have hmanifest := CheckpointManifest.decode_encode hencode hdecode
  rw [hmanifest] at hdecode
  use rfl, bytes, hencode, hdecode

/-- A view of a built engine shows what was put in. -/
theorem rows_finish (h : Built b t) (ht : ShowsAll frozen.shared frozen.view.version t)
    (shard : Fin registryShards) (cf : ColumnFamily) :
  let current := View.current (b.finish frozen.position) shard
  current.2.rows current.1 cf = frozen.rows cf
    ∧ ∀ key, current.2.get current.1 cf key = frozen.view.get frozen.shared cf key
  := by
  intro current
  have hshows : Shows (current.1.trees cf) current.2.version (t.cf cf) := h.current cf
  constructor
  · rw [View.rows_eq hshows, FrozenFlush.rows, View.rows_eq (ht cf)]
  · intro key
    rw [View.get, hshows.newestSlot, View.get, (ht cf).newestSlot]

theorem wp_uploadPlanned (hfiles : m.files = os.map (·.1))
    (hkey : ∀ o ∈ os, o.1.key ≠ "") (h : ∀ o ∈ os, store.Admits o.1.key o.2)
    (hdistinct : ∀ o ∈ os, ∀ o' ∈ os, o.1.key = o'.1.key → o.2 = o'.2) :
  Stateful.wp (uploadPlanned ⟨m, os.map (·.2)⟩) (fun r store' =>
    r = .ok ⟨m.scope, m.position, m.files⟩ ∧ store.Keeps store'
    ∧ ∀ o ∈ os, store'[o.1.key]? = some o.2) store
  := by
  have hzip : m.files.zip (os.map (·.2)) = os := by
    rw [hfiles, zip_map', map_id']
  rw [uploadPlanned, hzip]
  apply wp_bind_of (wp_uploadAll hkey h hdistinct)
  · rintro files store' ⟨⟨⟩, hkeeps, hholds⟩
    refine ⟨?_, hkeeps, hholds⟩
    rw [hfiles]
    rfl
  · rintro e store' ⟨⟨⟩, -⟩

/-- A readable manifest of stored objects is restored. -/
theorem restore_eq (hcut : IsCut frozen.rows groups)
    (hstore : ∀ o ∈ objects x frozen.scope groups, store[o.1.key]? = some o.2) (hfiles : m.files = (objects x frozen.scope groups).map (·.1))
    (hposition : m.position = frozen.position) (hencode : m.encode x = .ok bytes)
    (hdecode : CheckpointManifest.decode x bytes = .ok m) :
  ∃ engine, restore x store m = .ok engine
    ∧ engine.published.applied = some frozen.position
    ∧ ∀ shard cf, let current := View.current engine shard
      current.2.rows current.1 cf = frozen.rows cf
      ∧ ∀ key, current.2.get current.1 cf key = frozen.view.get frozen.shared cf key
  := by
  choose maps hmaps using fun cf => exists_shows (frozen.shared.trees cf) frozen.view.version
  let t : MemState := ⟨maps .default, maps .lock, maps .write, none, 0⟩
  have ht : ShowsAll frozen.shared frozen.view.version t := by
    rintro (_ | _ | _)
    · apply hmaps
    · apply hmaps
    · apply hmaps
  obtain ⟨b, t', hfold, hbuilt, hcontents⟩ := exists_built hcut hstore ht
  have ht' : ShowsAll frozen.shared frozen.view.version t' := by
    intro cf
    rw [hcontents]
    apply ht
  refine ⟨b.finish frozen.position, ?_, rfl, rows_finish hbuilt ht'⟩
  rw [restore, hencode]
  change ((CheckpointManifest.decode x bytes).mapError _ >>= _) = _
  rw [hdecode]
  change (m.files.foldlM (restoreSst x store) .empty >>= _) = _
  rw [hfiles, hfold, hposition]
  rfl

/-- An engine with one row. -/
def sampleEngine : Shared :=
  (Shared.new.apply [.put .default [1] [2]] (some ⟨1, 1⟩) fun _ => true).1

/-- The engine with one row, frozen. -/
def sampleFrozen : FrozenFlush :=
  ⟨sampleEngine, ⟨1, ⟨0, by decide⟩, 1⟩, ⟨1, 1⟩, ⟨"c", 1, 1, 1⟩⟩

/-- The layout of the engine with one row. -/
def sampleLayout : ImageLayout := ⟨[[⟨1, 34⟩], [], []], 34⟩

/-- The manifest of the engine with one row, all digests being zero. -/
def sampleManifest : CheckpointManifest :=
  ⟨⟨"c", 1, 1, 1⟩, 1, 1, [{
    key := CheckpointManifest.objectName ⟨"c", 1, 1, 1⟩ (hex (Wal.zeros 32))
    sha256 := hex (Wal.zeros 32)
    cf := 0
    smallest := [1]
    largest := [1]
    size := 34
    count := 1 }]⟩

theorem imageLayout_sampleFrozen :
  imageLayout sampleFrozen sstTarget CheckpointManifest.maxCheckpointBytes = .ok sampleLayout
  := rfl

theorem encodePlan_sampleFrozen (hsha : ∀ bytes, x.sha256 bytes = Wal.zeros 32)
    (hjson : x.toJson sampleManifest = []) :
  encodePlan x sampleFrozen sampleLayout
    = .ok ⟨sampleManifest, [image .default [([1], [2])]]⟩
  := by
  have hcut : IsCut sampleFrozen.rows fun | .default => [[([1], [2])]] | _ => [] := by
    constructor
    · rintro (_ | _ | _) <;> decide +kernel
    · rintro (_ | _ | _) group hgroup
      · rw [mem_singleton.mp hgroup]
        use nofun, by decide
      · nomatch hgroup
      · nomatch hgroup
  have hos : encodeTables x sampleFrozen sampleLayout = .ok _ := (encodeTables_eq hcut rfl rfl x).1
  have hobjects : objects x sampleFrozen.scope (fun | .default => [[([1], [2])]] | _ => [])
      = [(sampleManifest.files.head (by decide), image .default [([1], [2])])] := by
    simp only [objects, ColumnFamily.all, flatMap_cons, flatMap_nil, map_cons,
      map_nil, append_nil, object, digest, hsha]
    rfl
  have hencode : sampleManifest.encode x = .ok (CheckpointManifest.magic 1) := by
    have hlarge : sampleManifest.requiresLargeFormat = .ok false := rfl
    rw [CheckpointManifest.encode]
    simp only [hjson]
    rfl
  have hdecode : CheckpointManifest.decode x (CheckpointManifest.magic 1) = .ok sampleManifest := by
    have hread : x.fromJson ((CheckpointManifest.magic 1).drop (CheckpointManifest.magic 1).length)
        = some sampleManifest := by
      rw [drop_length, ← hjson, x.fromJson_toJson]
    rw [CheckpointManifest.decode, hread]
    decide +kernel
  rw [encodePlan, hos, hobjects]
  change ((CheckpointManifest.encode x sampleManifest).mapError _ >>= _) = _
  rw [hencode]
  change ((CheckpointManifest.decode x (CheckpointManifest.magic 1)).mapError _ >>= _) = _
  rw [hdecode]
  rfl

end Kv9.Engine
