import Kv9.Engine.Wal.Segment

/-!
# Checkpoint manifests

A checkpoint names the full state of one region at one applied position by the sorted
tables that hold it.  A log selects a checkpoint only if it agrees with what the log has
applied and does not fall behind the checkpoint selected before.
-/

namespace Kv9.Engine

open Except Wal

/-- The region a checkpoint belongs to. -/
structure FlushScope where
  cluster : String
  region : UInt64
  confVer : UInt64
  version : UInt64
deriving DecidableEq

/-- One sorted table of a checkpoint. -/
structure SstReference where
  key : String
  sha256 : String
  cf : UInt8
  smallest : Bytes
  largest : Bytes
  size : UInt64
  count : UInt64
deriving DecidableEq

/-- The full state of a region at a position. -/
structure CheckpointManifest where
  scope : FlushScope
  term : UInt64
  index : UInt64
  files : List SstReference
deriving DecidableEq

/-- What the log takes from its libraries: a digest, and the text form of a manifest. -/
structure Externals where
  sha256 : Bytes → Bytes
  length_sha256 : ∀ bytes, (sha256 bytes).length = 32
  toJson : CheckpointManifest → Bytes
  fromJson : Bytes → Option CheckpointManifest
  fromJson_toJson : ∀ m, fromJson (toJson m) = some m

/-- Manifests can be written as byte strings, one way or another. -/
theorem countable_manifest :
  Countable CheckpointManifest
  := by
  have hchar : Countable Char :=
    Function.Injective.countable (fun _ _ h => Char.ext (UInt32.toNat_inj.mp h) :
      Function.Injective Char.toNat)
  have hstring : Countable String :=
    Function.Injective.countable fun _ _ h => String.toList_injective h
  have hscope : Countable FlushScope := by
    have hfields : Function.Injective fun s : FlushScope =>
        (s.cluster, s.region, s.confVer, s.version) := by
      rintro ⟨⟩ ⟨⟩ h
      simpa using h
    apply hfields.countable
  have hfile : Countable SstReference := by
    have hfields : Function.Injective fun s : SstReference =>
        (s.key, s.sha256, s.cf, s.smallest, s.largest, s.size, s.count) := by
      rintro ⟨⟩ ⟨⟩ h
      simpa using h
    apply hfields.countable
  have hfields : Function.Injective fun m : CheckpointManifest =>
      (m.scope, m.term, m.index, m.files) := by
    rintro ⟨⟩ ⟨⟩ h
    simpa using h
  apply hfields.countable

/-- There are libraries that write a given manifest as nothing, and have one digest. -/
theorem exists_externals (m : CheckpointManifest) :
  ∃ x : Externals, (∀ bytes, x.sha256 bytes = zeros 32) ∧ x.toJson m = []
  := by
  have := countable_manifest
  obtain ⟨number, hnumber⟩ := exists_injective_nat CheckpointManifest
  have hjson : Function.Injective fun m' => zeros (if m' = m then 0 else number m' + 1) := by
    intro a b h
    have hlength := congrArg List.length h
    simp only [zeros, List.length_replicate] at hlength
    split_ifs at hlength with ha hb hb
    · rw [ha, hb]
    · apply hnumber
      omega
  refine ⟨{
    sha256 := fun _ => zeros 32
    length_sha256 := fun _ => List.length_replicate
    toJson := fun m' => zeros (if m' = m then 0 else number m' + 1)
    fromJson := Function.partialInv fun m' => zeros (if m' = m then 0 else number m' + 1)
    fromJson_toJson := Function.partialInv_left hjson }, fun _ => rfl, ?_⟩
  simp [zeros]

/-- There are libraries as the log needs them. -/
theorem nonempty_externals :
  Nonempty Externals
  := by
  obtain ⟨x, -⟩ := exists_externals ⟨⟨"", 0, 0, 0⟩, 0, 0, []⟩
  exact ⟨x⟩

namespace CheckpointManifest

/-- The applied position of a checkpoint. -/
def position (m : CheckpointManifest) : AppliedPosition := ⟨m.term, m.index⟩

/-- `KV9CHECKPOINT` and a version. -/
def magic (version : UInt8) : Bytes :=
  [0x4B, 0x56, 0x39, 0x43, 0x48, 0x45, 0x43, 0x4B, 0x50, 0x4F, 0x49, 0x4E, 0x54, version]

/-- The largest manifest. -/
def maxManifestBytes : ℕ := 1024 * 1024

/-- The largest table, and the largest image of the first version. -/
def maxCheckpointBytes : ℕ := 48 * 1024 * 1024

/-- The most tables of the second version. -/
def maxStreamedSsts : ℕ := 64

/-- The object that holds a table. -/
def objectName (scope : FlushScope) (hash : String) : String :=
  "clusters/" ++ scope.cluster ++ "/regions/" ++ toString scope.region ++ "/sst/" ++ hash

/-- Whether the image needs the second version. -/
def requiresLargeFormat (m : CheckpointManifest) : Except WalError Bool := do
  let total ← m.files.foldlM (fun sum file => checkedAdd sum file.size.toNat) 0
  return decide (maxCheckpointBytes < total.toNat)

/-- Serialize a manifest. -/
def encode (x : Externals) (m : CheckpointManifest) : Except WalError Bytes := do
  let large ← m.requiresLargeFormat
  let bytes := magic (if large then 2 else 1) ++ x.toJson m
  failIf (maxManifestBytes < bytes.length) .manifest
  return bytes

/-- The digits of a digest. -/
def isHexDigit (c : Char) : Bool := c.isDigit || ('a' ≤ c && c ≤ 'f')

/-- Check the tables of a manifest in order, and add up their sizes. -/
def checkFiles (scope : FlushScope) (large : Bool) :
    Option SstReference → UInt64 → List SstReference → Except WalError UInt64
  | _, total, [] => .ok total
  | previous, total, file :: files => do
    let total ← checkedAdd total file.size.toNat
    failIf (2 < file.cf ∨ file.count = 0 ∨ file.largest < file.smallest
      ∨ file.sha256.utf8ByteSize ≠ 64 ∨ file.sha256.toList.all isHexDigit = false
      ∨ file.key ≠ objectName scope file.sha256
      ∨ maxCheckpointBytes < file.size.toNat
      ∨ (large = false ∧ maxCheckpointBytes < total.toNat)
      ∨ (∃ p ∈ previous, file.cf < p.cf ∨ (p.cf = file.cf ∧ file.smallest ≤ p.largest)))
      .manifest
    checkFiles scope large (some file) total files

/-- Read a manifest. -/
def decode (x : Externals) (bytes : Bytes) : Except WalError CheckpointManifest := do
  let large := (magic 2).isPrefixOf bytes
  failIf ((large = false ∧ (magic 1).isPrefixOf bytes = false)
    ∨ maxManifestBytes < bytes.length) .manifest
  match x.fromJson (bytes.drop (magic 1).length) with
  | none => .error .manifest
  | some m => do
    failIf (m.index = 0 ∨ m.term = 0 ∨ m.scope.cluster.isEmpty = true ∨ m.files = []) .manifest
    let total ← checkFiles m.scope large none 0 m.files
    failIf (large = true ∧ (total.toNat ≤ maxCheckpointBytes ∨ maxStreamedSsts < m.files.length))
      .manifest
    return m

/-! ## Selection -/

/-- A checkpoint must not be ahead of what is applied. -/
def checkAppliedPosition (m : CheckpointManifest) (applied : Option AppliedPosition) :
    Except WalError Unit :=
  match applied with
  | none => .error .checkpointAhead
  | some applied =>
    failIf (applied.index < m.index ∨ applied.term < m.term
      ∨ (m.index = applied.index ∧ m.term ≠ applied.term)) .checkpointAhead

/-- Whether a checkpoint replaces the selected one. -/
def checkSelection (x : Externals) (m : CheckpointManifest) (applied : Option AppliedPosition)
    (previous : Option CheckpointManifest) : Except WalError Bool := do
  let bytes ← m.encode x
  let _ ← decode x bytes
  m.checkAppliedPosition applied
  match previous with
  | none => return true
  | some old =>
    failIf (old.scope.cluster ≠ m.scope.cluster ∨ old.scope.region ≠ m.scope.region)
      .checkpointScope
    if m.index < old.index then
      return false
    else do
      failIf (old.index = m.index ∧ old ≠ m) .checkpointConflict
      failIf (m.term < old.term) .checkpointTerm
      failIf (m.scope.confVer < old.scope.confVer ∨ m.scope.version < old.scope.version)
        .checkpointEpoch
      return true

/-! ## Laws -/

section

variable {x : Externals} {m m' : CheckpointManifest} {bytes : Bytes}

theorem encode_eq_ok (henc : m.encode x = .ok bytes) :
  ∃ version, bytes = magic version ++ x.toJson m
  := by
  rw [encode, bind_eq_ok] at henc
  obtain ⟨large, -, henc⟩ := henc
  simp only [bind_eq_ok] at henc
  obtain ⟨-, -, henc⟩ := henc
  cases henc
  exact ⟨_, rfl⟩

/-- A manifest is decoded from its encoding, if at all. -/
theorem decode_encode (henc : m.encode x = .ok bytes) (hdec : decode x bytes = .ok m') :
  m' = m
  := by
  obtain ⟨version, rfl⟩ := encode_eq_ok henc
  have hdrop : (magic version ++ x.toJson m).drop (magic 1).length = x.toJson m :=
    List.drop_left' rfl
  rw [decode, hdrop, x.fromJson_toJson] at hdec
  simp only [bind_eq_ok] at hdec
  obtain ⟨-, -, -, -, total, -, -, -, hdec⟩ := hdec
  cases hdec
  rfl

theorem encode_ne_nil (henc : m.encode x = .ok bytes) :
  bytes ≠ []
  := by
  obtain ⟨version, rfl⟩ := encode_eq_ok henc
  nofun

/-- A manifest that can be selected is not ahead of what is applied. -/
theorem checkAppliedPosition_eq_ok {applied : Option AppliedPosition}
    (hcheck : m.checkAppliedPosition applied = .ok ()) :
  ∃ pos, applied = some pos ∧ m.index ≤ pos.index ∧ m.term ≤ pos.term
  := by
  cases applied with
  | none => nomatch hcheck
  | some pos =>
    rw [checkAppliedPosition, failIf_eq_ok] at hcheck
    push Not at hcheck
    use pos, rfl, hcheck.1, hcheck.2.1

/-- A selected manifest does not move the index backwards. -/
theorem checkSelection_eq_ok {applied : Option AppliedPosition}
    {previous : Option CheckpointManifest}
    (hcheck : m.checkSelection x applied previous = .ok true) :
  m.checkAppliedPosition applied = .ok () ∧ ∀ old ∈ previous, old.index ≤ m.index
  := by
  simp only [checkSelection, bind_eq_ok] at hcheck
  obtain ⟨-, -, -, -, ⟨⟩, happlied, hcheck⟩ := hcheck
  use happlied
  rintro old rfl
  simp only [bind_eq_ok] at hcheck
  split_ifs at hcheck with hindex
  · simp at hcheck
  · apply UInt64.not_lt.mp hindex

end

end CheckpointManifest

end Kv9.Engine
