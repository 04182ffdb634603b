import Kv9.Common.Bytes
import Kv9.Lib.Fallible
import Kv9.Lib.PrefixFree

/-!
# Identifiers and physical keys

A physical key is a mode byte, the three bytes of a keyspace and a user key.  The raw mode
holds the keys of clients, the system mode the records of the store itself, so that no
record of the store is the key of a client.  The keys of a keyspace are a range of the byte strings,
and the ranges of two keyspaces have nothing in common.
-/

namespace Kv9

open Codec Except

/-- The identifier of a region. -/
abbrev RegionId := UInt64

/-- The identifier of a keyspace. -/
abbrev KeyspaceId := UInt32

/-- The identifier of a tenant. -/
abbrev TenantId := UInt64

/-- Why an operation is refused. -/
inductive Error where
  | config (text : String)
  | raft (text : String)
  | engine (text : String)
  | keyspaceIdOutOfRange (id : UInt32)
  | malformedKey (text : String)
  | invalidKeyMode (byte : UInt8)
  | writeConflict (text : String)
  | notImplemented (text : String)
deriving DecidableEq, Repr

/-- The digest of a record. -/
structure RootDigest where
  bytes : Bytes
  length_bytes : bytes.length = 32
deriving DecidableEq

/-- The digest that names nothing. -/
def RootDigest.zero : RootDigest := ⟨List.replicate 32 0, List.length_replicate⟩

/-- The sum of two numbers, unless it overflows. -/
def checkedAdd64 (a b : UInt64) : Option UInt64 :=
  if a.toNat + b.toNat < 2 ^ 64 then some (a + b) else none

/-- The product of two numbers, unless it overflows. -/
def checkedMul64 (a b : UInt64) : Option UInt64 :=
  if a.toNat * b.toNat < 2 ^ 64 then some (a * b) else none

/-- The reserved system keyspace. -/
def systemKeyspace : KeyspaceId := 0

/-- The largest keyspace that fits three bytes. -/
def maxKeyspace : UInt32 := 0x00FFFFFF

/-- The mode of a physical key. -/
inductive KeyMode where
  | raw
  | system
deriving DecidableEq, Repr

/-- The byte of a mode: `r` or `s`. -/
def KeyMode.asByte : KeyMode → UInt8
  | .raw => 0x72
  | .system => 0x73

/-- The mode of a byte. -/
def KeyMode.fromByte (byte : UInt8) : Except Error KeyMode :=
  if byte = 0x72 then .ok .raw
  else if byte = 0x73 then .ok .system
  else .error (.invalidKeyMode byte)

/-- A physical key, taken apart. -/
structure DecodedKey where
  mode : KeyMode
  keyspace : KeyspaceId
  userKey : Bytes
deriving DecidableEq

/-- The length of the mode and the keyspace. -/
def keyPrefixLen : ℕ := 4

/-- Write a physical key.  A keyspace that does not fit is refused. -/
def encodeKey (mode : KeyMode) (keyspace : KeyspaceId) (userKey : Bytes) : Except Error Bytes := do
  failIf (maxKeyspace < keyspace) (.keyspaceIdOutOfRange keyspace)
  return mode.asByte :: (be 3 keyspace.toNat ++ userKey)

/-- Take a physical key apart. -/
def decodeKey (raw : Bytes) : Except Error DecodedKey :=
  match raw with
  | mode :: b0 :: b1 :: b2 :: userKey => do
    let mode ← KeyMode.fromByte mode
    return ⟨mode, UInt32.ofNat (fromBe [b0, b1, b2]), userKey⟩
  | _ => .error (.malformedKey
      ("length " ++ toString raw.length ++ " < prefix length " ++ toString keyPrefixLen))

/-- Whether a key is the key of a client. -/
def isRawKey (key : Bytes) : Bool :=
  match decodeKey key with
  | .ok k => k.mode == .raw
  | .error _ => false

@[simp]
theorem fromByte_asByte (mode : KeyMode) :
  KeyMode.fromByte mode.asByte = .ok mode
  := by
  cases mode
  · rfl
  · rfl

variable {keyspace : KeyspaceId} {userKey key : Bytes}

theorem decodeKey_of_encodeKey {mode : KeyMode} (h : encodeKey mode keyspace userKey = .ok key) :
  decodeKey key = .ok ⟨mode, keyspace, userKey⟩
  := by
  rw [encodeKey, bind_eq_ok] at h
  obtain ⟨_, hle, hkey⟩ := h
  rw [failIf_eq_ok, UInt32.not_lt] at hle
  cases hkey
  have hlt : keyspace.toNat < 256 ^ 3 := Nat.lt_of_le_of_lt hle (by decide)
  obtain ⟨b0, b1, b2, hbe⟩ := List.length_eq_three.mp (length_be 3 keyspace.toNat)
  have hfrom := fromBe_be hlt
  rw [hbe] at hfrom
  rw [hbe]
  simp [decodeKey, hfrom]

theorem isRawKey_of_decodeKey {k : DecodedKey} (h : decodeKey key = .ok k) (hmode : k.mode = .raw) :
  isRawKey key = true
  := by
  rw [isRawKey, h]
  simp [hmode]

theorem isRawKey_of_encodeKey (h : encodeKey .raw keyspace userKey = .ok key) :
  isRawKey key = true
  := isRawKey_of_decodeKey (decodeKey_of_encodeKey h) rfl

/-- Only keys with the raw mode byte are keys of clients. -/
theorem isRawKey_cons_eq_false {b : UInt8} (h : b ≠ 0x72) (rest : Bytes) :
  isRawKey (b :: rest) = false
  := by
  cases hdec : decodeKey (b :: rest) with
  | error e => simp only [isRawKey, hdec]
  | ok k =>
    simp only [isRawKey, hdec]
    match rest, hdec with
    | b0 :: b1 :: b2 :: userKey, hdec =>
      simp only [decodeKey, bind_eq_ok, KeyMode.fromByte, if_neg h] at hdec
      obtain ⟨mode, hmode, hk⟩ := hdec
      cases hk
      split_ifs at hmode
      cases hmode
      rfl

/-! ## Ranges of keyspaces -/

/-- The half-open range of the keys of a keyspace.  After the last keyspace the mode byte is
rolled forward. -/
def keyspaceRange (mode : KeyMode) (keyspace : KeyspaceId) : Except Error (Bytes × Bytes) := do
  let start ← encodeKey mode keyspace []
  let stop ← if keyspace = maxKeyspace then pure [UInt8.ofNat (min 255 (mode.asByte.toNat + 1))]
    else encodeKey mode (keyspace + 1) []
  return (start, stop)

variable {mode mode' : KeyMode} {keyspace' : KeyspaceId} {start stop : Bytes} {k : DecodedKey}

theorem encodeKey_eq_ok :
  encodeKey mode keyspace userKey = .ok key
    ↔ keyspace ≤ maxKeyspace ∧ key = mode.asByte :: (be 3 keyspace.toNat ++ userKey)
  := by
  rw [encodeKey, bind_eq_ok]
  simp only [failIf_eq_ok, UInt32.not_lt]
  constructor
  · rintro ⟨_, hle, h⟩
    cases h
    exact ⟨hle, rfl⟩
  · rintro ⟨hle, rfl⟩
    exact ⟨(), hle, rfl⟩

theorem toNat_lt_of_le_maxKeyspace (h : keyspace ≤ maxKeyspace) :
  keyspace.toNat < 256 ^ 3
  := Nat.lt_of_le_of_lt h (by decide)

theorem toNat_add_one (h : keyspace ≤ maxKeyspace) (hne : keyspace ≠ maxKeyspace) :
  keyspace.toNat + 1 < 256 ^ 3 ∧ (keyspace + 1).toNat = keyspace.toNat + 1
  := by
  have hlt := toNat_lt_of_le_maxKeyspace h
  have hnat : keyspace.toNat ≠ 256 ^ 3 - 1 := fun h => hne (UInt32.toNat_inj.mp h)
  rw [UInt32.toNat_add]
  change _ ∧ (keyspace.toNat + 1) % 2 ^ 32 = _
  omega

/-- A key that is taken apart is written from its parts. -/
theorem encodeKey_of_decodeKey (h : decodeKey key = .ok k) :
  encodeKey k.mode k.keyspace k.userKey = .ok key
  := by
  rw [encodeKey_eq_ok]
  match key, h with
  | b :: b0 :: b1 :: b2 :: userKey, h =>
    obtain ⟨mode, hmode, hk⟩ := bind_eq_ok.mp h
    cases hk
    have hbyte : mode.asByte = b := by
      unfold KeyMode.fromByte at hmode
      split_ifs at hmode with hraw hsystem
      · cases hmode
        exact hraw.symm
      · cases hmode
        exact hsystem.symm
    have hlt : fromBe [b0, b1, b2] < 256 ^ 3 := fromLe_lt _
    have hnat : (UInt32.ofNat (fromBe [b0, b1, b2])).toNat = fromBe [b0, b1, b2] := by
      apply UInt32.toNat_ofNat_of_lt' (lt_trans hlt (by decide))
    have hbe : be 3 (fromBe [b0, b1, b2]) = [b0, b1, b2] := by
      rw [be, fromBe]
      exact congrArg List.reverse (le_fromLe [b2, b1, b0])
    constructor
    · rw [UInt32.le_iff_toNat_le, hnat]
      exact Nat.le_pred_of_lt hlt
    · rw [hnat, hbe, hbyte]
      rfl

/-- Keys of one mode are ordered by their keyspaces. -/
theorem cons_be_lt {m n : ℕ} (h : m < n) (hn : n < 256 ^ 3) (b : UInt8) (u u' : Bytes) :
  b :: (be 3 m ++ u) < b :: (be 3 n ++ u')
  := .cons (be_append_lt h hn u u')

theorem cons_be_le (b : UInt8) (n : ℕ) (u : Bytes) :
  b :: (be 3 n ++ []) ≤ b :: (be 3 n ++ u)
  := by
  rw [List.append_nil]
  apply not_lt.mp
  exact List.IsPrefix.le ⟨u, rfl⟩

theorem keyspaceRange_eq_ok (h : keyspaceRange mode keyspace = .ok (start, stop)) :
  keyspace ≤ maxKeyspace ∧ start = mode.asByte :: (be 3 keyspace.toNat ++ [])
    ∧ (keyspace.toNat + 1 = 256 ^ 3 ∧ stop = [mode.asByte + 1]
      ∨ keyspace.toNat + 1 < 256 ^ 3 ∧ stop = mode.asByte :: (be 3 (keyspace.toNat + 1) ++ []))
  := by
  obtain ⟨_, hstart, h⟩ := bind_eq_ok.mp h
  obtain ⟨hle, rfl⟩ := encodeKey_eq_ok.mp hstart
  use hle
  split_ifs at h with hmax
  · cases h
    use rfl
    left
    subst hmax
    use rfl
    cases mode <;> rfl
  · obtain ⟨_, hstop, h⟩ := bind_eq_ok.mp h
    cases h
    use rfl
    right
    obtain ⟨hlt, hsucc⟩ := toNat_add_one hle hmax
    obtain ⟨-, rfl⟩ := encodeKey_eq_ok.mp hstop
    rw [hsucc]
    exact ⟨hlt, rfl⟩

theorem keyspaceRange_isOk (mode : KeyMode) (h : keyspace ≤ maxKeyspace) :
  ∃ start stop, keyspaceRange mode keyspace = .ok (start, stop)
  := by
  have hstart : encodeKey mode keyspace [] = _ := encodeKey_eq_ok.mpr ⟨h, rfl⟩
  rw [keyspaceRange, hstart, ok_bind]
  split_ifs with hmax
  · exact ⟨_, _, rfl⟩
  · obtain ⟨hlt, hsucc⟩ := toNat_add_one h hmax
    rw [← hsucc] at hlt
    have hstop : encodeKey mode (keyspace + 1) [] = _ :=
      encodeKey_eq_ok.mpr ⟨Nat.le_pred_of_lt hlt, rfl⟩
    rw [hstop, ok_bind]
    exact ⟨_, _, rfl⟩

/-- A key is in the range of a keyspace exactly when it is a key of that keyspace. -/
theorem mem_keyspaceRange (h : keyspaceRange mode keyspace = .ok (start, stop))
    (hk : decodeKey key = .ok k) :
  start ≤ key ∧ key < stop ↔ k.mode = mode ∧ k.keyspace = keyspace
  := by
  obtain ⟨hle, rfl, hstop⟩ := keyspaceRange_eq_ok h
  obtain ⟨hkle, rfl⟩ := encodeKey_eq_ok.mp (encodeKey_of_decodeKey hk)
  have hlt := toNat_lt_of_le_maxKeyspace hle
  have hklt := toNat_lt_of_le_maxKeyspace hkle
  clear h hk
  obtain ⟨kmode, kspace, userKey⟩ := k
  dsimp only at *
  constructor
  · rintro ⟨hstart, hend⟩
    have hmode : kmode = mode := by
      cases mode <;> cases kmode
      · rfl
      · rcases hstop with ⟨-, rfl⟩ | ⟨-, rfl⟩ <;>
          simp [KeyMode.asByte, List.cons_lt_cons_iff] at hend
      · rw [← not_lt] at hstart
        simp [KeyMode.asByte, List.cons_lt_cons_iff] at hstart
      · rfl
    subst hmode
    use rfl
    apply UInt32.toNat_inj.mp
    apply le_antisymm
    · by_contra! hgt
      rcases hstop with ⟨heq, rfl⟩ | ⟨hnext, rfl⟩
      · omega
      · rcases Nat.lt_or_eq_of_le hgt with hgt | heq
        · exact lt_asymm hend (cons_be_lt hgt hklt _ _ _)
        · rw [← heq] at hend
          exact not_lt_of_ge (cons_be_le _ _ _) hend
    · by_contra! hgt
      exact not_lt_of_ge hstart (cons_be_lt hgt hlt _ _ _)
  · rintro ⟨rfl, rfl⟩
    use cons_be_le _ _ _
    rcases hstop with ⟨-, rfl⟩ | ⟨hnext, rfl⟩
    · apply List.Lex.rel
      cases kmode <;> decide
    · apply cons_be_lt (Nat.lt_succ_self _) hnext

/-- Two ranges with a byte string in common are one: the larger start is a key of both. -/
theorem keyspaceRange_inj {start' stop' : Bytes}
    (h : keyspaceRange mode keyspace = .ok (start, stop))
    (h' : keyspaceRange mode' keyspace' = .ok (start', stop')) (hle : start ≤ start')
    (hstart : start' ≤ key) (hstop : key < stop) :
  mode' = mode ∧ keyspace' = keyspace
  := by
  obtain ⟨hmax, hfirst, -⟩ := keyspaceRange_eq_ok h'
  have hdec := decodeKey_of_encodeKey (encodeKey_eq_ok.mpr ⟨hmax, hfirst⟩)
  apply (mem_keyspaceRange h hdec).mp ⟨hle, lt_of_le_of_lt hstart hstop⟩

/-- Physical keys keep the keyspaces apart. -/
theorem keyspaces_are_isolated (mode : KeyMode) (keyspace : KeyspaceId)
    (h : keyspace ≤ maxKeyspace) :
  (∀ userKey, ∃ key, encodeKey mode keyspace userKey = .ok key
      ∧ decodeKey key = .ok ⟨mode, keyspace, userKey⟩)
    ∧ (∀ {userKey userKey' key key'}, encodeKey mode keyspace userKey = .ok key →
        encodeKey mode keyspace userKey' = .ok key' → (key < key' ↔ userKey < userKey'))
    ∧ ∃ start stop, keyspaceRange mode keyspace = .ok (start, stop)
      ∧ (∀ {key k}, decodeKey key = .ok k →
          (start ≤ key ∧ key < stop ↔ k.mode = mode ∧ k.keyspace = keyspace))
      ∧ ∀ {mode' keyspace' start' stop'}, keyspaceRange mode' keyspace' = .ok (start', stop') →
          mode' ≠ mode ∨ keyspace' ≠ keyspace →
            ∀ key, ¬ ((start ≤ key ∧ key < stop) ∧ start' ≤ key ∧ key < stop')
  := by
  have henc (userKey : Bytes) : encodeKey mode keyspace userKey
      = .ok (mode.asByte :: (be 3 keyspace.toNat ++ userKey)) := encodeKey_eq_ok.mpr ⟨h, rfl⟩
  refine ⟨fun userKey => ⟨_, henc userKey, decodeKey_of_encodeKey (henc userKey)⟩, ?_, ?_⟩
  · intro userKey userKey' key key' hkey hkey'
    obtain ⟨-, rfl⟩ := encodeKey_eq_ok.mp hkey
    obtain ⟨-, rfl⟩ := encodeKey_eq_ok.mp hkey'
    have hmono : StrictMono fun userKey => mode.asByte :: (be 3 keyspace.toNat ++ userKey) :=
      fun _ _ hlt => .cons (List.append_left_lt hlt)
    exact hmono.lt_iff_lt
  · obtain ⟨start, stop, hrange⟩ := keyspaceRange_isOk mode h
    use start, stop, hrange, mem_keyspaceRange hrange
    intro mode' keyspace' start' stop' hrange' hne key ⟨hin, hin'⟩
    rw [← not_and_or] at hne
    rcases le_total start start' with hle | hle
    · apply hne (keyspaceRange_inj hrange hrange' hle hin'.1 hin.2)
    · obtain ⟨hmode, hkeyspace⟩ := keyspaceRange_inj hrange' hrange hle hin.1 hin'.2
      apply hne ⟨hmode.symm, hkeyspace.symm⟩

theorem keyspaces_are_isolated_last :
  (∃ start stop, keyspaceRange .raw maxKeyspace = .ok (start, stop) ∧ stop = [0x73])
    ∧ ∃ key, encodeKey .raw maxKeyspace [0xFF] = .ok key
  := by
  obtain ⟨henc, -, start, stop, hrange, -⟩ := keyspaces_are_isolated .raw maxKeyspace (by decide)
  obtain ⟨key, hkey, -⟩ := henc [0xFF]
  refine ⟨⟨start, stop, hrange, ?_⟩, key, hkey⟩
  cases hrange
  rfl

end Kv9
