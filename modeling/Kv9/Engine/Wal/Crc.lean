import Kv9.Lib.Framing
import Kv9.Engine.Wal.Batch

/-!
# Checksums detect changed bytes

The checksum of the log is computed eight bytes at a time from tables.  It is the one that is
computed a byte at a time, because a step is linear in exclusive or, and the one that is
defined a bit at a time.  A step is also injective, so that the checksums of two byte strings that
differ in one byte differ.
-/

namespace Kv9.Engine.Wal

open Codec Framing Function

/-- The checksum state after a byte that was added to it. -/
def crcStep (crc : UInt32) : UInt32 := (crc >>> 8) ^^^ crcTable crc.toUInt8

/-- The checksum state after a byte. -/
def crcByte (crc : UInt32) (b : UInt8) : UInt32 := crcStep (crc ^^^ b.toUInt32)

/-! ## Steps are linear -/

theorem and_xor (a x y : UInt32) :
  a &&& (x ^^^ y) = (a &&& x) ^^^ (a &&& y)
  := by
  apply UInt32.toBitVec_inj.mp
  ext i
  simp only [UInt32.toBitVec_and, UInt32.toBitVec_xor, BitVec.getElem_and, BitVec.getElem_xor]
  cases a.toBitVec[i] <;> simp

theorem and_one (x : UInt32) :
  x &&& 1 = 0 ∨ x &&& 1 = 1
  := by
  have hbit : (x &&& 1).toNat = x.toNat % 2 := by
    apply Nat.and_one_is_mod
  rw [← UInt32.toNat_inj, ← UInt32.toNat_inj, hbit]
  apply Nat.mod_two_eq_zero_or_one

theorem crcBit_xor (x y : UInt32) :
  crcBit (x ^^^ y) = crcBit x ^^^ crcBit y
  := by
  have hmask : 0 - ((x ^^^ y) &&& 1) = (0 - (x &&& 1)) ^^^ (0 - (y &&& 1)) := by
    rw [UInt32.and_comm, and_xor, UInt32.and_comm, UInt32.and_comm 1]
    rcases and_one x with hx | hx <;> rcases and_one y with hy | hy <;> rw [hx, hy] <;> decide
  rw [crcBit, crcBit, crcBit, hmask, and_xor, UInt32.shiftRight_xor]
  ac_rfl

theorem iterate_xor {f : UInt32 → UInt32} (hf : ∀ x y, f (x ^^^ y) = f x ^^^ f y) (n : ℕ)
    (x y : UInt32) :
  f^[n] (x ^^^ y) = f^[n] x ^^^ f^[n] y
  := by
  induction n generalizing x y with
  | zero => rfl
  | succ n ih => rw [iterate_succ_apply, iterate_succ_apply,
      iterate_succ_apply, hf, ih]

theorem crcTable_xor (a b : UInt8) :
  crcTable (a ^^^ b) = crcTable a ^^^ crcTable b
  := by
  rw [crcTable, UInt8.toUInt32_xor]
  apply iterate_xor crcBit_xor

theorem crcStep_xor (x y : UInt32) :
  crcStep (x ^^^ y) = crcStep x ^^^ crcStep y
  := by
  rw [crcStep, crcStep, crcStep, UInt32.toUInt8_xor, crcTable_xor, UInt32.shiftRight_xor]
  ac_rfl

theorem toNat_shiftRight_eight (x : UInt32) :
  (x >>> 8).toNat = x.toNat / 256
  := by
  simp [Nat.shiftRight_eq_div_pow]

theorem toUInt32_shiftRight_eight (b : UInt8) :
  b.toUInt32 >>> 8 = 0
  := by
  rw [← UInt32.toNat_inj, toNat_shiftRight_eight]
  apply Nat.div_eq_of_lt b.toNat_lt

theorem crcStep_toUInt32 (b : UInt8) :
  crcStep b.toUInt32 = crcTable b
  := by
  rw [crcStep, toUInt32_shiftRight_eight, UInt32.zero_xor, UInt8.toUInt8_toUInt32]

/-- A step takes the low byte out of the state. -/
theorem crcStep_eq (x : UInt32) :
  crcStep x = (x >>> 8) ^^^ crcStep x.toUInt8.toUInt32
  := by
  rw [crcStep_toUInt32, crcStep]

theorem iterate_crcStep (n : ℕ) (x : UInt32) :
  crcStep^[n + 1] x = crcStep^[n] (x >>> 8) ^^^ crcStep^[n + 1] x.toUInt8.toUInt32
  := by
  rw [iterate_succ_apply, crcStep_eq, iterate_xor crcStep_xor]
  rfl

/-! ## Steps are injective -/

/-- The table has no entry with a zero top byte but the first one. -/
theorem eq_zero_of_crcTable {d : UInt8} (h : crcTable d >>> 24 = 0) :
  d = 0
  := by
  have hall : ∀ n < 256, crcTable (UInt8.ofNat n) >>> 24 = 0 → n = 0 := by decide +kernel
  rw [← UInt8.ofNat_toNat (x := d)] at h
  apply UInt8.toNat_inj.mp (hall d.toNat d.toNat_lt h)

theorem crcStep_injective :
  Function.Injective crcStep
  := by
  intro x y h
  have hzero : crcStep (x ^^^ y) = 0 := by
    rw [crcStep_xor, h, UInt32.xor_self]
  generalize hd : x ^^^ y = d at hzero
  have htable : d >>> 8 = crcTable d.toUInt8 := UInt32.xor_eq_zero_iff.mp hzero
  have htop : (d >>> 8) >>> 24 = 0 := by
    have := d.toNat_lt
    rw [← UInt32.toNat_inj, UInt32.toNat_shiftRight, toNat_shiftRight_eight,
      Nat.shiftRight_eq_div_pow]
    apply Nat.div_eq_of_lt
    change d.toNat / 256 < 16777216
    omega
  have hlow : d.toUInt8 = 0 := eq_zero_of_crcTable (htable ▸ htop)
  have hhigh : d >>> 8 = 0 := by
    rw [htable, hlow]
    decide
  rw [← UInt8.toNat_inj] at hlow
  rw [← UInt32.toNat_inj, toNat_shiftRight_eight] at hhigh
  apply UInt32.xor_eq_zero_iff.mp
  rw [hd, ← UInt32.toNat_inj]
  change d.toNat % 256 = 0 at hlow
  change d.toNat / 256 = 0 at hhigh
  change d.toNat = 0
  omega

/-! ## A byte at a time -/

theorem crcSlicing_eq (n : ℕ) (b : UInt8) :
  crcSlicing n b = crcStep^[n + 1] b.toUInt32
  := by
  induction n with
  | zero => rw [crcSlicing, iterate_one, crcStep_toUInt32]
  | succ n ih =>
    rw [crcSlicing, ih, iterate_succ_apply' _ (n + 1)]
    rfl

/-- Four steps take the four bytes of the state out of it. -/
theorem iterate_crcStep_four (n : ℕ) (x : UInt32) :
  crcStep^[n + 4] x = crcSlicing (n + 3) x.toUInt8 ^^^ crcSlicing (n + 2) (x >>> 8).toUInt8
    ^^^ crcSlicing (n + 1) (x >>> 16).toUInt8 ^^^ crcSlicing n (x >>> 24).toUInt8
  := by
  have hzero : crcStep^[n] (x >>> 24 >>> 8) = 0 := by
    have hshift : x >>> 24 >>> 8 = 0 := by
      have := x.toNat_lt
      rw [← UInt32.toNat_inj, toNat_shiftRight_eight, UInt32.toNat_shiftRight,
        Nat.shiftRight_eq_div_pow]
      change x.toNat / 16777216 / 256 = 0
      omega
    rw [hshift]
    apply iterate_fixed (by decide)
  have htwo : x >>> 8 >>> 8 = x >>> 16 := by
    rfl
  have hthree : x >>> 16 >>> 8 = x >>> 24 := by
    rfl
  rw [iterate_crcStep, iterate_crcStep, iterate_crcStep,
    iterate_crcStep, htwo, hthree, hzero, crcSlicing_eq, crcSlicing_eq, crcSlicing_eq,
    crcSlicing_eq, UInt32.zero_xor]
  ac_rfl

theorem word_bytes (b0 b1 b2 b3 : UInt8) :
  let word := UInt32.ofNat (fromLe [b0, b1, b2, b3])
  word.toUInt8 = b0 ∧ (word >>> 8).toUInt8 = b1 ∧ (word >>> 16).toUInt8 = b2
    ∧ (word >>> 24).toUInt8 = b3
  := by
  have h0 := b0.toNat_lt
  have h1 := b1.toNat_lt
  have h2 := b2.toNat_lt
  have h3 := b3.toNat_lt
  have hword : (UInt32.ofNat (fromLe [b0, b1, b2, b3])).toNat
      = b0.toNat + 256 * (b1.toNat + 256 * (b2.toNat + 256 * b3.toNat)) := by
    simp only [fromLe, UInt32.toNat_ofNat']
    omega
  simp only [← UInt8.toNat_inj, UInt32.toNat_toUInt8, UInt32.toNat_shiftRight, hword,
    Nat.shiftRight_eq_div_pow, UInt32.reduceToNat, Nat.reduceMod, Nat.reducePow]
  omega

theorem crcUpdate_eq (crc : UInt32) (bs : Bytes) :
  crcUpdate crc bs = bs.foldl crcByte crc
  := by
  fun_induction crcUpdate crc bs with
  | case1 crc b0 b1 b2 b3 b4 b5 b6 b7 rest low next ih =>
    rw [ih]
    simp only [List.foldl_cons, crcByte]
    obtain ⟨h0, h1, h2, h3⟩ := word_bytes b0 b1 b2 b3
    have hword := iterate_crcStep_four 4 (UInt32.ofNat (fromLe [b0, b1, b2, b3]))
    rw [h0, h1, h2, h3] at hword
    have hnext : next = crcStep^[8] low ^^^ crcSlicing 3 b4 ^^^ crcSlicing 2 b5
        ^^^ crcSlicing 1 b6 ^^^ crcSlicing 0 b7 := by
      rw [iterate_crcStep_four]
    rw [hnext]
    simp only [crcStep_xor, low, iterate_xor crcStep_xor, hword, crcSlicing_eq]
    simp only [iterate_succ_apply', iterate_zero, id]
    ac_rfl
  | case2 crc rest =>
    congr 1
    funext crc b
    rw [crcByte, crcStep_xor, crcStep_toUInt32, crcTable_xor, crcStep]
    ac_rfl

theorem crc32Parts_eq (parts : List Bytes) :
  crc32Parts parts = ~~~ parts.flatten.foldl crcByte 0xFFFFFFFF
  := by
  have hupdate : crcUpdate = List.foldl crcByte := by
    funext crc bs
    apply crcUpdate_eq
  rw [crc32Parts, List.foldl_flatten, hupdate]

/-! ## A bit at a time -/

/-- The checksum state after a bit of the message: the polynomial is added when the bit that is
shifted out and the bit of the message differ. -/
def crcShift (crc : UInt32) (bit : Bool) : UInt32 :=
  if (crc &&& 1 == 1) != bit then (crc >>> 1) ^^^ 0xEDB88320 else crc >>> 1

/-- The bits of a byte, the lowest one first. -/
def bitsOf (b : UInt8) : List Bool := (List.range 8).map b.toNat.testBit

/-- The checksum by its definition. -/
def crc32Bitwise (bytes : Bytes) : UInt32 :=
  ~~~ (bytes.flatMap bitsOf).foldl crcShift 0xFFFFFFFF

theorem crcShift_eq (crc : UInt32) (bit : Bool) :
  crcShift crc bit = crcBit crc ^^^ crcBit bit.toUInt32
  := by
  have hone : crcBit 1 = 0xEDB88320 := by decide
  have hzero : crcBit 0 = 0 := by decide
  rcases and_one crc with hcrc | hcrc
  all_goals
    rw [crcShift, crcBit, hcrc]
    cases bit
  all_goals simp [hone, hzero, Bool.toUInt32]

theorem foldl_crcShift (bits : List Bool) (crc : UInt32) :
  bits.foldl crcShift crc = crcBit^[bits.length] crc ^^^ bits.foldl crcShift 0
  := by
  induction bits generalizing crc with
  | nil => rw [List.foldl_nil, List.foldl_nil, UInt32.xor_zero]; rfl
  | cons bit bits ih =>
    have hzero : crcBit 0 = 0 := by decide
    rw [List.foldl_cons, List.foldl_cons, ih, ih (crcShift 0 bit), crcShift_eq, crcShift_eq, hzero,
      UInt32.zero_xor, iterate_xor crcBit_xor, List.length_cons, iterate_succ_apply]
    ac_rfl

theorem foldl_bitsOf (b : UInt8) (crc : UInt32) :
  (bitsOf b).foldl crcShift crc = crcBit^[8] (crc ^^^ b.toUInt32)
  := by
  have hall : ∀ n < 256, (bitsOf (UInt8.ofNat n)).foldl crcShift 0
      = crcBit^[8] (UInt8.ofNat n).toUInt32 := by decide +kernel
  have hbyte := hall b.toNat b.toNat_lt
  rw [UInt8.ofNat_toNat] at hbyte
  rw [foldl_crcShift, hbyte, iterate_xor crcBit_xor]
  rfl

/-- Steps that shift out zeros only shift. -/
theorem iterate_crcBit_of_dvd (n : ℕ) (x : UInt32) (h : 2 ^ n ∣ x.toNat) :
  (crcBit^[n] x).toNat = x.toNat / 2 ^ n
  := by
  induction n generalizing x with
  | zero => rw [iterate_zero, pow_zero, Nat.div_one]; rfl
  | succ n ih =>
    have heven : x &&& 1 = 0 := by
      rw [← UInt32.toNat_inj]
      change x.toNat &&& 1 = 0
      rw [Nat.and_one_is_mod]
      apply Nat.mod_eq_zero_of_dvd (dvd_trans (dvd_pow_self 2 n.succ_ne_zero) h)
    have hshift : (crcBit x).toNat = x.toNat / 2 := by
      rw [crcBit, heven]
      simp [Nat.shiftRight_eq_div_pow]
    rw [iterate_succ_apply, ih, hshift, Nat.div_div_eq_div_mul, pow_succ']
    rw [hshift]
    apply Nat.dvd_div_of_mul_dvd
    rwa [← pow_succ']

/-- A step is a byte of steps of the polynomial. -/
theorem crcStep_eq_iterate (x : UInt32) :
  crcStep x = crcBit^[8] x
  := by
  have hdvd : 2 ^ 8 ∣ (x ^^^ x.toUInt8.toUInt32).toNat := by
    have hlow : x.toUInt8.toUInt32.toNat = x.toNat % 2 ^ 8 := rfl
    apply Nat.dvd_of_mod_eq_zero
    rw [UInt32.toNat_xor, hlow, Nat.xor_mod_two_pow, Nat.mod_mod, Nat.xor_self]
  have hhigh : crcBit^[8] (x ^^^ x.toUInt8.toUInt32) = (x ^^^ x.toUInt8.toUInt32) >>> 8 := by
    rw [← UInt32.toNat_inj, toNat_shiftRight_eight]
    apply iterate_crcBit_of_dvd 8 _ hdvd
  calc
    crcStep x = (x ^^^ x.toUInt8.toUInt32) >>> 8 ^^^ crcTable x.toUInt8 := by
      rw [crcStep, UInt32.shiftRight_xor, toUInt32_shiftRight_eight, UInt32.xor_zero]
    _ = crcBit^[8] (x ^^^ x.toUInt8.toUInt32) ^^^ crcBit^[8] x.toUInt8.toUInt32 := by
      rw [hhigh]
      rfl
    _ = crcBit^[8] x := by
      rw [← iterate_xor crcBit_xor, UInt32.xor_assoc, UInt32.xor_self, UInt32.xor_zero]

theorem crc32Parts_eq_bitwise (parts : List Bytes) :
  crc32Parts parts = crc32Bitwise parts.flatten
  := by
  have hbyte : crcByte = fun crc b => (bitsOf b).foldl crcShift crc := by
    funext crc b
    rw [foldl_bitsOf, crcByte, crcStep_eq_iterate]
  rw [crc32Parts_eq, crc32Bitwise, List.foldl_flatMap, hbyte]

/-! ## Changed bytes -/

theorem foldl_crcByte_injective (bs : Bytes) :
  Function.Injective fun crc => bs.foldl crcByte crc
  := by
  induction bs with
  | nil => apply injective_id
  | cons b bs ih =>
    intro x y h
    apply (UInt32.xor_left_inj _).mp
    apply crcStep_injective (ih h)

theorem foldl_crcByte_ne {bs bs' : Bytes} (h : Changed bs bs') (crc : UInt32) :
  bs.foldl crcByte crc ≠ bs'.foldl crcByte crc
  := by
  induction h generalizing crc with
  | head hne bs =>
    intro heq
    apply hne
    apply UInt8.toUInt32_inj.mp
    apply (UInt32.xor_right_inj _).mp
    apply crcStep_injective (foldl_crcByte_injective bs heq)
  | tail b _ ih => apply ih

/-- One changed byte changes the checksum. -/
theorem crc32Parts_ne {parts parts' : List Bytes} (h : Changed parts.flatten parts'.flatten) :
  crc32Parts parts ≠ crc32Parts parts'
  := by
  rw [crc32Parts_eq, crc32Parts_eq]
  intro heq
  apply foldl_crcByte_ne h _ (UInt32.not_inj.mp heq)

end Kv9.Engine.Wal
