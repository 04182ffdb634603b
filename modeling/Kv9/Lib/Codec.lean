import Mathlib

/-!
# Byte codecs

Numbers as bytes in either order, and parsers that consume a front part of a byte string.
A parser *reads* `bs` as `a` when, whatever follows, it consumes exactly `bs` and answers
`a`.  What a sequence of parsers reads is the concatenation of what they read one by one,
so that a decoder inverts an encoder as soon as each of its fields does.
-/

namespace Codec

open List

/-! ## Numbers -/

/-- The `w` low bytes of `n`, the least significant one first. -/
def le : ℕ → ℕ → List UInt8
  | 0, _ => []
  | w + 1, n => UInt8.ofNat n :: le w (n / 256)

/-- The number with the given bytes, the least significant one first. -/
def fromLe : List UInt8 → ℕ
  | [] => 0
  | b :: bs => b.toNat + 256 * fromLe bs

@[simp]
theorem length_le (w n : ℕ) :
  (le w n).length = w
  := by
  induction w generalizing n with
  | zero => rfl
  | succ w ih => rw [le, length_cons, ih]

theorem fromLe_le {w n : ℕ} (h : n < 256 ^ w) :
  fromLe (le w n) = n
  := by
  induction w generalizing n with
  | zero =>
    rw [pow_zero, Nat.lt_one_iff] at h
    rw [h]
    rfl
  | succ w ih =>
    have hdiv : n / 256 < 256 ^ w := by
      apply Nat.div_lt_of_lt_mul
      rw [← pow_succ']
      apply h
    rw [le, fromLe, ih hdiv]
    apply Nat.mod_add_div

theorem fromLe_lt (bs : List UInt8) :
  fromLe bs < 256 ^ bs.length
  := by
  induction bs with
  | nil => decide
  | cons b bs ih =>
    have hb := b.toNat_lt
    rw [fromLe, length_cons]
    omega

/-- Bytes are determined by their number and their count. -/
theorem le_fromLe (bs : List UInt8) :
  le bs.length (fromLe bs) = bs
  := by
  induction bs with
  | nil => rfl
  | cons b bs ih =>
    have hb : b.toNat < 256 := b.toNat_lt
    have hdiv : (b.toNat + 256 * fromLe bs) / 256 = fromLe bs := by omega
    rw [fromLe, length_cons, le, hdiv]
    congr 1
    apply UInt8.toNat_inj.mp
    rw [UInt8.toNat_ofNat']
    omega

/-- The eight bytes of a 64-bit number. -/
def le64 (x : UInt64) : List UInt8 := le 8 x.toNat

/-- The four bytes of a 32-bit number. -/
def le32 (x : UInt32) : List UInt8 := le 4 x.toNat

@[simp]
theorem length_le64 (x : UInt64) :
  (le64 x).length = 8
  := length_le ..

@[simp]
theorem length_le32 (x : UInt32) :
  (le32 x).length = 4
  := length_le ..

theorem fromLe_le64 (x : UInt64) :
  UInt64.ofNat (fromLe (le64 x)) = x
  := by
  rw [le64, fromLe_le x.toNat_lt]
  apply UInt64.ofNat_toNat

theorem fromLe_le32 (x : UInt32) :
  UInt32.ofNat (fromLe (le32 x)) = x
  := by
  rw [le32, fromLe_le x.toNat_lt]
  apply UInt32.ofNat_toNat

theorem le32_injective :
  Function.Injective le32
  := by
  intro x y h
  rw [← fromLe_le32 x, h, fromLe_le32]

variable {bs : List UInt8}

/-- Four bytes are those of their number. -/
theorem le32_fromLe (h : bs.length = 4) :
  le32 (UInt32.ofNat (fromLe bs)) = bs
  := by
  have hlt : fromLe bs < 2 ^ 32 := by
    have := fromLe_lt bs
    rw [h] at this
    exact this
  rw [le32, UInt32.toNat_ofNat_of_lt' hlt, ← h, le_fromLe]

/-- The `w` low bytes of `n`, the most significant one first. -/
def be (w n : ℕ) : List UInt8 := (le w n).reverse

/-- The number with the given bytes, the most significant one first. -/
def fromBe (bs : List UInt8) : ℕ := fromLe bs.reverse

@[simp]
theorem length_be (w n : ℕ) :
  (be w n).length = w
  := by
  rw [be, length_reverse, length_le]

theorem fromBe_be {w n : ℕ} (h : n < 256 ^ w) :
  fromBe (be w n) = n
  := by
  rw [fromBe, be, reverse_reverse, fromLe_le h]

/-- The eight bytes of a 64-bit number, the most significant one first. -/
def be64 (x : UInt64) : List UInt8 := be 8 x.toNat

/-- The 64-bit number with the given bytes, the most significant one first. -/
def fromBe64 (bs : List UInt8) : UInt64 := UInt64.ofNat (fromBe bs)

@[simp]
theorem length_be64 (x : UInt64) :
  (be64 x).length = 8
  := length_be ..

@[simp]
theorem fromBe64_be64 (x : UInt64) :
  fromBe64 (be64 x) = x
  := by
  rw [fromBe64, be64, fromBe_be x.toNat_lt]
  apply UInt64.ofNat_toNat

/-- The four bytes of a 32-bit number, the most significant one first. -/
def be32 (x : UInt32) : List UInt8 := be 4 x.toNat

/-- The 32-bit number with the given bytes, the most significant one first. -/
def fromBe32 (bs : List UInt8) : UInt32 := UInt32.ofNat (fromBe bs)

@[simp]
theorem length_be32 (x : UInt32) :
  (be32 x).length = 4
  := length_be ..

@[simp]
theorem fromBe32_be32 (x : UInt32) :
  fromBe32 (be32 x) = x
  := by
  rw [fromBe32, be32, fromBe_be x.toNat_lt]
  apply UInt32.ofNat_toNat

/-- Four bytes are those of their number. -/
theorem be32_fromBe32 (h : bs.length = 4) :
  be32 (fromBe32 bs) = bs
  := by
  change (le32 (UInt32.ofNat (fromLe bs.reverse))).reverse = bs
  rw [le32_fromLe (bs.length_reverse.trans h), reverse_reverse]

/-! ## Parsers -/

/-- A parser with errors `ε`: it consumes a front part of its input. -/
abbrev Parser (ε : Type) := StateT (List UInt8) (Except ε)

section

variable {ε α β : Type}

/-- Take `n` bytes. -/
def take (e : ε) (n : ℕ) : Parser ε (List UInt8) := fun bs =>
  if bs.length < n then .error e else .ok (bs.take n, bs.drop n)

/-- Take one byte. -/
def takeByte (e : ε) : Parser ε UInt8 := fun
  | [] => .error e
  | b :: bs => .ok (b, bs)

/-- Take a 32-bit number. -/
def take32 (e : ε) : Parser ε UInt32 := do
  let bs ← take e 4
  return UInt32.ofNat (fromLe bs)

/-- Take a 64-bit number. -/
def take64 (e : ε) : Parser ε UInt64 := do
  let bs ← take e 8
  return UInt64.ofNat (fromLe bs)

/-- Take a 32-bit number, the most significant byte first. -/
def takeBe32 (e : ε) : Parser ε UInt32 := do
  let bs ← take e 4
  return fromBe32 bs

/-- Take a 64-bit number, the most significant byte first. -/
def takeBe64 (e : ε) : Parser ε UInt64 := do
  let bs ← take e 8
  return fromBe64 bs

/-- Refuse the input unless the condition holds. -/
def guardOr (c : Prop) [Decidable c] (e : ε) : Parser ε Unit := fun bs =>
  if c then .ok ((), bs) else .error e

/-- Run a parser a number of times. -/
def times (p : Parser ε α) : ℕ → Parser ε (List α)
  | 0 => pure []
  | n + 1 => do
    let a ← p
    let as ← times p n
    return a :: as

/-- Run a parser, and answer also the bytes it consumes. -/
def consumed (p : Parser ε α) : Parser ε (α × List UInt8) := fun bs => do
  let (a, rest) ← p bs
  return ((a, bs.take (bs.length - rest.length)), rest)

/-- `p` consumes exactly `bs` and answers `a`, whatever follows. -/
def Reads (p : Parser ε α) (bs : List UInt8) (a : α) : Prop :=
  ∀ rest, p (bs ++ rest) = .ok (a, rest)

variable {p : Parser ε α} {a : α}

theorem Reads.run (h : Reads p bs a) :
  p bs = .ok (a, [])
  := by
  have := h []
  rwa [append_nil] at this

theorem reads_pure (a : α) :
  Reads (pure a : Parser ε α) [] a
  := fun _ => rfl

variable {f : α → Parser ε β}

variable {c : Prop} {cs : List UInt8} {n : ℕ} {e : ε}

theorem Reads.bind {b : β} (hp : Reads p bs a) (hf : Reads (f a) cs b) :
  Reads (p >>= f) (bs ++ cs) b
  := by
  intro rest
  change (p (bs ++ cs ++ rest) >>= fun r => f r.1 r.2) = _
  rw [append_assoc, hp]
  apply hf

/-- A sequence goes on with what its first part leaves. -/
theorem Reads.bind_apply (hp : Reads p bs a) (f : α → Parser ε β) (rest : List UInt8) :
  (p >>= f) (bs ++ rest) = f a rest
  := by
  change (p (bs ++ rest) >>= fun r => f r.1 r.2) = _
  rw [hp]
  rfl

/-- A parser whose last action consumes nothing. -/
theorem Reads.map {f : α → β} (hp : Reads p bs a) :
  Reads (p >>= fun a => pure (f a)) bs (f a)
  := by
  rw [← append_nil bs]
  apply hp.bind (reads_pure (f a))

theorem reads_take (e : ε) (h : bs.length = n) :
  Reads (take e n) bs bs
  := by
  intro rest
  rw [take, if_neg, take_left' h, drop_left' h]
  rw [length_append]
  omega

theorem reads_takeByte (e : ε) (b : UInt8) :
  Reads (takeByte e) [b] b
  := fun _ => rfl

theorem reads_take32 (e : ε) (x : UInt32) :
  Reads (take32 e) (le32 x) x
  := by
  have := (reads_take e (length_le32 x)).map (f := fun bs => UInt32.ofNat (fromLe bs))
  rwa [fromLe_le32] at this

theorem reads_take64 (e : ε) (x : UInt64) :
  Reads (take64 e) (le64 x) x
  := by
  have := (reads_take e (length_le64 x)).map (f := fun bs => UInt64.ofNat (fromLe bs))
  rwa [fromLe_le64] at this

theorem reads_takeBe32 (e : ε) (x : UInt32) :
  Reads (takeBe32 e) (be32 x) x
  := by
  have := (reads_take e (length_be32 x)).map (f := fromBe32)
  rwa [fromBe32_be32] at this

theorem reads_takeBe64 (e : ε) (x : UInt64) :
  Reads (takeBe64 e) (be64 x) x
  := by
  have := (reads_take e (length_be64 x)).map (f := fromBe64)
  rwa [fromBe64_be64] at this

theorem reads_guardOr [Decidable c] (e : ε) (h : c) :
  Reads (guardOr c e) [] ()
  := by
  intro rest
  rw [guardOr, if_pos h, nil_append]

theorem guardOr_bind_apply [Decidable c] (e : ε) (h : c) (f : Unit → Parser ε β) (bs : List UInt8) :
  (guardOr c e >>= f) bs = f () bs
  := (reads_guardOr e h).bind_apply f bs

variable {x : Except ε α}

/-- A fallible step that consumes nothing. -/
theorem reads_lift (h : x = .ok a) :
  Reads (liftM x : Parser ε α) [] a
  := by
  intro rest
  rw [h]
  rfl

theorem get_bind_apply (f : List UInt8 → Parser ε β) (bs : List UInt8) :
  ((get : Parser ε (List UInt8)) >>= f) bs = f bs bs
  := rfl

theorem lift_bind_apply (h : x = .ok a) (f : α → Parser ε β) (bs : List UInt8) :
  ((liftM x : Parser ε α) >>= f) bs = f a bs
  := (reads_lift h).bind_apply f bs

/-- Reading a list of items, each by its own bytes. -/
theorem reads_times {encode : α → List UInt8} {as : List α} (h : ∀ a ∈ as, Reads p (encode a) a) :
  Reads (times p as.length) (as.flatMap encode) as
  := by
  induction as with
  | nil => apply reads_pure
  | cons a as ih =>
    apply (h a (mem_cons_self ..)).bind
    apply (ih fun b hb => h b (mem_cons_of_mem a hb)).map

/-! ## What is accepted -/

variable {answer : β × List UInt8}

theorem bind_apply_eq_ok :
  (p >>= f) bs = .ok answer ↔ ∃ a rest, p bs = .ok (a, rest) ∧ f a rest = .ok answer
  := by
  change (p bs >>= fun r => f r.1 r.2) = _ ↔ _
  cases p bs with
  | error e => exact ⟨nofun, nofun⟩
  | ok r =>
    constructor
    · intro h
      use r.1, r.2, rfl, h
    · rintro ⟨a, rest, ⟨⟩, h⟩
      exact h

theorem guardOr_bind_eq_ok [Decidable c] {f : Unit → Parser ε β} :
  (guardOr c e >>= f) bs = .ok answer ↔ c ∧ f () bs = .ok answer
  := by
  by_cases h : c
  · rw [guardOr_bind_apply e h, and_iff_right h]
  · rw [bind_apply_eq_ok, guardOr]
    simp [h]

theorem lift_bind_eq_ok :
  ((liftM x : Parser ε α) >>= f) bs = .ok answer ↔ ∃ a, x = .ok a ∧ f a bs = .ok answer
  := by
  cases x with
  | error e => exact ⟨nofun, nofun⟩
  | ok a =>
    rw [lift_bind_apply rfl]
    simp

variable {rest : List UInt8}

theorem take_eq_ok :
  take e n bs = .ok (cs, rest) ↔ cs.length = n ∧ bs = cs ++ rest
  := by
  constructor
  · intro h
    rw [take] at h
    split_ifs at h with hshort
    cases h
    use length_take_of_le (not_lt.mp hshort), (take_append_drop n bs).symm
  · rintro ⟨hlength, rfl⟩
    apply reads_take e hlength

theorem takeByte_eq_ok {b : UInt8} :
  takeByte e bs = .ok (b, rest) ↔ bs = b :: rest
  := by
  cases bs with
  | nil => exact ⟨nofun, nofun⟩
  | cons => simp [takeByte]

theorem take32_eq_ok {x : UInt32} :
  take32 e bs = .ok (x, rest) ↔ bs = le32 x ++ rest
  := by
  constructor
  · intro h
    obtain ⟨cs, rest', htake, hx⟩ := bind_apply_eq_ok.mp h
    obtain ⟨hlength, hbs⟩ := take_eq_ok.mp htake
    cases hx
    rw [le32_fromLe hlength, hbs]
  · rintro rfl
    apply reads_take32

/-- What is accepted as a list of items is the bytes of the items. -/
theorem eq_of_times {encode : α → List UInt8} {as : List α}
    (hp : ∀ {bs a rest}, p bs = .ok (a, rest) → bs = encode a ++ rest)
    (h : times p n bs = .ok (as, rest)) :
  as.length = n ∧ bs = as.flatMap encode ++ rest
  := by
  induction n generalizing as bs with
  | zero =>
    cases h
    exact ⟨rfl, rfl⟩
  | succ n ih =>
    obtain ⟨a, more, ha, h⟩ := bind_apply_eq_ok.mp h
    obtain ⟨others, rest', hothers, h⟩ := bind_apply_eq_ok.mp h
    cases h
    obtain ⟨rfl, rfl⟩ := ih hothers
    use rfl
    rw [hp ha, flatMap_cons, append_assoc]

theorem consumed_eq_ok {answer : α × List UInt8} :
  consumed p bs = .ok (answer, rest)
    ↔ p bs = .ok (answer.1, rest) ∧ answer.2 = bs.take (bs.length - rest.length)
  := by
  rw [consumed]
  cases p bs with
  | error e => exact ⟨nofun, nofun⟩
  | ok r =>
    constructor
    · rintro ⟨⟩
      exact ⟨rfl, rfl⟩
    · obtain ⟨a, front⟩ := answer
      rintro ⟨⟨⟩, rfl⟩
      rfl

/-! ## More input -/

/-- What `p` answers does not depend on what follows the bytes it consumes. -/
def Extends (p : Parser ε α) : Prop :=
  ∀ bs a rest, p bs = .ok (a, rest) → ∀ more, p (bs ++ more) = .ok (a, rest ++ more)

instance extends_pure (a : α) : Fact (Extends (pure a : Parser ε α)) := by
  constructor
  intro bs _ _ h more
  cases h
  rfl

instance extends_throw (e : ε) : Fact (Extends (throw e : Parser ε α)) := ⟨nofun⟩

instance extends_bind [hp : Fact (Extends p)] [hf : ∀ a, Fact (Extends (f a))] :
    Fact (Extends (p >>= f)) := by
  constructor
  intro bs b rest h more
  change (p bs >>= fun r => f r.1 r.2) = _ at h
  change (p (bs ++ more) >>= fun r => f r.1 r.2) = _
  cases hread : p bs with
  | error e =>
    rw [hread] at h
    nomatch h
  | ok answer =>
    rw [hread] at h
    rw [hp.out bs answer.1 answer.2 hread more]
    apply (hf answer.1).out answer.2 b rest h

instance extends_take (e : ε) (n : ℕ) : Fact (Extends (take e n)) := by
  constructor
  intro bs a rest h more
  rw [take] at h ⊢
  split_ifs at h with hshort
  cases h
  have hlong : ¬ (bs ++ more).length < n := by
    rw [List.length_append]
    omega
  rw [if_neg hlong, List.take_append_of_le_length (not_lt.mp hshort),
    List.drop_append_of_le_length (not_lt.mp hshort)]

instance extends_takeByte (e : ε) : Fact (Extends (takeByte e)) := by
  constructor
  intro bs a rest h more
  cases bs with
  | nil => nomatch h
  | cons b bs =>
    cases h
    rfl

instance extends_takeBe32 (e : ε) : Fact (Extends (takeBe32 e)) := extends_bind

instance extends_takeBe64 (e : ε) : Fact (Extends (takeBe64 e)) := extends_bind

instance extends_guardOr (c : Prop) [Decidable c] (e : ε) : Fact (Extends (guardOr c e)) := by
  constructor
  intro bs a rest h more
  rw [guardOr] at h ⊢
  split_ifs at h ⊢
  cases h
  rfl

instance extends_lift (x : Except ε α) : Fact (Extends (liftM x : Parser ε α)) := by
  constructor
  intro bs a rest h more
  cases x with
  | error e => nomatch h
  | ok b =>
    cases h
    rfl

instance extends_ite {c : Prop} [Decidable c] {q : Parser ε α} [Fact (Extends p)]
    [Fact (Extends q)] : Fact (Extends (if c then p else q)) := by
  split_ifs
  · infer_instance
  · infer_instance

instance extends_dite {c : Prop} [Decidable c] {p : c → Parser ε α} {q : ¬ c → Parser ε α}
    [∀ h, Fact (Extends (p h))] [∀ h, Fact (Extends (q h))] :
    Fact (Extends (if h : c then p h else q h)) := by
  split_ifs
  · infer_instance
  · infer_instance

instance extends_times [Fact (Extends p)] (n : ℕ) : Fact (Extends (times p n)) := by
  induction n with
  | zero => apply extends_pure
  | succ n ih => apply extends_bind

/-- A front part of what `p` reads is read only if it is the whole. -/
theorem Extends.eq_nil_of_reads (hp : Extends p) {more : List UInt8} {b : α}
    (h : Reads p (bs ++ more) a) (hshort : p bs = .ok (b, [])) :
  more = []
  := by
  have hlong := hp bs b [] hshort more
  rw [h.run] at hlong
  exact (Prod.mk.inj (Except.ok.inj hlong)).2.symm

end

end Codec
