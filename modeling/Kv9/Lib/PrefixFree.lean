import Kv9.Lib.Codec

/-!
# Prefix-free codes

A code is prefix-free when no word of it is a proper beginning of another, so that a word can
be told from what follows it.  Words of one length form a prefix-free code, and so do the words
a reader takes off the front.  A sequence of words, each from the code its place calls for, is
then determined by its concatenation.

A code keeps an order when a smaller value has a smaller word, whatever follows the two.  Sequences
of values are then ordered as the concatenations of their words are.
-/

namespace Codec

open List

variable {α β ι : Type*}

/-- A word of the code can be told from what follows it. -/
def PrefixFree (P : List α → Prop) : Prop :=
  ∀ ⦃c d r s⦄, P c → P d → c ++ r = d ++ s → c = d ∧ r = s

theorem prefixFree_of_length {P : List α → Prop} {n : ℕ} (h : ∀ c, P c → c.length = n) :
  PrefixFree P
  := by
  intro c d r s hc hd heq
  apply append_inj heq
  rw [h c hc, h d hd]

theorem prefixFree_of_read {encode : β → List α} (read : List α → Option (β × List α))
    (h : ∀ b rest, read (encode b ++ rest) = some (b, rest)) :
  PrefixFree fun c => ∃ b, c = encode b
  := by
  rintro c d r s ⟨b, rfl⟩ ⟨b', rfl⟩ heq
  have hread := h b r
  rw [heq, h] at hread
  cases hread
  exact ⟨rfl, rfl⟩

/-- Sequences of words can be told from what follows them. -/
theorem PrefixFree.flatten {P : ι → List α → Prop} (h : ∀ i, PrefixFree (P i)) {is : List ι}
    {cs ds : List (List α)} {r s : List α} (hcs : List.Forall₂ P is cs)
    (hds : List.Forall₂ P is ds) (heq : cs.flatten ++ r = ds.flatten ++ s) :
  cs = ds ∧ r = s
  := by
  induction hcs generalizing ds with
  | nil =>
    cases hds
    use rfl, heq
  | @cons i c is cs hc hcs ih =>
    cases hds with
    | @cons _ d _ ds hd hds =>
      rw [flatten_cons, flatten_cons, append_assoc, append_assoc] at heq
      obtain ⟨rfl, hrest⟩ := h i hc hd heq
      obtain ⟨rfl, rfl⟩ := ih hds hrest
      exact ⟨rfl, rfl⟩

/-! ## Codes that keep an order -/

section Order

variable [LinearOrder α]

/-- A smaller value has a smaller word, whatever follows the two. -/
def KeepsOrder (lt : β → β → Prop) (encode : β → List α) : Prop :=
  ∀ ⦃a b⦄, lt a b → ∀ r s, encode a ++ r < encode b ++ s

variable {lt : β → β → Prop} {encode : β → List α} {kind : β → ι}

variable {as bs : List β}

/-- Sequences of values of the same kinds are comparable when values of one kind are. -/
theorem lex_trichotomy (htri : ∀ a b, kind a = kind b → lt a b ∨ a = b ∨ lt b a)
    (hkind : as.map kind = bs.map kind) :
  List.Lex lt as bs ∨ as = bs ∨ List.Lex lt bs as
  := by
  induction as generalizing bs with
  | nil =>
    right
    left
    rw [map_nil, eq_comm, map_eq_nil_iff] at hkind
    rw [hkind]
  | cons a as ih =>
    cases bs with
    | nil => nomatch hkind
    | cons b bs =>
      rw [map_cons, map_cons, List.cons.injEq] at hkind
      rcases htri a b hkind.1 with hlt | rfl | hlt
      · left
        apply List.Lex.rel hlt
      · rcases ih hkind.2 with hlex | rfl | hlex
        · left
          apply List.Lex.cons hlex
        · right
          left
          rfl
        · right
          right
          apply List.Lex.cons hlex
      · right
        right
        apply List.Lex.rel hlt

/-- A smaller sequence of values of the same kinds has a smaller concatenation, whatever follows
the two. -/
theorem KeepsOrder.flatMap (h : KeepsOrder lt encode) (hkind : as.map kind = bs.map kind)
    (hlex : List.Lex lt as bs) (r s : List α) :
  as.flatMap encode ++ r < bs.flatMap encode ++ s
  := by
  induction hlex with
  | nil => nomatch hkind
  | rel hlt =>
    rw [flatMap_cons, flatMap_cons, append_assoc, append_assoc]
    apply h hlt
  | cons _ ih =>
    rw [map_cons, map_cons, List.cons.injEq] at hkind
    rw [flatMap_cons, flatMap_cons, append_assoc, append_assoc]
    apply List.Lex.append_left
    apply ih hkind.2

/-- The concatenations are ordered as the sequences are. -/
theorem KeepsOrder.flatMap_lt_iff (h : KeepsOrder lt encode)
    (htri : ∀ a b, kind a = kind b → lt a b ∨ a = b ∨ lt b a) (hkind : as.map kind = bs.map kind) :
  as.flatMap encode < bs.flatMap encode ↔ List.Lex lt as bs
  := by
  constructor
  · intro hlt
    rcases lex_trichotomy htri hkind with hlex | rfl | hlex
    · exact hlex
    · apply absurd hlt (lt_irrefl _)
    · have hgt := h.flatMap hkind.symm hlex [] []
      rw [append_nil, append_nil] at hgt
      apply absurd hlt (lt_asymm hgt)
  · intro hlex
    rw [← append_nil (as.flatMap encode), ← append_nil (bs.flatMap encode)]
    apply h.flatMap hkind hlex

/-- The concatenations are equal only if the sequences are. -/
theorem KeepsOrder.flatMap_inj (h : KeepsOrder lt encode)
    (htri : ∀ a b, kind a = kind b → lt a b ∨ a = b ∨ lt b a) (hkind : as.map kind = bs.map kind) :
  as.flatMap encode = bs.flatMap encode ↔ as = bs
  := by
  constructor
  · intro heq
    rcases lex_trichotomy htri hkind with hlex | has | hlex
    · apply absurd heq ((h.flatMap_lt_iff htri hkind).mpr hlex).ne
    · exact has
    · apply absurd heq ((h.flatMap_lt_iff htri hkind.symm).mpr hlex).ne'
  · rintro rfl
    rfl

end Order

/-! ## Numbers, the most significant byte first -/

theorem be_succ (w n : ℕ) :
  be (w + 1) n = be w (n / 256) ++ [UInt8.ofNat n]
  := by
  rw [be, le, reverse_cons, be]

/-- The numbers of a number of bytes are ordered as their bytes are. -/
theorem be_append_lt {w m n : ℕ} (hlt : m < n) (hn : n < 256 ^ w) (r s : List UInt8) :
  be w m ++ r < be w n ++ s
  := by
  induction w generalizing m n r s with
  | zero => omega
  | succ w ih =>
    rw [be_succ, be_succ, append_assoc, append_assoc]
    have hdiv : n / 256 < 256 ^ w := by
      rw [Nat.div_lt_iff_lt_mul (by decide)]
      exact hn
    rcases Nat.lt_or_eq_of_le (Nat.div_le_div_right hlt.le : m / 256 ≤ n / 256) with hd | hd
    · apply ih hd hdiv
    · rw [hd]
      apply List.Lex.append_left
      apply List.Lex.rel
      rw [UInt8.lt_iff_toNat_lt, UInt8.toNat_ofNat', UInt8.toNat_ofNat']
      omega

end Codec
