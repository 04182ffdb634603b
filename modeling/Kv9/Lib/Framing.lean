import Kv9.Lib.Codec

/-!
# Frames one after another

A log is a sequence of frames, read from the front until what is left is not a whole frame.
A parser of frames answers `none` for a frame that is torn.  It is *decided* when any other
answer does not depend on what follows.  Then a log cut at any length is read as its whole
frames, and a frame is torn wherever it is cut.
-/

namespace Framing

open Codec
open List hiding take

variable {ε α β σ : Type}

/-! ## Decided parsers -/

/-- Unless `p` answers that its input is torn, more input only adds to what it leaves. -/
def Decided (p : Parser (Option ε) α) : Prop :=
  ∀ bs more, p bs ≠ .error none → p (bs ++ more) = (p bs).map fun r => (r.1, r.2 ++ more)

theorem decided_pure (a : α) :
  Decided (pure a : Parser (Option ε) α)
  := fun _ _ _ => rfl

theorem decided_throw (e : Option ε) :
  Decided (throw e : Parser (Option ε) α)
  := fun _ _ _ => rfl

variable {p : Parser (Option ε) α} {a : α} {as : List α} {fuel : ℕ}

theorem Decided.bind {f : α → Parser (Option ε) β} (hp : Decided p) (hf : ∀ a, Decided (f a)) :
  Decided (p >>= f)
  := by
  intro bs more h
  change (p bs >>= fun r => f r.1 r.2) ≠ _ at h
  change (p (bs ++ more) >>= fun r => f r.1 r.2) = (p bs >>= fun r => f r.1 r.2).map _
  cases hread : p bs with
  | error e =>
    rw [hread] at h
    have hne : p bs ≠ .error none := by
      rw [hread]
      rintro ⟨⟩
      exact h rfl
    rw [hp bs more hne, hread]
    rfl
  | ok answer =>
    rw [hread] at h
    have hne : p bs ≠ .error none := by simp [hread]
    rw [hp bs more hne, hread]
    apply hf answer.1 answer.2 more h

theorem decided_take (n : ℕ) :
  Decided (take (none : Option ε) n)
  := by
  intro bs more h
  rw [take] at h ⊢
  split_ifs at h with hshort
  · exact absurd rfl h
  · have hlong : ¬ (bs ++ more).length < n := by
      rw [length_append]
      omega
    rw [if_neg hlong, take, if_neg hshort, take_append_of_le_length (not_lt.mp hshort),
      drop_append_of_le_length (not_lt.mp hshort)]
    rfl

theorem decided_ite {c : Prop} [Decidable c] {q : Parser (Option ε) α} (hp : Decided p)
    (hq : Decided q) :
  Decided (if c then p else q)
  := by
  split_ifs
  · apply hp
  · apply hq

theorem Decided.torn_of_cut (hp : Decided p)
    {bs more : List UInt8} (h : Reads p (bs ++ more) a) (hcut : more ≠ []) :
  p bs = .error none
  := by
  by_contra hne
  have hlong := hp bs more hne
  rw [h.run] at hlong
  cases hread : p bs with
  | error e =>
    rw [hread] at hlong
    nomatch hlong
  | ok answer =>
    rw [hread] at hlong
    have hrest := (Prod.mk.inj (Except.ok.inj hlong)).2
    exact hcut (append_eq_nil_iff.mp hrest.symm).2

/-! ## Reading a log -/

/-- Read frames until one is torn, and go through what they hold. -/
def readAll (p : Parser (Option ε) α) (step : σ → α → Except ε σ) :
    ℕ → σ → List UInt8 → Except ε σ
  | 0, s, _ => .ok s
  | fuel + 1, s, bs =>
    match p bs with
    | .error none => .ok s
    | .error (some e) => .error e
    | .ok (a, rest) => do
      let s ← step s a
      readAll p step fuel s rest

section

variable {p : Parser (Option ε) α} {step : σ → α → Except ε σ} {frame : α → List UInt8}

theorem readAll_append (has : ∀ a ∈ as, Reads p (frame a) a)
    (hfuel : as.length ≤ fuel) (s : σ) (rest : List UInt8) :
  readAll p step fuel s (as.flatMap frame ++ rest)
    = as.foldlM step s >>= fun s' => readAll p step (fuel - as.length) s' rest
  := by
  induction as generalizing fuel s with
  | nil => rfl
  | cons a as ih =>
    cases fuel with
    | zero => simp at hfuel
    | succ fuel =>
      rw [flatMap_cons, append_assoc, readAll, has a mem_cons_self, foldlM_cons, bind_assoc,
        length_cons, Nat.add_sub_add_right]
      apply bind_congr
      apply ih (fun b hb => has b (mem_cons_of_mem a hb))
      simpa using hfuel

/-- Whole frames in front of a torn one are all gone through. -/
theorem readAll_frames (has : ∀ a ∈ as, Reads p (frame a) a)
    {tail : List UInt8} (htail : p tail = .error none) (hfuel : as.length ≤ fuel) (s : σ) :
  readAll p step fuel s (as.flatMap frame ++ tail) = as.foldlM step s
  := by
  have hstop : ∀ n s', readAll p step n s' tail = .ok s' := by
    rintro (_ | n) s'
    · rfl
    · rw [readAll, htail]
  simp only [readAll_append has hfuel, hstop]
  apply bind_pure

/-- A refusal of what a whole frame holds ends the reading, whatever follows. -/
theorem readAll_error (has : ∀ a ∈ as, Reads p (frame a) a) (hfuel : as.length ≤ fuel) {s : σ}
    {e : ε} (h : as.foldlM step s = .error e) (rest : List UInt8) :
  readAll p step fuel s (as.flatMap frame ++ rest) = .error e
  := by
  rw [readAll_append has hfuel, h]
  rfl

end

/-! ## Cuts -/

/-- The longest prefix of whole frames within `n` bytes. -/
def wholeWithin (frame : α → List UInt8) : ℕ → List α → List α
  | _, [] => []
  | n, a :: as =>
    if (frame a).length ≤ n then a :: wholeWithin frame (n - (frame a).length) as else []

theorem wholeWithin_prefix (frame : α → List UInt8) (n : ℕ) (as : List α) :
  wholeWithin frame n as <+: as
  := by
  induction as generalizing n with
  | nil => apply prefix_rfl
  | cons a as ih =>
    rw [wholeWithin]
    split_ifs
    · apply prefix_cons_inj a |>.mpr (ih _)
    · apply nil_prefix

/-- A log cut at any length is its whole frames and a cut of the next one. -/
theorem take_flatMap (frame : α → List UInt8) (n : ℕ) (as : List α) :
  ∃ tail, (as.flatMap frame).take n = (wholeWithin frame n as).flatMap frame ++ tail
    ∧ (tail = [] ∨ ∃ a ∈ as, ∃ more, more ≠ [] ∧ frame a = tail ++ more)
  := by
  induction as generalizing n with
  | nil => exact ⟨[], by simp [wholeWithin], .inl rfl⟩
  | cons a as ih =>
    rw [wholeWithin, flatMap_cons, take_append]
    split_ifs with hwhole
    · obtain ⟨tail, htake, hcase⟩ := ih (n - (frame a).length)
      use tail
      constructor
      · rw [htake, take_of_length_le hwhole, flatMap_cons, append_assoc]
      · rcases hcase with hnil | ⟨b, hb, hcut⟩
        · apply Or.inl hnil
        · right
          use b, mem_cons_of_mem a hb
    · rw [not_le] at hwhole
      use (frame a).take n
      constructor
      · have hnone : n - (frame a).length = 0 := by omega
        simp [hnone]
      · right
        use a, mem_cons_self, (frame a).drop n
        constructor
        · rw [Ne, drop_eq_nil_iff]
          omega
        · rw [take_append_drop]

theorem wholeWithin_of_le {frame : α → List UInt8} {n : ℕ} (h : (as.flatMap frame).length ≤ n) :
  wholeWithin frame n as = as
  := by
  induction as generalizing n with
  | nil => rfl
  | cons a as ih =>
    rw [flatMap_cons, length_append] at h
    rw [wholeWithin, if_pos (by omega), ih (by omega)]

/-! ## Changes -/

/-- The two lists differ in one place. -/
inductive Changed : List α → List α → Prop
  | head {a b : α} (h : a ≠ b) (as : List α) : Changed (a :: as) (b :: as)
  | tail (a : α) {as bs : List α} (h : Changed as bs) : Changed (a :: as) (a :: bs)

section

variable {as bs cs : List α}

theorem Changed.length_eq (h : Changed as bs) :
  bs.length = as.length
  := by
  induction h with
  | head => rfl
  | tail a _ ih => rw [length_cons, length_cons, ih]

theorem Changed.ne (h : Changed as bs) :
  as ≠ bs
  := by
  induction h with
  | head hab => simp [hab]
  | tail a _ ih => simp [ih]

theorem Changed.append_left (h : Changed as bs) (cs : List α) :
  Changed (cs ++ as) (cs ++ bs)
  := by
  induction cs with
  | nil => apply h
  | cons c cs ih => apply ih.tail

/-- A list in two parts changes in one of them. -/
theorem Changed.of_append (h : Changed (as ++ bs) cs) :
  (∃ as', Changed as as' ∧ cs = as' ++ bs) ∨ ∃ bs', Changed bs bs' ∧ cs = as ++ bs'
  := by
  induction as generalizing cs with
  | nil => exact .inr ⟨cs, h, rfl⟩
  | cons a as ih =>
    cases h with
    | head hne => exact .inl ⟨_, .head hne as, rfl⟩
    | tail _ h =>
      rcases ih h with ⟨as', has, rfl⟩ | ⟨bs', hbs, rfl⟩
      · exact .inl ⟨_, has.tail a, rfl⟩
      · exact .inr ⟨bs', hbs, rfl⟩

theorem changed_set {i : ℕ} (h : as.set i a ≠ as) :
  Changed as (as.set i a)
  := by
  induction as generalizing i with
  | nil => contradiction
  | cons b as ih =>
    cases i with
    | zero =>
      apply Changed.head
      rintro rfl
      apply h rfl
    | succ i =>
      apply (ih _).tail
      intro heq
      apply h
      rw [set_cons_succ, heq]

end

end Framing
