import Mathlib

/-!
# Fallible computations

Computations in `Except` that check a condition at a time.  A sequence of checks succeeds
exactly when every one of them does.
-/

namespace Except

variable {ε α β : Type*}

/-- Fail with `e` if the condition holds. -/
def failIf (c : Prop) [Decidable c] (e : ε) : Except ε Unit :=
  if c then .error e else .ok ()

@[simp]
theorem ok_bind {α β : Type _} (a : α) (f : α → Except ε β) :
  (Except.ok a >>= f) = f a
  := rfl

@[simp]
theorem error_bind {α β : Type _} (e : ε) (f : α → Except ε β) :
  (Except.error e >>= f) = .error e
  := rfl

@[simp]
theorem pure_eq_ok (a : α) :
  (pure a : Except ε α) = .ok a
  := rfl

variable {e : ε}

theorem mapError_eq_ok {ε' : Type _} {x : Except ε α} {f : ε → ε'} {a : α} :
  x.mapError f = .ok a ↔ x = .ok a
  := by
  cases x <;> simp [Except.mapError]

@[simp]
theorem throw_eq_error (e : ε) :
  (throw e : Except ε α) = .error e
  := rfl

/-- A sequence succeeds when its first part does, and its second on the answer. -/
theorem bind_eq_ok {α β : Type _} {x : Except ε α} {f : α → Except ε β} {b : β} :
  (x >>= f) = .ok b ↔ ∃ a, x = .ok a ∧ f a = .ok b
  := by
  cases x with
  | error e =>
    constructor
    · nofun
    · rintro ⟨a, ha, -⟩
      cases ha
  | ok a =>
    constructor
    · intro h
      use a, rfl, h
    · rintro ⟨a', ha, hb⟩
      cases ha
      exact hb

variable {c : Prop}

theorem failIf_eq_ok [Decidable c] {u : Unit} :
  failIf c e = .ok u ↔ ¬ c
  := by
  rw [failIf]
  split_ifs with hc
  · simp [hc]
  · simp [hc]

@[simp]
theorem failIf_pos [Decidable c] (h : c) :
  failIf c e = .error e
  := if_pos h

@[simp]
theorem failIf_neg [Decidable c] (h : ¬ c) :
  failIf c e = .ok ()
  := if_neg h

variable {γ δ : Type _} {xs : List γ}

/-- A loop of checks succeeds when every one of them does. -/
theorem forM_eq_ok {f : γ → Except ε PUnit} {u : PUnit} :
  xs.forM f = .ok u ↔ ∀ x ∈ xs, f x = .ok u
  := by
  induction xs with
  | nil => simp [pure, Except.pure]
  | cons x xs ih =>
    rw [List.forM, bind_eq_ok, List.forall_mem_cons]
    constructor
    · rintro ⟨_, hx, hxs⟩
      use hx, ih.mp hxs
    · rintro ⟨hx, hxs⟩
      use u, hx, ih.mpr hxs

/-- A loop of answers has one answer for each element. -/
theorem mapM_eq_ok {f : γ → Except ε δ} {ys : List δ} :
  xs.mapM f = .ok ys ↔ List.Forall₂ (fun x y => f x = .ok y) xs ys
  := by
  induction xs generalizing ys with
  | nil => simp [pure, Except.pure, eq_comm]
  | cons x xs ih =>
    rw [List.mapM_cons, bind_eq_ok, List.forall₂_cons_left_iff]
    constructor
    · rintro ⟨y, hy, h⟩
      rw [bind_eq_ok] at h
      obtain ⟨ys', hys, h⟩ := h
      cases h
      exact ⟨y, ys', hy, ih.mp hys, rfl⟩
    · rintro ⟨y, ys', hy, hys, rfl⟩
      use y, hy
      rw [ih.mpr hys]
      rfl

/-- Every answer of a loop is the answer to an element, and every element is answered. -/
theorem mem_of_mapM {f : γ → Except ε δ} {ys : List δ} (h : xs.mapM f = .ok ys) :
  (∀ y ∈ ys, ∃ x ∈ xs, f x = .ok y) ∧ ∀ x ∈ xs, ∃ y ∈ ys, f x = .ok y
  := by
  rw [mapM_eq_ok] at h
  induction h with
  | nil => exact ⟨nofun, nofun⟩
  | cons hxy _ ih =>
    simp only [List.mem_cons, forall_eq_or_imp, exists_eq_or_imp]
    exact ⟨⟨.inl hxy, fun y hy => .inr (ih.1 y hy)⟩, .inl hxy, fun x hx => .inr (ih.2 x hx)⟩

/-- What every step of a loop keeps, the loop keeps. -/
theorem foldlM_preserves {f : γ → δ → Except ε γ} {P : γ → Prop} {xs : List δ}
    (hstep : ∀ x ∈ xs, ∀ s s', P s → f s x = .ok s' → P s') {s s' : γ} (hs : P s)
    (h : xs.foldlM f s = .ok s') :
  P s'
  := by
  induction xs generalizing s with
  | nil =>
    cases h
    exact hs
  | cons x xs ih =>
    obtain ⟨mid, hmid, h⟩ := bind_eq_ok.mp h
    apply ih (fun y hy => hstep y (List.mem_cons_of_mem x hy)) _ h
    apply hstep x List.mem_cons_self s mid hs hmid

theorem foldlM_isOk {f : γ → δ → Except ε γ} {xs : List δ}
    (hstep : ∀ x ∈ xs, ∀ s, ∃ s', f s x = .ok s') (s : γ) :
  ∃ s', xs.foldlM f s = .ok s'
  := by
  induction xs generalizing s with
  | nil =>
    use s
    rfl
  | cons x xs ih =>
    obtain ⟨mid, hmid⟩ := hstep x List.mem_cons_self s
    obtain ⟨s', hs'⟩ := ih (fun y hy => hstep y (List.mem_cons_of_mem x hy)) mid
    use s'
    rw [List.foldlM_cons, hmid, ok_bind, hs']

end Except
