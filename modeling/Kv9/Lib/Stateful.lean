import Mathlib

/-!
# Computations that change a state and may fail

A computation over a state `σ` answers or fails, and keeps the changes it has made either way.
`wp m Q s` says that `m`, started in `s`, ends with an outcome and a state that satisfy `Q`.  The
rules below take a computation apart step by step.
-/

/-- A computation that changes a state and may fail. -/
abbrev Stateful (ε σ α : Type) := ExceptT ε (StateM σ) α

namespace Stateful

variable {ε σ α β : Type} {s : σ}

/-- The outcome of a computation, and the state it leaves. -/
def run (m : Stateful ε σ α) (s : σ) : Except ε α × σ := ExceptT.run m s

/-- The outcome of a computation, as an answer. -/
def attempt {ε' : Type} (m : Stateful ε σ α) : Stateful ε' σ (Except ε α) :=
  ExceptT.mk fun s => (.ok (m.run s).1, (m.run s).2)

/-- A computation on a part of the state. -/
def zoom {τ : Type} (part : σ → τ) (put : τ → σ → σ) (m : Stateful ε τ α) : Stateful ε σ α :=
  ExceptT.mk fun s => ((m.run (part s)).1, put (m.run (part s)).2 s)

/-- A computation with its failures renamed. -/
def mapError {ε' : Type} (f : ε → ε') (m : Stateful ε σ α) : Stateful ε' σ α :=
  ExceptT.mk fun s => ((m.run s).1.mapError f, (m.run s).2)

/-- The computation ends with an outcome and a state that satisfy `Q`. -/
def wp (m : Stateful ε σ α) (Q : Except ε α → σ → Prop) (s : σ) : Prop := Q (m.run s).1 (m.run s).2

variable {Q : Except ε β → σ → Prop} {P P' : Except ε α → σ → Prop}

@[simp]
theorem wp_pure (a : β) :
  wp (pure a : Stateful ε σ β) Q s ↔ Q (.ok a) s
  := Iff.rfl

@[simp]
theorem wp_throw (e : ε) :
  wp (throw e : Stateful ε σ β) Q s ↔ Q (.error e) s
  := Iff.rfl

@[simp]
theorem wp_get {Q : Except ε σ → σ → Prop} :
  wp (get : Stateful ε σ σ) Q s ↔ Q (.ok s) s
  := Iff.rfl

@[simp]
theorem wp_set (s' : σ) {Q : Except ε PUnit → σ → Prop} :
  wp (set s' : Stateful ε σ PUnit) Q s ↔ Q (.ok ⟨⟩) s'
  := Iff.rfl

@[simp]
theorem wp_modify (f : σ → σ) {Q : Except ε PUnit → σ → Prop} :
  wp (modify f : Stateful ε σ PUnit) Q s ↔ Q (.ok ⟨⟩) (f s)
  := Iff.rfl

variable {m : Stateful ε σ α}

@[simp]
theorem wp_attempt {ε' : Type} {Q : Except ε' (Except ε α) → σ → Prop} :
  wp (attempt m) Q s ↔ wp m (fun r s' => Q (.ok r) s') s
  := Iff.rfl

@[simp]
theorem wp_zoom {τ : Type} {part : σ → τ} {put : τ → σ → σ} {m : Stateful ε τ β} :
  wp (zoom part put m) Q s ↔ wp m (fun r t => Q r (put t s)) (part s)
  := Iff.rfl

@[simp]
theorem wp_mapError {ε' : Type} {f : ε → ε'} {Q : Except ε' α → σ → Prop} :
  wp (mapError f m) Q s ↔ wp m (fun r s' => Q (r.mapError f) s') s
  := Iff.rfl

@[simp]
theorem wp_ofExcept {x : Except ε β} :
  wp (ofExcept x : Stateful ε σ β) Q s ↔ Q x s
  := by
  cases x <;> rfl

@[simp]
theorem wp_ite {c : Prop} [Decidable c] {m m' : Stateful ε σ β} :
  wp (if c then m else m') Q s ↔ (c → wp m Q s) ∧ (¬ c → wp m' Q s)
  := by
  by_cases h : c <;> simp [h]

variable {f : α → Stateful ε σ β}

/-- A sequence goes on from the answer of its first part, or ends where that fails. -/
theorem wp_bind :
  wp (m >>= f) Q s
    ↔ wp m (fun r s' => match r with
      | .ok a => wp (f a) Q s'
      | .error e => Q (.error e) s') s
  := by
  change Q (ExceptT.run (m >>= f) s).1 (ExceptT.run (m >>= f) s).2 ↔ _
  rw [ExceptT.run_bind]
  change Q (StateT.bind (ExceptT.run m) _ s).1 (StateT.bind (ExceptT.run m) _ s).2 ↔ _
  simp only [wp, run, StateT.bind]
  cases hrun : ExceptT.run m s with
  | mk r s' =>
    cases r with
    | ok a => rfl
    | error e => rfl

theorem wp_throw_bind (e : ε) :
  wp ((throw e : Stateful ε σ α) >>= f) Q s ↔ Q (.error e) s
  := Iff.rfl

theorem wp_get_bind {f : σ → Stateful ε σ β} :
  wp (get >>= f) Q s ↔ wp (f s) Q s
  := Iff.rfl

theorem wp_set_bind (s' : σ) {f : PUnit → Stateful ε σ β} :
  wp (set s' >>= f) Q s ↔ wp (f ⟨⟩) Q s'
  := Iff.rfl

theorem wp_mono (h : wp m P s) (himp : ∀ r s', P r s' → P' r s') :
  wp m P' s
  := himp _ _ h

/-- A sequence, through what is known after its first part. -/
theorem wp_bind_of (h : wp m P s) (hok : ∀ a s', P (.ok a) s' → wp (f a) Q s')
    (herror : ∀ e s', P (.error e) s' → Q (.error e) s') :
  wp (m >>= f) Q s
  := by
  rw [wp_bind]
  apply wp_mono h
  rintro (e | a) s' hs'
  · apply herror e s' hs'
  · apply hok a s' hs'

/-- A sequence that begins with a check: the check may fail, or the sequence goes on. -/
theorem wp_check {x : Except ε α} (herror : ∀ e, Q (.error e) s)
    (hok : ∀ a, x = .ok a → wp (f a) Q s) :
  wp (ofExcept x >>= f) Q s
  := by
  cases x with
  | error e => apply herror
  | ok a => apply hok a rfl

/-- What holds after an answer, and what holds after a failure. -/
def ends (answer : α → σ → Prop) (failure : σ → Prop) : Except ε α → σ → Prop
  | .ok a, s => answer a s
  | .error _, s => failure s

@[simp]
theorem ends_ok {answer : α → σ → Prop} {failure : σ → Prop} (a : α) :
  ends (ε := ε) answer failure (.ok a) s ↔ answer a s
  := Iff.rfl

@[simp]
theorem ends_error {answer : α → σ → Prop} {failure : σ → Prop} (e : ε) :
  ends answer failure (.error e) s ↔ failure s
  := Iff.rfl

end Stateful
