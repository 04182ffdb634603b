import Mathlib

/-!
# Threads over a shared state

Threads act on a state they share, one at a time and in any order, while an environment
changes the state on its own.  A property of the shared state together with a property of each
thread holds throughout when every action and every step of the environment preserves the
property of the state, the property of the thread that acts, and those of all others; the same
goes for a property of every two threads.
-/

universe u v w

namespace Threads

open Function

variable {σ : Type u} {τ : Type v} {ι : Type w} [DecidableEq ι]
  {env : σ → σ → Prop} {act : σ → τ → σ → τ → Prop}

/-- A step of the environment or of one thread. -/
inductive Step (env : σ → σ → Prop) (act : σ → τ → σ → τ → Prop) :
    σ × (ι → τ) → σ × (ι → τ) → Prop where
  | env {s s' : σ} (ts : ι → τ) (h : env s s') : Step env act (s, ts) (s', ts)
  | act {s s' : σ} {ts : ι → τ} (i : ι) {t : τ} (h : act s (ts i) s' t) :
      Step env act (s, ts) (s', Function.update ts i t)

theorem Step.only {s s' : σ} {t t' : τ} (h : act s t s' t') :
  Step env act (s, fun _ : Unit => t) (s', fun _ => t')
  := by
  have hstep : Step env act (s, fun _ : Unit => t) (s', Function.update (fun _ => t) () t') :=
    .act () h
  rwa [show Function.update (fun _ : Unit => t) () t' = fun _ => t' from
    funext fun _ => update_self ..] at hstep

/-- Any number of steps. -/
def Steps (env : σ → σ → Prop) (act : σ → τ → σ → τ → Prop) :
    σ × (ι → τ) → σ × (ι → τ) → Prop :=
  Relation.ReflTransGen (Step env act)

/-- What relates the shared states before and after every step relates those of a run. -/
theorem Steps.shared {R : σ → σ → Prop} (hrefl : ∀ s, R s s)
    (htrans : ∀ {s s' s''}, R s s' → R s' s'' → R s s'') (henv : ∀ {s s'}, env s s' → R s s')
    (hact : ∀ {s s' t t'}, act s t s' t' → R s s') {c c' : σ × (ι → τ)} (h : Steps env act c c') :
  R c.1 c'.1
  := by
  induction h with
  | refl => apply hrefl
  | tail _ hstep ih =>
    apply htrans ih
    cases hstep with
    | env ts h => exact henv h
    | act i h => exact hact h

/-- The conditions under which `I` holds of the shared state, `J` of every thread and `K` of
every two threads. -/
structure Keeps (env : σ → σ → Prop) (act : σ → τ → σ → τ → Prop) (I : σ → Prop)
    (J : σ → τ → Prop) (K : τ → τ → Prop) : Prop where
  env_shared : ∀ {s s'}, I s → env s s' → I s'
  env_thread : ∀ {s s' t}, I s → J s t → env s s' → J s' t
  act_shared : ∀ {s s' t t'}, I s → J s t → act s t s' t' → I s'
  act_own : ∀ {s s' t t'}, I s → J s t → act s t s' t' → J s' t'
  act_other : ∀ {s s' t t' u}, I s → J s t → J s u → K t u → act s t s' t' → J s' u
  act_pair : ∀ {s s' t t' u}, I s → J s t → J s u → K t u → act s t s' t' → K t' u
  symm : ∀ {t u}, K t u → K u t

variable {I : σ → Prop} {J : σ → τ → Prop} {K : τ → τ → Prop} {c c' : σ × (ι → τ)}

/-- What `Keeps` preserves. -/
def Kept (I : σ → Prop) (J : σ → τ → Prop) (K : τ → τ → Prop) (c : σ × (ι → τ)) : Prop :=
  I c.1 ∧ (∀ i, J c.1 (c.2 i)) ∧ Pairwise fun i j => K (c.2 i) (c.2 j)

theorem Keeps.pairs (hk : Keeps env act I J K) {s s' : σ} {ts : ι → τ} {k : ι} {t : τ}
    (h : act s (ts k) s' t) (hc : Kept I J K (s, ts)) :
  Pairwise fun i j => K (Function.update ts k t i) (Function.update ts k t j)
  := by
  obtain ⟨hI, hJ, hK⟩ := hc
  intro i j hij
  by_cases hi : i = k
  · subst hi
    rw [update_self, update_of_ne hij.symm]
    apply hk.act_pair hI (hJ i) (hJ j) (hK hij) h
  · rw [update_of_ne hi]
    by_cases hj : j = k
    · subst hj
      rw [update_self]
      apply hk.symm
      apply hk.act_pair hI (hJ j) (hJ i) (hK hij.symm) h
    · rw [update_of_ne hj]
      exact hK hij

theorem Keeps.step (hk : Keeps env act I J K) (h : Step env act c c') (hc : Kept I J K c) :
  Kept I J K c'
  := by
  have hkept := hc
  obtain ⟨hI, hJ, hK⟩ := hc
  cases h with
  | env ts h => exact ⟨hk.env_shared hI h, fun i => hk.env_thread hI (hJ i) h, hK⟩
  | act i h =>
    refine ⟨hk.act_shared hI (hJ i) h, ?_, hk.pairs h hkept⟩
    intro j
    dsimp only
    by_cases hj : j = i
    · subst hj
      rw [update_self]
      apply hk.act_own hI (hJ j) h
    · rw [update_of_ne hj]
      apply hk.act_other hI (hJ i) (hJ j) (hK (Ne.symm hj)) h

/-- What every step preserves holds throughout. -/
theorem Keeps.steps (hk : Keeps env act I J K) (h : Steps env act c c') (hc : Kept I J K c) :
  Kept I J K c'
  := by
  induction h with
  | refl => exact hc
  | tail _ hstep ih => apply hk.step hstep ih

end Threads
