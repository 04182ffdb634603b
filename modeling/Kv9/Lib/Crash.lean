import Mathlib

/-!
# Crashes

A file has the contents its readers see, and the contents a crash may leave of it: those it
had when it was last synced, and those with any front part of what was written since.

A procedure acts on the disk by a list of effects.  It can be cut off between two effects
or within one of them, and a property that must survive crashes has to hold at every cut.
-/

namespace Crash

/-- A file, with the contents a crash may leave. -/
structure File where
  data : List UInt8
  may : Set (List UInt8)
  data_mem : data ∈ may

namespace File

variable {f : File} {bs : List UInt8}

/-- A file that no crash changes. -/
def settled (bs : List UInt8) : File := ⟨bs, {bs}, rfl⟩

/-- Write at the end. -/
def append (f : File) (bs : List UInt8) : File where
  data := f.data ++ bs
  may := f.may ∪ {cs | ∃ p, p <+: bs ∧ cs = f.data ++ p}
  data_mem := .inr ⟨bs, List.prefix_rfl, rfl⟩

/-- Cut to a length. -/
def setLen (f : File) (n : ℕ) : File where
  data := f.data.take n
  may := f.may ∪ {cs | ∃ m, n ≤ m ∧ cs = f.data.take m}
  data_mem := .inr ⟨n, le_rfl, rfl⟩

/-- Make the contents durable. -/
def sync (f : File) : File := settled f.data

@[simp]
theorem data_settled (bs : List UInt8) :
  (settled bs).data = bs
  := rfl

@[simp]
theorem sync_settled (bs : List UInt8) :
  (settled bs).sync = settled bs
  := rfl

@[simp]
theorem mem_may_settled {cs : List UInt8} :
  cs ∈ (settled bs).may ↔ cs = bs
  := Iff.rfl

@[simp]
theorem data_append (f : File) (bs : List UInt8) :
  (f.append bs).data = f.data ++ bs
  := rfl

@[simp]
theorem data_setLen (f : File) (n : ℕ) :
  (f.setLen n).data = f.data.take n
  := rfl

/-- The file holds `base` and the front part `pre` of `whole`; a crash leaves `base` and some
front part of `whole`. -/
structure Within (f : File) (base whole pre : List UInt8) : Prop where
  data : f.data = base ++ pre
  may : ∀ bs ∈ f.may, ∃ part, part <+: whole ∧ bs = base ++ part

variable {base whole pre : List UInt8}

theorem Within.le (h : f.Within base whole pre) :
  pre <+: whole
  := by
  obtain ⟨part, hpart, heq⟩ := h.may f.data f.data_mem
  rw [h.data] at heq
  rwa [List.append_cancel_left heq]

theorem within_settled (base whole : List UInt8) :
  (settled base).Within base whole []
  := by
  use (List.append_nil base).symm
  rintro bs rfl
  use [], List.nil_prefix, (List.append_nil _).symm

/-- Writing the next part of `whole`. -/
theorem Within.append (h : f.Within base whole pre) (hle : pre ++ bs <+: whole) :
  (f.append bs).Within base whole (pre ++ bs)
  := by
  use by rw [data_append, h.data, List.append_assoc]
  rintro cs (hcs | ⟨part, hpart, rfl⟩)
  · apply h.may cs hcs
  · refine ⟨pre ++ part, ?_, by rw [h.data, List.append_assoc]⟩
    apply List.IsPrefix.trans _ hle
    apply (List.prefix_append_right_inj pre).mpr hpart

/-- Cutting off what follows the base. -/
theorem Within.setLen (h : f.Within base whole pre) :
  (f.setLen base.length).Within base whole []
  := by
  use by rw [data_setLen, h.data, List.take_left, List.append_nil]
  rintro cs (hcs | ⟨m, hm, rfl⟩)
  · apply h.may cs hcs
  · use pre.take (m - base.length), (List.take_prefix _ _).trans h.le
    rw [h.data, List.take_append, List.take_of_length_le hm]

theorem Within.sync_eq (h : f.Within base whole pre) :
  f.sync = settled (base ++ pre)
  := by
  rw [File.sync, h.data]

theorem Within.sync (h : f.Within base whole pre) :
  f.sync.Within base whole pre
  := by
  rw [h.sync_eq]
  use rfl
  rintro bs rfl
  exact ⟨pre, h.le, rfl⟩

end File

/-! ## Cutting off a list of effects -/

section

variable {δ ω : Type*} {apply : δ → ω → δ} {part : ω → ω → Prop} {P Q : δ → Prop} {d : δ}
  {e : ω} {es es' : List ω}

/-- `Cut part es ds`: the effects `es` were cut off after `ds`.  The last effect of `ds` may be
a part of an effect of `es`. -/
inductive Cut (part : ω → ω → Prop) : List ω → List ω → Prop
  | stop (es : List ω) : Cut part es []
  | part {e e' : ω} (es : List ω) : part e e' → Cut part (e :: es) [e']
  | step {e : ω} {es ds : List ω} : Cut part es ds → Cut part (e :: es) (e :: ds)

/-- `P` holds wherever the effects are cut off. -/
def Safe (apply : δ → ω → δ) (part : ω → ω → Prop) (P : δ → Prop) (d : δ) (es : List ω) : Prop :=
  ∀ ds, Cut part es ds → P (ds.foldl apply d)

theorem Safe.start (h : Safe apply part P d es) :
  P d
  := h [] (.stop es)

theorem Safe.imp (h : Safe apply part P d es) (hPQ : ∀ d, P d → Q d) :
  Safe apply part Q d es
  := fun ds hcut => hPQ _ (h ds hcut)

theorem safe_nil (h : P d) :
  Safe apply part P d []
  := by
  intro ds hcut
  cases hcut
  apply h

theorem safe_cons (hd : P d) (hpart : ∀ e', part e e' → P (apply d e'))
    (h : Safe apply part P (apply d e) es) :
  Safe apply part P d (e :: es)
  := by
  intro ds hcut
  cases hcut with
  | stop => apply hd
  | part _ he => apply hpart _ he
  | step hcut => apply h _ hcut

theorem Safe.append (h : Safe apply part P d es) (h' : Safe apply part P (es.foldl apply d) es') :
  Safe apply part P d (es ++ es')
  := by
  induction es generalizing d with
  | nil => apply h'
  | cons e es ih =>
    apply safe_cons h.start
    · intro e' he
      apply h [e'] (.part es he)
    · apply ih _ h'
      intro ds hcut
      apply h (e :: ds) hcut.step

/-- The effects may be cut off after the last one. -/
theorem Safe.finish (h : Safe apply part P d es) :
  P (es.foldl apply d)
  := by
  have hcut : ∀ es : List ω, Cut part es es := by
    intro es
    induction es with
    | nil => apply Cut.stop
    | cons e es ih => apply Cut.step ih
  apply h es (hcut es)

end

end Crash
