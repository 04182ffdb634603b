import Kv9.Lib.Fallible
import Kv9.Common.LogBudget.Accounts

/-!
# The log budget is balanced

The counters of the budget agree with what they count after every turn: each turn books what
it changes.  For the turns on a source it is enough to know how a change of one source changes
a total over all of them.
-/

namespace Kv9.LogBudget

open OrderedMap Option State

variable {Path : Type} [LinearOrder Path]

/-- The bytes of a write that a path is still charged for. -/
def OpenWrite.due (path : Path) (o : OpenWrite Path) : ℕ :=
  if o.path = path then o.outstanding else 0

/-- The counters agree with what they count. -/
structure World.Balanced (w : World Path) : Prop where
  files : w.state.files = total Source.bytes w.state.sources
  files_lt : w.state.files < 2 ^ 64
  reserved : w.state.reserved = total Source.charges w.state.sources + total id w.claims
  reserved_lt : w.state.reserved < 2 ^ 64
  uncertain : w.state.uncertain = total (fun s => s.uncertain.toNat) w.state.sources
  writing : w.state.writing = total OpenWrite.bytes w.writes
  rewriteReserved : w.state.rewrite.reservedBytes = total id w.rewrites
  rewriteActive : w.state.rewrite.active = total (fun _ => 1) w.rewrites
  started : ∀ (name : ℕ) (s : Sampling), w.samplings[name]? = some s →
    s.started ≤ w.state.writeStarted
  outstanding : ∀ path, total (OpenWrite.due path) w.writes ≤ (w.state.source path).bytes

/-! ## Arithmetic -/

variable {a b n write bytes claim sampling : ℕ} {s : State Path} {claims : OrderedMap ℕ ℕ}
  {t : Turn Path}

theorem checkedAdd_eq_some {c : ℕ} :
  checkedAdd a b = some c ↔ c = a + b ∧ a + b < 2 ^ 64
  := by
  rw [checkedAdd]
  split_ifs with h
  · simp only [Option.some.injEq, h, and_true]
    apply eq_comm
  · simp only [h, and_false]

theorem minus_eq_ok (h : b ≤ a) :
  minus a b = .ok (a - b)
  := if_pos h

theorem foldlM_checkedAdd {α : Type} {es : List (α × ℕ)} {next : ℕ}
    (h : es.foldlM (fun n e => checkedAdd n e.2) n = some next) :
  next = n + (es.map Prod.snd).sum
  := by
  induction es generalizing n with
  | nil => simpa [eq_comm] using h
  | cons e es ih =>
    rw [List.foldlM_cons, bind_eq_bind, bind_eq_some_iff] at h
    obtain ⟨n', hn', h⟩ := h
    rw [ih h, (checkedAdd_eq_some.mp hn').1, List.map_cons, List.sum_cons]
    omega

/-! ## Changes of one source -/

namespace State

variable {s : State Path} {path path' : Path} {src : Source}

theorem weight_source (f : Source → ℕ) (hf : f .default = 0) :
  weight f s.sources path = f (s.source path)
  := by
  rw [weight, source]
  cases s.sources[path]? with
  | none => rw [elim_none, getD_none, hf]
  | some src => rfl

/-- What the change of a source changes in a total. -/
theorem total_setSource (f : Source → ℕ) (hf : f .default = 0) :
  total f (s.setSource path src).sources + f (s.source path) = total f s.sources + f src
  := by
  rw [setSource, total_insert, total_eq_weight_add f s.sources path, weight_source f hf]
  omega

theorem source_setSource :
  (s.setSource path src).source path' = if path = path' then src else s.source path'
  := by
  rw [source, setSource, getElem?_insert]
  split_ifs with h
  · rfl
  · rfl

theorem source_eq (h : s.sources[path]? = some src) :
  s.source path = src
  := by
  rw [source, h, getD_some]

theorem le_total_source (f : Source → ℕ) (hf : f .default = 0) :
  f (s.source path) ≤ total f s.sources
  := by
  rw [← weight_source f hf]
  apply weight_le_total

end State

theorem charges_default :
  Source.default.charges = 0
  := by
  rw [Source.charges, Source.default, total_empty]

/-- What the change of a charge changes in the charges of a source. -/
theorem charges_insert (src : Source) (p : Position) (n : ℕ) :
  Source.charges { src with pending := src.pending.insert p n } + (src.pending[p]?).getD 0
    = src.charges + n
  := by
  have hweight : weight id src.pending p = (src.pending[p]?).getD 0 := by
    rw [weight]
    cases src.pending[p]? with
    | none => rfl
    | some n => rfl
  rw [Source.charges, Source.charges, total_insert, total_eq_weight_add id src.pending p]
  simp only [id]
  omega

/-- Taking out charges and adding them up loses nothing. -/
theorem total_popThrough (index fuel : ℕ) (pending : OrderedMap Position ℕ) (released : ℕ) :
  total id (State.popThrough index fuel pending released).1
      + (State.popThrough index fuel pending released).2
    = total id pending + released
  := by
  induction fuel generalizing pending released with
  | zero => rfl
  | succ fuel ih =>
    rw [State.popThrough]
    cases hhead : pending.toList.head? with
    | none => rfl
    | some e =>
      obtain ⟨k, n⟩ := e
      simp only
      split_ifs
      · have hk : pending[k]? = some n := mem_toList.mp (List.mem_of_head? hhead)
        rw [ih, total_eq_weight_add id pending, weight_eq_of_some hk]
        simp only [id]
        omega
      · rfl

/-- The charges from an index on, and those before it. -/
theorem total_suffix (pending : OrderedMap Position ℕ) (boundary : Position) :
  total id (pending.filter fun k _ => decide (k < boundary))
      + ((range pending (.included boundary) .unbounded).map Prod.snd).sum
    = total id pending
  := by
  rw [← total_filter_add id pending fun e => decide (e.1 < boundary), range]
  simp [Bound.below, Bound.above, ← not_lt]

/-! ## Turns -/

namespace World

variable {w : World Path}

/-- A turn of a balanced budget keeps it balanced; it may find a source missing, but no
counter falls below zero. -/
def Keeps (result : Except Fault (World Path × Reply)) : Prop :=
  match result with
  | .ok (w, _) => w.Balanced
  | .error fault => fault = .unregistered

/-- A change of one source, of the claims and of the writes, with the counters after it. -/
structure Booked (w : World Path) (path : Path) (src : Source) (s : State Path)
    (claims : OrderedMap ℕ ℕ) (writes : OrderedMap ℕ (OpenWrite Path)) : Prop where
  sources : s.sources = (w.state.setSource path src).sources
  files : s.files + (w.state.source path).bytes = w.state.files + src.bytes
  files_lt : s.files < 2 ^ 64
  reserved : s.reserved + (w.state.source path).charges + total id w.claims
    = w.state.reserved + src.charges + total id claims
  reserved_lt : s.reserved < 2 ^ 64
  uncertain : s.uncertain + (w.state.source path).uncertain.toNat
    = w.state.uncertain + src.uncertain.toNat
  writing : s.writing = total OpenWrite.bytes writes
  rewrite : s.rewrite = w.state.rewrite
  started : w.state.writeStarted ≤ s.writeStarted
  due : total (OpenWrite.due path) writes ≤ src.bytes
  others : ∀ path', path' ≠ path →
    total (OpenWrite.due path') writes ≤ total (OpenWrite.due path') w.writes

theorem Balanced.book (h : w.Balanced) {path : Path} {src : Source} {writes : OrderedMap ℕ (OpenWrite Path)}
    (hbooked : Booked w path src s claims writes) :
  Balanced { w with state := s, claims := claims, writes := writes }
  := by
  have hbytes := @total_setSource _ _ w.state path src Source.bytes rfl
  have hcharges := @total_setSource _ _ w.state path src Source.charges charges_default
  have hflags := @total_setSource _ _ w.state path src (fun s => s.uncertain.toNat) rfl
  constructor
  · change s.files = total Source.bytes s.sources
    have := h.files
    have := hbooked.files
    rw [hbooked.sources]
    omega
  · exact hbooked.files_lt
  · change s.reserved = total Source.charges s.sources + total id claims
    have := h.reserved
    have := hbooked.reserved
    rw [hbooked.sources]
    omega
  · exact hbooked.reserved_lt
  · change s.uncertain = total (fun s => s.uncertain.toNat) s.sources
    have := h.uncertain
    have := hbooked.uncertain
    rw [hbooked.sources]
    omega
  · exact hbooked.writing
  · exact (congrArg Rewrite.reservedBytes hbooked.rewrite).trans h.rewriteReserved
  · exact (congrArg Rewrite.active hbooked.rewrite).trans h.rewriteActive
  · intro name sampling hname
    exact (h.started name sampling hname).trans hbooked.started
  · intro path'
    have hsource : s.source path' = (w.state.setSource path src).source path' := by
      rw [State.source, hbooked.sources]
      rfl
    rw [hsource, source_setSource]
    split_ifs with hpath
    · rw [← hpath]
      exact hbooked.due
    · exact (hbooked.others path' (Ne.symm hpath)).trans (h.outstanding path')

/-- A source that is entered without a charge changes nothing. -/
theorem Balanced.booked (h : w.Balanced) (path : Path) :
  Booked w path (w.state.source path) (w.state.setSource path (w.state.source path)) w.claims
    w.writes
  where
    sources := rfl
    files := rfl
    files_lt := h.files_lt
    reserved := rfl
    reserved_lt := h.reserved_lt
    uncertain := rfl
    writing := h.writing
    rewrite := rfl
    started := le_rfl
    due := h.outstanding path
    others := fun _ _ => le_rfl

/-! ### Files -/

theorem Balanced.grow (h : w.Balanced) (path : Path) (bytes : ℕ) :
  Keeps (w.turn (.grow path bytes))
  := by
  simp only [turn, Keeps, State.grow]
  cases hfiles : checkedAdd w.state.files bytes with
  | none => exact h
  | some files =>
    cases hsum : checkedAdd (w.state.source path).bytes bytes with
    | none => exact h.book (h.booked path)
    | some sum =>
      obtain ⟨rfl, hlt⟩ := checkedAdd_eq_some.mp hfiles
      obtain ⟨rfl, -⟩ := checkedAdd_eq_some.mp hsum
      exact h.book { h.booked path with
        sources := rfl
        files := by
          change w.state.files + bytes + (w.state.source path).bytes
            = w.state.files + ((w.state.source path).bytes + bytes)
          omega
        files_lt := hlt
        due := (h.outstanding path).trans (Nat.le_add_right ..) }

theorem Balanced.beginWrite (h : w.Balanced) (hnew : w.writes[write]? = none)
    (path : Path) (bytes : ℕ) :
  Keeps (w.turn (.beginWrite write path bytes))
  := by
  simp only [turn, Keeps, State.beginWrite]
  cases hfiles : checkedAdd w.state.files bytes with
  | none => exact h
  | some files =>
  cases hwriting : checkedAdd w.state.writing bytes with
  | none => exact h
  | some writing =>
  by_cases hstarted : w.state.writeStarted + bytes < 2 ^ 128
  · cases hsum : checkedAdd (w.state.source path).bytes bytes with
    | none =>
      simp only [if_pos hstarted, reduceCtorEq, if_false]
      exact h.book (h.booked path)
    | some sum =>
      obtain ⟨rfl, hlt⟩ := checkedAdd_eq_some.mp hfiles
      obtain ⟨rfl, -⟩ := checkedAdd_eq_some.mp hwriting
      obtain ⟨rfl, -⟩ := checkedAdd_eq_some.mp hsum
      simp only [if_pos hstarted, if_true]
      exact h.book { h.booked path with
        sources := rfl
        files := by
          change w.state.files + bytes + (w.state.source path).bytes
            = w.state.files + ((w.state.source path).bytes + bytes)
          omega
        files_lt := hlt
        writing := by
          rw [total_insert_of_none _ hnew, ← h.writing]
          apply Nat.add_comm
        started := Nat.le_add_right ..
        due := by
          rw [total_insert_of_none _ hnew, OpenWrite.due, if_pos rfl, Nat.add_comm]
          apply Nat.add_le_add_right (h.outstanding path)
        others := by
          intro path' hpath
          rw [total_insert_of_none _ hnew, OpenWrite.due, if_neg (Ne.symm hpath), Nat.zero_add] }
  · simp only [if_neg hstarted, reduceCtorEq, if_false]
    exact h

/-- What is left of a total over the writes when one of them has nothing to give back. -/
theorem total_due_settled {o : OpenWrite Path} (ho : w.writes[write]? = some o) (path : Path) :
  total (OpenWrite.due path) (w.writes.insert write { o with outstanding := 0 }) + o.due path
    = total (OpenWrite.due path) w.writes
  := by
  rw [total_insert, total_eq_weight_add (OpenWrite.due path) w.writes,
    weight_eq_of_some ho, OpenWrite.due]
  simp only [ite_self, Nat.zero_add]
  apply Nat.add_comm

theorem Balanced.unwritten (h : w.Balanced) (hallowed : w.Allowed (.unwritten write n)) :
  Keeps (w.turn (.unwritten write n))
  := by
  simp only [turn]
  cases ho : w.writes[write]? with
  | none => exact h
  | some o =>
    simp only [State.unwritten]
    cases hsource : w.state.sources[o.path]? with
    | none => rfl
    | some src =>
      have hle : o.bytes - n ≤ o.due o.path := by
        rw [OpenWrite.due, if_pos rfl]
        exact hallowed o ho
      have hdue := total_due_settled ho o.path
      have houtstanding := h.outstanding o.path
      have hfiles := @le_total_source _ _ w.state o.path Source.bytes rfl
      rw [← h.files] at hfiles
      have hsrc := source_eq hsource
      rw [hsrc] at houtstanding hfiles
      have hlt := h.files_lt
      simp only [minus_eq_ok (show o.bytes - n ≤ src.bytes by omega),
        minus_eq_ok (show o.bytes - n ≤ w.state.files by omega), Except.ok_bind, Keeps]
      exact h.book {
        sources := rfl
        files := by
          change w.state.files - (o.bytes - n) + (w.state.source o.path).bytes
            = w.state.files + (src.bytes - (o.bytes - n))
          rw [hsrc]
          omega
        files_lt := (Nat.sub_le ..).trans_lt hlt
        reserved := by rw [hsrc]; rfl
        reserved_lt := h.reserved_lt
        uncertain := by rw [hsrc]; rfl
        writing := by
          have := h.writing
          rw [total_eq_weight_add, weight_eq_of_some ho] at this
          rw [total_insert]
          exact this
        rewrite := rfl
        started := le_rfl
        due := by
          change _ ≤ src.bytes - (o.bytes - n)
          omega
        others := by
          intro path' _
          have := total_due_settled ho path'
          omega }

theorem Balanced.endWrite (h : w.Balanced) (write : ℕ) :
  Keeps (w.turn (.endWrite write))
  := by
  simp only [turn]
  cases ho : w.writes[write]? with
  | none => exact h
  | some o =>
    have hwriting := h.writing
    rw [total_eq_weight_add, weight_eq_of_some ho] at hwriting
    simp only [State.endWrite, minus_eq_ok (show o.bytes ≤ w.state.writing by omega),
      Except.ok_bind, Keeps]
    refine { h with writing := ?_, outstanding := ?_ }
    · change w.state.writing - o.bytes = total OpenWrite.bytes (w.writes.erase write)
      omega
    · intro path
      apply le_trans _ (h.outstanding path)
      rw [total_eq_weight_add (OpenWrite.due path) w.writes]
      apply Nat.le_add_left

theorem due_measured (path path' : Path) (o : OpenWrite Path) :
  OpenWrite.due path' (if o.path = path then { o with outstanding := 0 } else o)
    = if path' = path then 0 else o.due path'
  := by
  by_cases ho : o.path = path
  · rw [if_pos ho, OpenWrite.due, OpenWrite.due, ite_self]
    by_cases hpath : path' = path
    · rw [if_pos hpath]
    · rw [if_neg hpath, if_neg]
      rw [ho]
      exact Ne.symm hpath
  · rw [if_neg ho]
    by_cases hpath : path' = path
    · rw [if_pos hpath, OpenWrite.due, if_neg]
      rw [hpath]
      exact ho
    · rw [if_neg hpath]

/-- After a source was measured, its writes have nothing to give back; those of the others are
as they were. -/
theorem total_due_measured (path path' : Path) :
  total (OpenWrite.due path') (w.measured path)
    = if path' = path then 0 else total (OpenWrite.due path') w.writes
  := by
  rw [total, measured, Std.ExtTreeMap.toList_map, List.map_map]
  simp only [Function.comp_def, due_measured]
  split_ifs with hpath
  · simp
  · rfl

theorem total_bytes_measured (path : Path) :
  total OpenWrite.bytes (w.measured path) = total OpenWrite.bytes w.writes
  := by
  rw [total, measured, Std.ExtTreeMap.toList_map, List.map_map]
  congr 1
  apply List.map_congr_left
  intro e _
  simp only [Function.comp]
  split_ifs
  · rfl
  · rfl

section

variable (h : w.Balanced)
include h

theorem Balanced.reconcile (path : Path) (bytes : ℕ) :
  Keeps (w.turn (.reconcile path bytes))
  := by
  simp only [turn, State.reconcile]
  have hold := @le_total_source _ _ w.state path Source.bytes rfl
  rw [← h.files] at hold
  rw [if_neg (not_lt.mpr hold)]
  cases htotal : checkedAdd (w.state.files - (w.state.source path).bytes) bytes with
  | none => exact h
  | some sum =>
    obtain ⟨rfl, hlt⟩ := checkedAdd_eq_some.mp htotal
    have huncertain := @le_total_source _ _ w.state path (fun s => s.uncertain.toNat) rfl
    rw [← h.uncertain] at huncertain
    simp only [minus_eq_ok huncertain, Except.ok_bind, Except.pure_eq_ok, if_true, Keeps]
    exact h.book { h.booked path with
      sources := rfl
      files := by
        change w.state.files - (w.state.source path).bytes + bytes + (w.state.source path).bytes
          = w.state.files + bytes
        omega
      files_lt := hlt
      uncertain := Nat.sub_add_cancel huncertain
      writing := h.writing.trans (total_bytes_measured path).symm
      due := by
        rw [total_due_measured, if_pos rfl]
        apply Nat.zero_le
      others := by
        intro path' hpath
        rw [total_due_measured, if_neg hpath] }

theorem Balanced.markUncertain (path : Path) :
  Keeps (w.turn (.markUncertain path))
  := h.book { h.booked path with
    sources := rfl
    uncertain := by
      change w.state.uncertain + (!(w.state.source path).uncertain).toNat
        + (w.state.source path).uncertain.toNat = w.state.uncertain + 1
      cases (w.state.source path).uncertain with
      | true => rfl
      | false => rfl }

theorem Balanced.forgetEmpty (path : Path) :
  Keeps (w.turn (.forgetEmpty path))
  := by
  simp only [turn, State.forgetEmpty]
  cases hsource : w.state.sources[path]? with
  | none => rfl
  | some src =>
    by_cases hdebt : src.bytes ≠ 0 ∨ src.pending.isEmpty = false ∨ src.uncertain = true
    · simp only [if_pos hdebt]
      exact h
    · simp only [if_neg hdebt, Except.ok_bind, Keeps]
      push Not at hdebt
      obtain ⟨hbytes, hpending, huncertain⟩ := hdebt
      have hpending : src.pending = ∅ := by
        rw [Bool.ne_false_iff] at hpending
        exact Std.ExtTreeMap.isEmpty_iff.mp hpending
      have hkeep : ∀ f : Source → ℕ, f src = 0 →
          total f (w.state.sources.erase path) = total f w.state.sources := by
        intro f hf
        rw [total_eq_weight_add f w.state.sources, weight_eq_of_some hsource, hf, Nat.zero_add]
      refine { h with files := ?_, reserved := ?_, uncertain := ?_, outstanding := ?_ }
      · exact h.files.trans (hkeep _ hbytes).symm
      · have hcharges : src.charges = 0 := by
          rw [Source.charges, hpending, total_empty]
        rw [hkeep _ hcharges]
        exact h.reserved
      · have hflag : src.uncertain.toNat = 0 := by
          rw [Bool.eq_false_of_not_eq_true huncertain]
          rfl
        exact h.uncertain.trans (hkeep (fun s => s.uncertain.toNat) hflag).symm
      · intro path'
        have hle := h.outstanding path'
        by_cases hpath : path = path'
        · subst hpath
          rw [source_eq hsource, hbytes] at hle
          exact hle.trans (Nat.zero_le _)
        · have hsame : State.source { w.state with sources := w.state.sources.erase path } path'
              = w.state.source path' := by
            rw [State.source, getElem?_erase, if_neg hpath]
            rfl
          rw [← hsame] at hle
          exact hle

/-! ### Positions -/

theorem Balanced.bookCharges (path : Path) (pending : OrderedMap Position ℕ)
    (reserved peak : ℕ)
    (hreserved : reserved + total id (w.state.source path).pending + total id w.claims
      = w.state.reserved + total id pending + total id claims)
    (hlt : reserved < 2 ^ 64) :
  Balanced { w with
    state := { w.state.setSource path { w.state.source path with pending := pending } with
      reserved := reserved, peak := peak }
    claims := claims }
  := h.book { h.booked path with
    sources := rfl
    reserved := hreserved
    reserved_lt := hlt }

theorem Balanced.retainPosition (path : Path) (index term bytes : ℕ) :
  Keeps (w.turn (.retainPosition path index term bytes))
  := by
  simp only [turn, Keeps, State.retainPosition]
  have hcharges := charges_insert (w.state.source path) (Position.mk index term) bytes
  split_ifs with hle
  · exact h
  · cases hnext : checkedAdd w.state.reserved
      (bytes - ((w.state.source path).pending[Position.mk index term]?).getD 0) with
    | none => exact h
    | some next =>
      obtain ⟨hsum, hlt⟩ := checkedAdd_eq_some.mp hnext
      refine h.bookCharges path _ next _ ?_ (hsum ▸ hlt)
      simp only [Source.charges] at hcharges
      omega

theorem Balanced.replacePendingSuffix (path : Path) (first : ℕ)
    (replacement : OrderedMap Position ℕ) :
  Keeps (w.turn (.replacePendingSuffix path first replacement))
  := by
  simp only [turn, State.replacePendingSuffix]
  split_ifs with hboundary
  · exact h
  · cases hsource : w.state.sources[path]? with
    | none => rfl
    | some src =>
    cases hnext : replacement.toList.foldlM (fun n e => checkedAdd n e.2) 0 with
    | none => exact h
    | some next =>
    have hsuffix := total_suffix src.pending (Position.mk first 0)
    simp only
    split_ifs with hold
    · exact h
    · generalize hsum : ((range src.pending (.included (Position.mk first 0)) .unbounded).map
        Prod.snd).sum = old at *
      cases htotal : checkedAdd (w.state.reserved - old) next with
      | none => exact h
      | some reserved =>
        obtain ⟨hreserved, hlt⟩ := checkedAdd_eq_some.mp htotal
        have hnext := foldlM_checkedAdd hnext
        have hsrc := source_eq hsource
        have hfresh : ∀ e ∈ replacement.toList,
            (src.pending.filter fun k _ => decide (k < Position.mk first 0))[e.1]? = none := by
          intro e he
          have hindex : ¬ e.1.index < first := by
            intro hlt
            apply hboundary
            rw [List.any_eq_true]
            use e, he, by simpa using hlt
          have hnot : ¬ e.1 < Position.mk first 0 := by
            rw [Prod.Lex.lt_iff]
            rintro (hlt | ⟨-, hlt⟩)
            · exact hindex hlt
            · exact absurd hlt (Nat.not_lt_zero _)
          apply getElem?_filter_eq_none
          intro n _
          exact decide_eq_false hnot
        have hextend := total_extend id (ascending_toList replacement) hfresh
        rw [← hsrc] at hsuffix hextend ⊢
        refine h.bookCharges path _ reserved _ ?_ (hreserved ▸ hlt)
        have hsame : (replacement.toList.map fun e => id e.2).sum
          = (replacement.toList.map Prod.snd).sum := rfl
        omega

theorem Balanced.appliedThrough (path : Path) (index : ℕ) :
  Keeps (w.turn (.appliedThrough path index))
  := by
  simp only [turn, State.appliedThrough]
  cases hsource : w.state.sources[path]? with
  | none => rfl
  | some src =>
    have hpop := total_popThrough index src.pending.size src.pending 0
    have hsrc := source_eq hsource
    have hcharges := @le_total_source _ _ w.state path Source.charges charges_default
    have hreserved := h.reserved
    rw [← hsrc] at hpop ⊢
    rw [Source.charges] at hcharges
    have hle : (State.popThrough index (w.state.source path).pending.size
        (w.state.source path).pending 0).2 ≤ w.state.reserved := by
      omega
    simp only [minus_eq_ok hle, Except.ok_bind, Except.pure_eq_ok, Keeps]
    refine h.bookCharges path _ (w.state.reserved - _) _ ?_ ((Nat.sub_le ..).trans_lt h.reserved_lt)
    omega

end

/-! ### Claims -/

theorem hasCapacity_iff (h : s.hasCapacity bytes = true) :
  s.used + bytes ≤ s.limit ∧ s.used + bytes < 2 ^ 64
  := by
  simp only [State.hasCapacity, decide_eq_true_eq, any_eq_true] at h
  obtain ⟨-, total, htotal, hle⟩ := h
  simp only [bind_eq_bind, bind_eq_some_iff, checkedAdd_eq_some] at htotal
  obtain ⟨_, ⟨rfl, -⟩, _, ⟨rfl, -⟩, rfl, hlt⟩ := htotal
  use hle, hlt

/-- A grant is within the limit, and what is reserved grows by it. -/
theorem grant_eq {s' : State Path} {diskOk : Bool} {reply : Reply}
    (h : s.grant diskOk bytes = (s', reply)) :
  (reply = .granted ∧ s' = { s with reserved := s.reserved + bytes }.accountPeak
      ∧ s.used + bytes ≤ s.limit ∧ s.used + bytes < 2 ^ 64)
    ∨ (reply ≠ .granted ∧ s' = { s with refused := s'.refused })
  := by
  rw [State.grant] at h
  split_ifs at h with hrefused
  · cases h
    right
    constructor
    · nofun
    · rfl
  · simp only [Bool.or_eq_true, Bool.not_eq_eq_eq_not, Bool.not_true, not_or,
      Bool.not_eq_false] at hrefused
    obtain ⟨hle, hlt⟩ := hasCapacity_iff hrefused.2
    cases hsum : checkedAdd s.reserved bytes with
    | none =>
      rw [hsum] at h
      cases h
      right
      constructor
      · nofun
      · rfl
    | some reserved =>
      rw [hsum] at h
      obtain ⟨rfl, -⟩ := checkedAdd_eq_some.mp hsum
      cases h
      left
      use rfl, rfl, hle, hlt

section

variable (h : w.Balanced)
include h

/-- A balanced budget stays balanced when a reservation is granted or refused. -/
theorem Balanced.grant (hclaim : w.claims[claim]? = none)
    (observation : Observation) (diskOk : Bool) (bytes : ℕ) :
  Balanced { w with
    state := ({ w.state with observation := observation }.grant diskOk bytes).1
    claims :=
      if ({ w.state with observation := observation }.grant diskOk bytes).2 = .granted
      then w.claims.insert claim bytes else w.claims }
  := by
  generalize hgrant : { w.state with observation := observation }.grant diskOk bytes = result
  obtain ⟨s, reply⟩ := result
  rcases grant_eq hgrant with ⟨rfl, rfl, -, hlt⟩ | ⟨hreply, hs⟩
  · rw [if_pos rfl]
    refine { h with reserved := ?_, reserved_lt := ?_ }
    · change w.state.reserved + bytes
        = total Source.charges w.state.sources + total id (w.claims.insert claim bytes)
      have := h.reserved
      rw [total_insert_of_none id hclaim]
      simp only [id]
      omega
    · change w.state.reserved + bytes < 2 ^ 64
      change w.state.files + w.state.reserved + _ + bytes < 2 ^ 64 at hlt
      omega
  · rw [if_neg hreply, hs]
    exact { h with }

theorem Balanced.reserve (hclaim : w.claims[claim]? = none) (bytes : ℕ) :
  Keeps (w.turn (.reserve claim bytes))
  := by
  simp only [turn]
  by_cases hdisk : w.disk.isSome = true
  · rw [if_pos hdisk]
    exact h
  · rw [if_neg hdisk]
    apply h.grant hclaim

/-- A balanced budget stays balanced when a thread begins to wait for a sample. -/
theorem Balanced.wait (sampling : ℕ) (purpose : Purpose) (bytes : ℕ) :
  (w.wait sampling purpose bytes).Balanced
  := by
  refine { h with started := ?_ }
  intro name s hs
  change (w.samplings.insert sampling _)[name]? = some s at hs
  rw [getElem?_insert] at hs
  split_ifs at hs with hname
  · cases hs
    exact le_rfl
  · exact h.started name s hs

theorem Balanced.beginReserve (sampling bytes : ℕ) :
  Keeps (w.turn (.beginReserve sampling bytes))
  := by
  simp only [turn, State.beginReserve]
  by_cases hcapacity : w.state.hasCapacity bytes = true
  · simp only [if_pos hcapacity, if_true]
    apply h.wait
  · simp only [if_neg hcapacity, State.refuse, reduceCtorEq, if_false]
    exact { h with }

/-- A balanced budget stays balanced when a thread no longer waits. -/
theorem Balanced.resume (sampling : ℕ) :
  Balanced { w with samplings := w.samplings.erase sampling }
  := by
  refine { h with started := ?_ }
  intro name s hs
  rw [getElem?_erase] at hs
  split_ifs at hs
  exact h.started name s hs

/-- What was written while a thread waited is not negative. -/
theorem Balanced.overlap {purpose : Purpose} {waiting : Sampling}
    (hwaiting : w.sampled sampling purpose = some waiting) :
  w.state.overlap waiting.started waiting.writing
    = .ok (w.state.writeStarted - waiting.started + waiting.writing)
  := by
  rw [sampled, filter_eq_some_iff] at hwaiting
  rw [State.overlap, minus_eq_ok (h.started sampling waiting hwaiting.1)]
  rfl

theorem Balanced.finishReserve (hclaim : w.claims[claim]? = none) (sample : Option ℕ) :
  Keeps (w.turn (.finishReserve sampling claim sample))
  := by
  simp only [turn]
  cases hwaiting : w.sampled sampling .proposal with
  | none => exact h
  | some waiting =>
  cases hdisk : w.disk with
  | none => exact h
  | some minimum =>
    simp only [State.finishReserve, h.overlap hwaiting, Except.ok_bind, Except.pure_eq_ok, Keeps]
    rw [← hdisk]
    exact (h.grant hclaim _ _ waiting.bytes).resume sampling

theorem Balanced.accept (claim : ℕ) (path : Path) (index term : ℕ) :
  Keeps (w.turn (.accept claim path index term))
  := by
  simp only [turn]
  cases hclaim : w.claims[claim]? with
  | none => exact h
  | some bytes =>
    have hcharges := charges_insert (w.state.source path) (Position.mk index term)
      (max bytes (((w.state.source path).pending[Position.mk index term]?).getD 0))
    have hclaims := total_eq_weight_add id w.claims claim
    rw [weight_eq_of_some hclaim] at hclaims
    have hreserved := h.reserved
    have hle : min (((w.state.source path).pending[Position.mk index term]?).getD 0) bytes
        ≤ w.state.reserved := by
      simp only [id] at hclaims
      omega
    simp only [State.accept, minus_eq_ok hle, Except.ok_bind, Except.pure_eq_ok, Keeps]
    refine h.bookCharges path _ (w.state.reserved - _) _ ?_ ((Nat.sub_le ..).trans_lt h.reserved_lt)
    simp only [Source.charges] at hcharges
    simp only [id] at hclaims
    omega

theorem Balanced.dropClaim (claim : ℕ) :
  Keeps (w.turn (.dropClaim claim))
  := by
  simp only [turn]
  cases hclaim : w.claims[claim]? with
  | none => exact h
  | some bytes =>
    have hclaims := total_eq_weight_add id w.claims claim
    rw [weight_eq_of_some hclaim] at hclaims
    simp only [id] at hclaims
    have hreserved := h.reserved
    simp only [State.dropClaim, minus_eq_ok (show bytes ≤ w.state.reserved by omega),
      Except.ok_bind, Except.pure_eq_ok, Keeps]
    refine { h with reserved := ?_, reserved_lt := (Nat.sub_le ..).trans_lt h.reserved_lt }
    change w.state.reserved - bytes
      = total Source.charges w.state.sources + total id (w.claims.erase claim)
    omega

/-! ### Rewrites and observations -/

theorem Balanced.beginRewrite (sampling bytes : ℕ) :
  Keeps (w.turn (.beginRewrite sampling bytes))
  := by
  simp only [turn, State.beginRewrite]
  split_ifs with hdeferred hreply hreply
  · nomatch hreply
  · exact { h with }
  · apply h.wait
  · exact absurd rfl hreply

/-- The space for rewrites grows by what is granted of it. -/
theorem Balanced.admitRewrite (hclaim : w.rewrites[claim]? = none)
    (bytes admitted peakBytes peak : ℕ) :
  Balanced { w with
    state := { w.state with
      rewrite := { w.state.rewrite with
        reservedBytes := w.state.rewrite.reservedBytes + bytes
        active := w.state.rewrite.active + 1
        admitted := admitted
        peakBytes := peakBytes }
      peak := peak }
    rewrites := w.rewrites.insert claim bytes }
  := by
  refine { h with rewriteReserved := ?_, rewriteActive := ?_ }
  · change w.state.rewrite.reservedBytes + bytes = total id (w.rewrites.insert claim bytes)
    rw [total_insert_of_none id hclaim, h.rewriteReserved]
    apply Nat.add_comm
  · change w.state.rewrite.active + 1 = total (fun _ => 1) (w.rewrites.insert claim bytes)
    rw [total_insert_of_none _ hclaim, h.rewriteActive]
    apply Nat.add_comm

theorem Balanced.finishRewrite (hclaim : w.rewrites[claim]? = none) (sample : Option ℕ) :
  Keeps (w.turn (.finishRewrite sampling claim sample))
  := by
  simp only [turn]
  cases hwaiting : w.sampled sampling .rewrite with
  | none => exact h
  | some waiting =>
    simp only [State.finishRewrite]
    cases hdisk : w.disk with
    | none =>
      simp only [Except.ok_bind, Except.pure_eq_ok]
      rw [← hdisk]
      split_ifs
      · exact { h.resume sampling with }
      · exact (h.admitRewrite hclaim waiting.bytes _ _ _).resume sampling
    | some minimum =>
      simp only [h.overlap hwaiting, Except.ok_bind, Except.pure_eq_ok]
      split_ifs
      · exact { h.resume sampling with }
      · exact { (h.admitRewrite hclaim waiting.bytes 0 0 0).resume sampling with }

theorem Balanced.dropRewrite (claim : ℕ) :
  Keeps (w.turn (.dropRewrite claim))
  := by
  simp only [turn]
  cases hclaim : w.rewrites[claim]? with
  | none => exact h
  | some bytes =>
    have hreserved := h.rewriteReserved
    rw [total_eq_weight_add, weight_eq_of_some hclaim] at hreserved
    have hactive := h.rewriteActive
    rw [total_eq_weight_add, weight_eq_of_some hclaim] at hactive
    simp only [id] at hreserved
    simp only [State.dropRewrite, minus_eq_ok (show bytes ≤ w.state.rewrite.reservedBytes by omega),
      minus_eq_ok (show 1 ≤ w.state.rewrite.active by omega), Except.ok_bind,
      Except.pure_eq_ok, Keeps]
    refine { h with rewriteReserved := ?_, rewriteActive := ?_ }
    · change w.state.rewrite.reservedBytes - bytes = total id (w.rewrites.erase claim)
      omega
    · change w.state.rewrite.active - 1 = total (fun _ => 1) (w.rewrites.erase claim)
      omega

theorem Balanced.beginObserve (sampling : ℕ) :
  Keeps (w.turn (.beginObserve sampling))
  := by
  simp only [turn]
  cases w.state.beginObserve with
  | some capacity => exact h
  | none => apply h.wait

theorem Balanced.finishObserve (sampling : ℕ) (sample : Option ℕ) :
  Keeps (w.turn (.finishObserve sampling sample))
  := by
  simp only [turn]
  cases hwaiting : w.sampled sampling .observation with
  | none => exact h
  | some waiting =>
    simp only [State.finishObserve]
    split_ifs
    · apply h.resume
    · cases hdisk : w.disk with
      | none =>
        simp only [Except.ok_bind, Except.pure_eq_ok]
        rw [← hdisk]
        apply h.resume
      | some minimum =>
        simp only [h.overlap hwaiting, Except.ok_bind, Except.pure_eq_ok]
        exact { h.resume sampling with }

/-! ## Every order of the turns -/

theorem Balanced.turn (ht : w.Allowed t) :
  Keeps (w.turn t)
  := by
  cases t with
  | grow path bytes => apply h.grow
  | beginWrite write path bytes => apply h.beginWrite ht
  | unwritten write n => exact h.unwritten ht
  | endWrite write => apply h.endWrite
  | reconcile path bytes => apply h.reconcile
  | markUncertain path => apply h.markUncertain
  | retainPosition path index term bytes => apply h.retainPosition
  | replacePendingSuffix path first replacement =>
    apply h.replacePendingSuffix
  | appliedThrough path index => apply h.appliedThrough
  | forgetEmpty path => apply h.forgetEmpty
  | reserve claim bytes => apply h.reserve ht
  | beginReserve sampling bytes => apply h.beginReserve
  | finishReserve sampling claim sample => apply h.finishReserve ht
  | accept claim path index term => apply h.accept
  | dropClaim claim => apply h.dropClaim
  | beginRewrite sampling bytes => apply h.beginRewrite
  | finishRewrite sampling claim sample => apply h.finishRewrite ht
  | dropRewrite claim => apply h.dropRewrite
  | beginObserve sampling => apply h.beginObserve
  | finishObserve sampling sample => apply h.finishObserve

end

theorem balanced_new (limit rewriteLimit : ℕ) (disk : Option ℕ) :
  (new limit rewriteLimit disk : World Path).Balanced
  := by
  constructor
  · exact total_empty.symm
  · apply Nat.two_pow_pos
  · change 0 = total _ (∅ : OrderedMap Path Source) + total _ (∅ : OrderedMap ℕ ℕ)
    rw [total_empty, total_empty]
  · apply Nat.two_pow_pos
  · exact total_empty.symm
  · exact total_empty.symm
  · exact total_empty.symm
  · exact total_empty.symm
  · intro name s hs
    simp [new] at hs
  · intro path
    apply Nat.zero_le

theorem Reachable.balanced {limit rewriteLimit : ℕ} {disk : Option ℕ}
    (h : Reachable (new limit rewriteLimit disk) w) :
  w.Balanced
  := by
  induction h with
  | start => apply balanced_new
  | turn _ ht hturn ih =>
    have := ih.turn ht
    rw [hturn] at this
    exact this

/-- Whether a turn answers a reservation. -/
def answersReservation : Turn Path → Bool
  | .reserve _ _ => true
  | .finishReserve _ _ _ => true
  | _ => false

/-- A reservation that is granted is within the limit. -/
theorem used_le_of_granted {w' : World Path}
    (ht : answersReservation t = true) (hturn : w.turn t = .ok (w', .granted)) :
  w'.state.used ≤ w'.state.limit
  := by
  have hgrant : ∀ {s s' : State Path} {diskOk : Bool} {bytes : ℕ},
      s.grant diskOk bytes = (s', .granted) → s'.used ≤ s'.limit := by
    intro s s' diskOk bytes h
    rcases grant_eq h with ⟨-, rfl, hle, -⟩ | ⟨hreply, -⟩
    · change s.files + (s.reserved + bytes) + s.rewrite.reservedBytes ≤ s.limit
      rw [State.used] at hle
      omega
    · exact absurd rfl hreply
  cases t with
  | reserve claim bytes =>
    simp only [turn] at hturn
    split_ifs at hturn
    · nomatch hturn
    all_goals
      injection hturn with hturn
      injection hturn with hworld hreply
      rw [← hworld]
      exact hgrant (Prod.ext rfl hreply)
  | finishReserve sampling claim sample =>
    simp only [turn] at hturn
    split at hturn
    · obtain ⟨⟨s, reply⟩, hfinish, hturn⟩ := Except.bind_eq_ok.mp hturn
      obtain ⟨overlap, -, hfinish⟩ := Except.bind_eq_ok.mp hfinish
      cases hturn
      injection hfinish with hfinish
      exact hgrant hfinish
    · nomatch hturn
  | _ => nomatch ht

end World

end Kv9.LogBudget
