import Kv9.Engine.Concurrent

/-!
# Garbage collection spares every view

Whatever the interleaving, a collector that has read the shard of a live view works with
an oldest live version not above the version of that view: either it read the shard after
the view was registered there, or it loaded the watermark before the view fixed its
version.  Hence every entry it removes is superseded, or is a settled tombstone, for every
view that is registered and for every view that fixes its version later.
-/

namespace Kv9.Engine

open OrderedMap Versions List World Shared

variable {oldest : ℕ}

namespace World

/-- A version a view reads at, or a view may still come to read at. -/
def Needed (w : World) (v : ℕ) : Prop :=
  w.shared.visible ≤ v ∨ ∃ view, .live view ∈ w.readers ∧ view.version = v

/-- No version below `oldest` is needed. -/
def Spares (w : World) (oldest : ℕ) : Prop := ∀ v, w.Needed v → oldest ≤ v

/-- What every step does as far as views and collectors are concerned: the watermark does
not go back, a view that is new does not read below it, and at the versions up to it the
history loses nothing and the trees gain nothing. -/
structure Extends (w w' : World) : Prop where
  visible : w.shared.visible ≤ w'.shared.visible
  live : ∀ view, .live view ∈ w'.readers → .live view ∈ w.readers ∨ w.shared.visible ≤ view.version
  history : ∀ cf key n s, n ≤ w.shared.visible → w.history cf key n = some s →
    w'.history cf key n = some s
  trees : ∀ cf key n, n ≤ w.shared.visible →
    Tree.versions (w'.shared.trees cf) key n ≠ none → Tree.versions (w.shared.trees cf) key n ≠ none

variable {w w' : World}

theorem Extends.needed (h : Extends w w') {v : ℕ} (hv : w'.Needed v) :
  w.Needed v
  := by
  rcases hv with hle | ⟨view, hview, rfl⟩
  · exact .inl (le_trans h.visible hle)
  · rcases h.live view hview with hview | hle
    · exact .inr ⟨view, hview, rfl⟩
    · exact .inl hle

theorem Extends.trans {w'' : World} (h : Extends w w') (h' : Extends w' w'') :
  Extends w w''
  where
  visible := le_trans h.visible h'.visible
  live view hview := by
    rcases h'.live view hview with hview | hle
    · exact h.live view hview
    · exact .inr (le_trans h.visible hle)
  history cf key n s hn hs := h'.history cf key n s (le_trans hn h.visible) (h.history cf key n s hn hs)
  trees cf key n hn hs := h.trees cf key n hn (h'.trees cf key n (le_trans hn h.visible) hs)

theorem Extends.spares (h : Extends w w') (ho : w.Spares oldest) :
  w'.Spares oldest
  := fun v hv => ho v (h.needed hv)

theorem Spares.le_visible (h : w.Spares oldest) :
  oldest ≤ w.shared.visible
  := h _ (.inl le_rfl)

end World

/-- What is known of a collector. -/
def Collector.Ok (w : World) : Collector → Prop
  | .idle cursor => cursor.Valid
  | .reading cursor _ _ oldest left =>
    cursor.Valid ∧ oldest ≤ w.shared.visible ∧
      ∀ view, .live view ∈ w.readers → view.shard ∉ left → oldest ≤ view.version
  | .walking leg lo walk =>
    w.Spares leg.oldest ∧ walk.resume = none ∧
      GcInv (w.history leg.cf) (w.shared.trees leg.cf) leg.oldest lo walk
  | .removing leg walk doomed =>
    w.Spares leg.oldest ∧ walk.ResumesAbove ∧
      DoomedOk (w.history leg.cf) (w.shared.trees leg.cf) leg.oldest doomed

variable {w w' : World} {P : ℕ → ℕ → Prop} {r n' : ℕ} {p : Reader → Bool} {cf : ColumnFamily}
  {k : VersionedKey} {leg : Leg}

/-- What is known of a collector stays true whatever step is made by another thread. -/
theorem Collector.Ok.extends {c : Collector} (h : c.Ok w) (hext : w.Extends w') :
  c.Ok w'
  := by
  cases c with
  | idle cursor => exact h
  | reading cursor scanBudget chunk oldest left =>
    obtain ⟨hvalid, hle, hlive⟩ := h
    use hvalid, le_trans hle hext.visible
    intro view hview hread
    rcases hext.live view hview with hview | hge
    · exact hlive view hview hread
    · exact le_trans hle hge
  | walking leg lo walk =>
    obtain ⟨hspares, hresume, hinv⟩ := h
    refine ⟨hext.spares hspares, hresume, hinv.mono ?_ ?_⟩
    · exact fun key m s hm => hext.history _ key m s (le_trans hm hspares.le_visible)
    · exact fun key m hm => hext.trees _ key m (le_trans hm hspares.le_visible)
  | removing leg walk doomed =>
    obtain ⟨hspares, hresume, hdoomed⟩ := h
    refine ⟨hext.spares hspares, hresume, hdoomed.mono ?_ ?_⟩
    · exact fun key m s hm => hext.history _ key m s (le_trans hm hspares.le_visible)
    · exact fun key m hm => hext.trees _ key m (le_trans hm hspares.le_visible)

/-- The version a writer works with, and the locks it holds. -/
def World.WriterOk (w : World) : Prop :=
  match w.writer with
  | .idle => w.shared.writer = w.shared.visible
  | .inserting version _ _ _ =>
    w.shared.writer = w.shared.visible ∧ version = w.shared.visible + 1
  | .publishing version =>
    version = w.shared.visible + 1 ∧ w.shared.published.version = version ∧ w.lock = some .writer
  | .stored version =>
    w.shared.visible = version ∧ w.shared.published.version = version ∧ w.lock = some .writer
  | .finishing version => w.shared.visible = version
  | .deleting _ => w.shared.writer = w.shared.visible

theorem World.WriterOk.congr (h : w.WriterOk) (hw : w'.writer = w.writer)
    (hlast : w'.shared.writer = w.shared.writer) (hvisible : w'.shared.visible = w.shared.visible)
    (hversion : w'.shared.published.version = w.shared.published.version)
    (hlock : w.lock = some .writer → w'.lock = some .writer) :
  w'.WriterOk
  := by
  rw [WriterOk] at h ⊢
  rw [hw, hlast, hvisible, hversion]
  cases hphase : w.writer with
  | publishing version
  | stored version =>
    rw [hphase] at h
    use h.1, h.2.1, hlock h.2.2
  | _ =>
    rw [hphase] at h
    exact h

/-- Whether a view is registered in `shard` at version `n`. -/
def Reader.registeredAt (shard : Fin registryShards) (n : ℕ) : Reader → Bool
  | .registered v0 s => decide (shard = s ∧ n = v0)
  | .live view => decide (shard = view.shard ∧ n = view.registered)
  | _ => false

variable {shard : Fin registryShards} {n : ℕ} {view : View}

theorem Reader.registeredAt_live :
  (Reader.live view).registeredAt shard n = true ↔ shard = view.shard ∧ n = view.registered
  := decide_eq_true_iff

theorem Reader.registeredAt_registered {shard' : Fin registryShards} {v0 : ℕ} :
  (Reader.registered v0 shard').registeredAt shard n = true ↔ shard = shard' ∧ n = v0
  := decide_eq_true_iff

/-- What is known of writers and readers. -/
structure World.Threads (w : World) : Prop where
  writer : w.WriterOk
  published : w.lock ≠ some .writer → w.shared.published.version = w.shared.visible
  freezing : ∀ (r : ℕ) v, w.readers[r]? = some (.freezing v) →
    w.lock = some (.reader r) ∧ v = w.shared.visible
  counted : ∀ shard n, w.readers.countP (Reader.registeredAt shard n) ≤ w.shared.registered shard n
  live : ∀ view, .live view ∈ w.readers → view.registered ≤ view.version

/-- What is known of the trees: nothing is stored above the version after the watermark,
every needed version reads the same as in the whole history, and what was removed is at
or below the watermark and not there any more. -/
structure World.Stored (w : World) : Prop where
  bound : ∀ cf key n, w.history cf key n ≠ none → n ≤ w.shared.visible + 1
  faithful : ∀ v, w.Needed v → ∀ cf, FaithfulFrom (w.history cf) (w.shared.trees cf) v
  removed : ∀ cf key n s, (cf, key, n, s) ∈ w.removed →
    n ≤ w.shared.visible ∧ Tree.versions (w.shared.trees cf) key n = none

/-- What holds in every reachable world. -/
structure World.Inv (w : World) : Prop where
  threads : w.Threads
  stored : w.Stored
  collectors : ∀ c, (w.collectors c).Ok w

theorem World.Inv.ok (h : w.Inv) {c : ℕ} {collector : Collector} (hc : w.collectors c = collector) :
  collector.Ok w
  := hc ▸ h.collectors c

/-! ## What a step does -/

variable {rs : List Reader} {x : Reader}

namespace World

variable {w w' : World}

theorem history_insert (w : World) (version : ℕ) (m : Mutation) (cf : ColumnFamily) :
  (w.insert version m).history cf
    = if cf = m.cf then (w.history cf).put m.key version m.slot else w.history cf
  := by
  rw [insert]
  simp only [Function.update_apply]
  split_ifs with hcf
  · rw [hcf]
  · rfl

/-- Removing an entry takes out that entry of that column family. -/
theorem getElem?_remove (w : World) (cf cf' : ColumnFamily) (k k' : VersionedKey) :
  ((w.remove cf k).shared.trees cf')[k']?
    = if cf' = cf ∧ k = k' then none else (w.shared.trees cf')[k']?
  := by
  rw [remove]
  by_cases hcf : cf' = cf
  · subst hcf
    rw [trees_treeMut_self, getElem?_erase]
    simp
  · rw [trees_treeMut_of_ne _ _ hcf, if_neg fun hc => hcf hc.1]

/-- A step that changes neither the watermark nor what is stored. -/
theorem Extends.quiet (hvisible : w'.shared.visible = w.shared.visible)
    (htrees : w'.shared.trees = w.shared.trees) (hhistory : w'.history = w.history)
    (hlive : ∀ view, .live view ∈ w'.readers →
      .live view ∈ w.readers ∨ w.shared.visible ≤ view.version) :
  w.Extends w'
  where
  visible := hvisible.ge
  live := hlive
  history cf key n s _ h := by rwa [hhistory]
  trees cf key n _ h := by rwa [htrees] at h

theorem Extends.moveCollector (w : World) (c : ℕ) (next : Collector) :
  w.Extends (w.moveCollector c next)
  := .quiet rfl rfl rfl fun _ h => .inl h

/-- Storing above the watermark extends the world. -/
theorem Extends.insert (w : World) {version : ℕ} (hv : w.shared.visible < version) (m : Mutation)
    (writer : Writer) :
  w.Extends { w.insert version m with writer := writer }
  where
  visible := le_rfl
  live _ h := .inl h
  history cf key n s hn h := by
    have hne : ¬ (key = m.key ∧ n = version) := fun hc => absurd hn (not_le_of_gt (hc.2 ▸ hv))
    change (w.insert version m).history cf key n = some s
    rw [history_insert]
    split_ifs
    · rwa [put, if_neg hne]
    · exact h
  trees cf key n hn h := by
    have hne : ¬ (key = m.key ∧ n = version) := fun hc => absurd hn (not_le_of_gt (hc.2 ▸ hv))
    change Tree.versions ((w.shared.treeMut m.cf fun t => t.insert (.new m.key version) m.slot).trees
      cf) key n ≠ none at h
    rw [versions_treeMut] at h
    split_ifs at h
    · rwa [put, if_neg hne] at h
    · exact h

theorem Extends.remove (w : World) (cf : ColumnFamily) (k : VersionedKey) :
  w.Extends (w.remove cf k)
  where
  visible := le_rfl
  live _ h := .inl h
  history _ _ _ _ _ h := h
  trees cf' key n _ h := by
    rw [Tree.versions, getElem?_remove] at h
    split_ifs at h
    · exact absurd rfl h
    · exact h

theorem live_of_append {P : Prop} (hx : ∀ view', x = .live view' → view = view' → P)
    (h : .live view ∈ rs ++ [x]) :
  .live view ∈ rs ∨ P
  := by
  rcases mem_append.mp h with h | h
  · exact .inl h
  · exact .inr (hx view (mem_singleton.mp h).symm rfl)

theorem live_of_set {P : Prop} (hx : ∀ view', x = .live view' → view = view' → P)
    (h : .live view ∈ rs.set r x) :
  .live view ∈ rs ∨ P
  := by
  rcases mem_or_eq_of_mem_set h with h | h
  · exact .inl h
  · exact .inr (hx view h.symm rfl)

end World

theorem Step.extends (h : Step w w') (ht : w.Threads) :
  w.Extends w'
  := by
  have hwriter := ht.writer
  rw [World.WriterOk] at hwriter
  cases h with
  | insert hw =>
    rw [hw] at hwriter
    exact .insert w (hwriter.2 ▸ Nat.lt_succ_self _) _ _
  | store hw =>
    rw [hw] at hwriter
    refine ⟨?_, fun _ h => .inl h, fun _ _ _ _ _ h => h, fun _ _ _ _ h => h⟩
    rw [hwriter.1]
    apply Nat.le_succ
  | deleteView shard hw =>
    rw [hw] at hwriter
    refine .quiet rfl rfl rfl fun view => live_of_append ?_
    rintro _ ⟨⟩ rfl
    exact hwriter.ge
  | load
  | freeze _ =>
    refine .quiet rfl rfl rfl fun view => live_of_append ?_
    rintro _ ⟨⟩
  | register shard _ =>
    refine .quiet rfl rfl rfl fun view => live_of_set ?_
    rintro _ ⟨⟩
  | reload _ =>
    refine .quiet rfl rfl rfl fun view => live_of_set ?_
    rintro _ ⟨⟩ rfl
    apply Nat.le_max_left
  | freezeRegister shard hr =>
    refine .quiet rfl rfl rfl fun view => live_of_set ?_
    rintro _ ⟨⟩ rfl
    exact (ht.freezing _ _ hr).2.ge
  | @drop r view hr =>
    have hframe : (view.drop w.shared).visible = w.shared.visible
        ∧ (view.drop w.shared).trees = w.shared.trees := by
      rw [View.drop, Shared.unregister]
      split <;> exact ⟨rfl, rfl⟩
    refine .quiet hframe.1 hframe.2 rfl fun view => live_of_set ?_
    rintro _ ⟨⟩
  | startLeg _ _ _
  | readShard _
  | startWalk _
  | visit _ _
  | endWalk _ _
  | proceed _ => exact .moveCollector ..
  | remove _ =>
    exact (World.Extends.remove ..).trans (.moveCollector ..)
  | _ => exact .quiet rfl rfl rfl fun _ h => .inl h

/-! ## Writers and readers -/

/-- Replacing a reader keeps the views counted when the registry changes with it. -/
theorem counted_set {y : Reader} (h : rs.countP p ≤ n)
    (hr : rs[r]? = some x) (hn : n + (if p y then 1 else 0) ≤ n' + (if p x then 1 else 0)) :
  (rs.set r y).countP p ≤ n'
  := by
  obtain ⟨hlt, rfl⟩ := List.getElem?_eq_some_iff.mp hr
  rw [countP_set hlt]
  have hpos : p rs[r] = true → 0 < rs.countP p := by
    intro hp
    exact countP_pos_iff.mpr ⟨_, getElem_mem hlt, hp⟩
  by_cases hp : p rs[r] = true
  · have := hpos hp
    rw [if_pos hp] at hn ⊢
    omega
  · rw [if_neg hp] at hn ⊢
    omega

/-- What holds of every reader that holds the lock `published` holds after another reader has
moved on. -/
theorem freezing_set (h : ∀ r v, rs[r]? = some (.freezing v) → P r v) (hx : ∀ v, x ≠ .freezing v) :
  ∀ r' v, (rs.set r x)[r']? = some (.freezing v) → P r' v
  := by
  intro r' v hr
  rw [List.getElem?_set] at hr
  split_ifs at hr
  · exact absurd (Option.some.inj hr) (hx v)
  · exact h r' v hr

theorem freezing_append (h : ∀ r v, rs[r]? = some (.freezing v) → P r v)
    (hx : ∀ v, x = .freezing v → P rs.length v) :
  ∀ r v, (rs ++ [x])[r]? = some (.freezing v) → P r v
  := by
  intro r v hr
  rw [List.getElem?_append, getElem?_singleton] at hr
  split_ifs at hr with hlt hzero
  · exact h r v hr
  · obtain rfl : r = rs.length := by omega
    exact hx v (Option.some.inj hr)

theorem counted_append (h : rs.countP p ≤ n) (hn : n + (if p x then 1 else 0) ≤ n') :
  (rs ++ [x]).countP p ≤ n'
  := by
  rw [countP_append, countP_singleton]
  omega

/-- What holds of every view holds of the new one, too. -/
theorem live_append {P : View → Prop} (h : ∀ view, .live view ∈ rs → P view)
    (hx : ∀ view, x = .live view → P view) :
  ∀ view, .live view ∈ rs ++ [x] → P view
  := by
  intro view hview
  rcases mem_append.mp hview with hview | hview
  · exact h view hview
  · exact hx view (mem_singleton.mp hview).symm

theorem live_set {P : View → Prop} (h : ∀ view, .live view ∈ rs → P view)
    (hx : ∀ view, x = .live view → P view) :
  ∀ view, .live view ∈ rs.set r x → P view
  := by
  intro view hview
  rcases mem_or_eq_of_mem_set hview with hview | hview
  · exact h view hview
  · exact hx view hview.symm

namespace Step

variable {w w' : World}

/-- What is known of writers and readers is preserved by every step. -/
theorem threads (h : Step w w') (ht : w.Threads) :
  w'.Threads
  := by
  obtain ⟨hwriter, hpub, hfreezing, hcounted, hlive⟩ := ht
  cases h with
  | begin batch pos hw _ _ =>
    simp only [World.WriterOk, hw] at hwriter
    use ⟨hwriter, congrArg (· + 1) hwriter⟩, hpub, hfreezing, hcounted, hlive
  | insert hw
  | deleteDone hw _ =>
    simp only [World.WriterOk, hw] at hwriter
    use hwriter, hpub, hfreezing, hcounted, hlive
  | fail hw =>
    simp only [World.WriterOk, hw] at hwriter
    use hwriter.1, hpub, hfreezing, hcounted, hlive
  | publish hw hlock =>
    simp only [World.WriterOk, hw] at hwriter
    refine ⟨⟨hwriter.2, rfl, rfl⟩, ?_, ?_, hcounted, hlive⟩
    · exact fun hne => absurd rfl hne
    · intro r v hr
      rw [hlock] at hfreezing
      cases (hfreezing r v hr).1
  | store hw =>
    simp only [World.WriterOk, hw] at hwriter
    obtain ⟨-, hversion, hlock⟩ := hwriter
    refine ⟨⟨rfl, hversion, hlock⟩, ?_, ?_, hcounted, hlive⟩
    · exact fun hne => absurd hlock hne
    · intro r v hr
      have := (hfreezing r v hr).1
      rw [hlock] at this
      cases this
  | unlock hw =>
    simp only [World.WriterOk, hw] at hwriter
    obtain ⟨hvisible, hversion, hlock⟩ := hwriter
    refine ⟨hvisible, fun _ => hversion.trans hvisible.symm, ?_, hcounted, hlive⟩
    intro r v hr
    have := (hfreezing r v hr).1
    rw [hlock] at this
    cases this
  | finish hw =>
    simp only [World.WriterOk, hw] at hwriter
    use hwriter.symm, hpub, hfreezing, hcounted, hlive
  | deleteView shard hw =>
    simp only [World.WriterOk, hw] at hwriter
    refine ⟨hwriter, hpub, freezing_append hfreezing (by simp), ?_, ?_⟩
    · intro shard' n
      apply counted_append (hcounted shard' n)
      simp [View.new, registered_register, Reader.registeredAt_live]
    · apply live_append hlive
      rintro _ ⟨⟩
      exact le_rfl
  | load =>
    refine ⟨hwriter, hpub, freezing_append hfreezing (by simp), ?_, live_append hlive (by simp)⟩
    intro shard' n
    exact counted_append (hcounted shard' n) le_rfl
  | register shard hr =>
    refine ⟨hwriter, hpub, freezing_set hfreezing (by simp), ?_, live_set hlive (by simp)⟩
    intro shard' n
    apply counted_set (hcounted shard' n) hr
    simp only [registered_register, Reader.registeredAt_registered]
    apply Nat.le_add_right
  | reload hr =>
    refine ⟨hwriter, hpub, freezing_set hfreezing (by simp), ?_, ?_⟩
    · intro shard' n
      apply counted_set (hcounted shard' n) hr
      simp [Reader.registeredAt_live, Reader.registeredAt_registered]
    · apply live_set hlive
      rintro _ ⟨⟩
      apply Nat.le_max_right
  | freeze hlock =>
    have hversion := hpub (by simp [hlock])
    refine ⟨?_, ?_, ?_, ?_, ?_⟩
    · exact hwriter.congr rfl rfl rfl rfl fun h => by rw [hlock] at h; cases h
    · exact fun _ => hversion
    · apply freezing_append
      · intro r v hr
        rw [hlock] at hfreezing
        cases (hfreezing r v hr).1
      · rintro _ ⟨⟩
        use rfl, hversion
    · intro shard' n
      exact counted_append (hcounted shard' n) le_rfl
    · exact live_append hlive (fun _ h => by cases h)
  | @freezeRegister r version shard hr =>
    obtain ⟨hlock, hversion⟩ := hfreezing _ _ hr
    refine ⟨?_, ?_, ?_, ?_, ?_⟩
    · exact hwriter.congr rfl rfl rfl rfl fun h => by rw [hlock] at h; cases h
    · exact fun _ => hpub (by simp [hlock])
    · -- the lock has one holder
      intro r' v hr'
      rw [List.getElem?_set] at hr'
      split_ifs at hr' with heq
      · cases hr'
      · have := (hfreezing r' v hr').1
        rw [hlock] at this
        exact absurd (Holder.reader.inj (Option.some.inj this)) heq
    · intro shard' n
      apply counted_set (hcounted shard' n) hr
      simp only [View.new, registered_register, Reader.registeredAt_live]
      apply Nat.le_add_right
    · apply live_set hlive
      rintro _ ⟨⟩
      exact le_rfl
  | @drop r view hr =>
    have hframe : ∃ reg, view.drop w.shared = { w.shared with registry := reg } := by
      rw [View.drop, Shared.unregister]
      split <;> exact ⟨_, rfl⟩
    obtain ⟨reg, hreg⟩ := hframe
    refine ⟨?_, ?_, ?_, ?_, ?_⟩
    · refine hwriter.congr rfl ?_ ?_ ?_ id <;> exact hreg ▸ rfl
    · simp only [hreg]
      exact hpub
    · simp only [hreg]
      exact freezing_set hfreezing (by simp)
    · intro shard' n
      apply counted_set (hcounted shard' n) hr
      simp only [View.drop, registered_unregister, Reader.registeredAt_live]
      exact Nat.le_add_of_sub_le le_rfl
    · exact live_set hlive (by simp)
  | _ => exact ⟨hwriter, hpub, hfreezing, hcounted, hlive⟩

end Step

/-! ## What is stored -/

namespace World

variable {w w' : World}

/-- A step that changes nothing stored keeps what is known of it. -/
theorem Stored.quiet (h : w.Stored) (hext : w.Extends w')
    (htrees : w'.shared.trees = w.shared.trees) (hhistory : w'.history = w.history)
    (hremoved : w'.removed = w.removed) :
  w'.Stored
  where
  bound cf key n hn := by
    rw [hhistory] at hn
    exact le_trans (h.bound cf key n hn) (Nat.succ_le_succ hext.visible)
  faithful v hv cf := by
    rw [htrees, hhistory]
    apply h.faithful v (hext.needed hv)
  removed cf key n s hs := by
    rw [hremoved] at hs
    rw [htrees]
    use le_trans (h.removed cf key n s hs).1 hext.visible, (h.removed cf key n s hs).2

/-- Storing a mutation at the version after the watermark. -/
theorem Stored.insert (h : w.Stored) (m : Mutation) (writer : Writer) :
  World.Stored { w.insert (w.shared.visible + 1) m with writer := writer }
  where
  bound cf key n hn := by
    change (w.insert (w.shared.visible + 1) m).history cf key n ≠ none at hn
    rw [history_insert] at hn
    split_ifs at hn
    · rw [put] at hn
      split_ifs at hn with hc
      · exact hc.2.le
      · exact h.bound cf key n hn
    · exact h.bound cf key n hn
  faithful v hv cf := by
    have hold := h.faithful v hv cf
    intro key
    change Faithful ((w.insert (w.shared.visible + 1) m).history cf)
      (Tree.versions ((w.shared.treeMut m.cf fun t =>
        t.insert (.new m.key (w.shared.visible + 1)) m.slot).trees cf)) key v
    rw [history_insert, versions_treeMut]
    split_ifs
    · rcases Nat.lt_or_ge v (w.shared.visible + 1) with hlt | hge
      · exact (hold key).put hlt
      · apply (hold key).put_newest hge
        intro n' hn'
        by_contra hstored
        exact absurd (h.bound cf m.key n' hstored) (not_le_of_gt hn')
    · apply hold
  removed cf key n s hs := by
    obtain ⟨hle, hnone⟩ := h.removed cf key n s hs
    use hle
    change Tree.versions ((w.shared.treeMut m.cf fun t =>
      t.insert (.new m.key (w.shared.visible + 1)) m.slot).trees cf) key n = none
    rw [versions_treeMut]
    split_ifs
    · rw [put, if_neg, hnone]
      rintro ⟨-, rfl⟩
      exact absurd hle (Nat.not_succ_le_self _)
    · exact hnone

/-- What a removal takes out is the entry it removes. -/
theorem mem_taken {cf' : ColumnFamily} {key : Bytes} {s : Slot}
    (h : (cf', key, n, s) ∈ w.taken cf k) :
  cf' = cf ∧ k = .new key n
  := by
  rw [taken] at h
  split at h
  · rename_i n' slot hversion hslot
    obtain ⟨rfl, rfl, rfl, rfl⟩ : cf' = cf ∧ key = k.key ∧ n = n' ∧ s = slot := by
      simpa using h
    use rfl, VersionedKey.ext rfl hversion
  · cases h

theorem Stored.remove (h : w.Stored) (hspares : w.Spares oldest) {doomed : List VersionedKey}
    (hd : DoomedOk (w.history cf) (w.shared.trees cf) oldest (doomed ++ [k])) :
  (w.remove cf k).Stored
  where
  bound := h.bound
  faithful v hv cf' := by
    have hold := h.faithful v hv cf'
    by_cases hcf : cf' = cf
    · subst hcf
      change FaithfulFrom _ ((w.shared.treeMut cf' fun t => t.erase k).trees cf') v
      rw [trees_treeMut_self]
      exact hd.remove_last.2 v (hspares v hv) hold
    · change FaithfulFrom _ ((w.shared.treeMut cf fun t => t.erase k).trees cf') v
      rw [trees_treeMut_of_ne _ _ hcf]
      exact hold
  removed cf' key n s hs := by
    rw [Tree.versions, getElem?_remove]
    rcases mem_append.mp hs with hs | hs
    · obtain ⟨hle, hnone⟩ := h.removed cf' key n s hs
      use hle
      split_ifs
      · rfl
      · exact hnone
    · obtain ⟨rfl, rfl⟩ := mem_taken hs
      refine ⟨?_, if_pos ⟨rfl, rfl⟩⟩
      obtain ⟨m, hm⟩ := hd.dead (.new key n) (by simp)
      obtain rfl : n = m := WithTop.coe_injective hm.version
      exact le_trans hm.le_oldest hspares.le_visible

end World

/-! ## Collectors -/

/-- The oldest version a collector works with only falls as it reads shards, and falls to
the least version registered in the shard. -/
theorem readShard_le (oldest : ℕ) (shard : RegistryShard) :
  readShard oldest shard ≤ oldest
  := by
  rw [readShard]
  split
  · exact le_rfl
  · apply Nat.min_le_right

theorem readShard_le_registered {s : Shared} (oldest : ℕ) (h : 0 < s.registered shard n) :
  readShard oldest (s.registry shard) ≤ n
  := by
  have hstored : (s.registry shard)[n]? ≠ none := by
    intro hnone
    rw [Shared.registered, hnone] at h
    exact absurd h (lt_irrefl _)
  obtain ⟨first, hhead, hle⟩ := Shared.head?_keys_le hstored
  rw [readShard, hhead]
  exact le_trans (Nat.min_le_left ..) hle

namespace World

variable {w : World}

/-- A live view is counted in the registry. -/
theorem Threads.registered_pos (h : w.Threads) (hview : .live view ∈ w.readers) :
  0 < w.shared.registered view.shard view.registered
  := by
  apply lt_of_lt_of_le _ (h.counted view.shard view.registered)
  exact countP_pos_iff.mpr ⟨_, hview, Reader.registeredAt_live.mpr ⟨rfl, rfl⟩⟩

/-- A move of one collector keeps what is known of all. -/
theorem collectors_moveCollector (h : ∀ c, (w.collectors c).Ok w) {c : ℕ} {next : Collector}
    (hnext : next.Ok w) :
  ∀ c', ((w.moveCollector c next).collectors c').Ok (w.moveCollector c next)
  := by
  intro c'
  simp only [moveCollector, Function.update_apply]
  split_ifs
  · exact hnext
  · apply h

/-- A walk may start from a valid cursor. -/
theorem Spares.start (h : w.Spares leg.oldest) (hc : leg.cursor.Valid) (scanned : ℕ) :
  (leg.start scanned).Ok w
  := ⟨h, rfl, hc.inv ..⟩

/-- After its removals a collector starts another walk, or ends the leg. -/
theorem Spares.proceed {walk : GcWalk} (h : w.Spares leg.oldest) (hresume : walk.ResumesAbove) :
  (leg.proceed walk).Ok w
  := by
  rw [Leg.proceed]
  cases hnext : walk.resume with
  | some next =>
    have hvalid : GcCursor.Valid ⟨leg.cursor.cf, some next, walk.current, walk.kept⟩ :=
      hresume next hnext
    simp only
    split_ifs
    · exact hvalid
    · exact ⟨h, rfl, hvalid.inv ..⟩
  | none =>
    have hvalid : GcCursor.Valid ⟨leg.cursor.cf + 1, none, none, false⟩ := rfl
    simp only
    split_ifs
    · exact rfl
    · exact hvalid
    · exact ⟨h, rfl, hvalid.inv ..⟩

end World

namespace Step

variable {w w' : World}

/-- What is known of the trees is preserved by every step. -/
theorem stored (h : Step w w') (hinv : w.Inv) :
  w'.Stored
  := by
  have hext := h.extends hinv.threads
  cases h with
  | insert hw =>
    have hwriter := hinv.threads.writer
    simp only [World.WriterOk, hw] at hwriter
    obtain ⟨-, rfl⟩ := hwriter
    apply hinv.stored.insert
  | @drop r view hr =>
    have hframe : (view.drop w.shared).trees = w.shared.trees := by
      rw [View.drop, Shared.unregister]
      split <;> rfl
    exact hinv.stored.quiet hext hframe rfl rfl
  | remove hc =>
    obtain ⟨hspares, -, hdoomed⟩ := hinv.ok hc
    exact (hinv.stored.remove hspares hdoomed).quiet (.moveCollector ..) rfl rfl rfl
  | _ => exact hinv.stored.quiet hext rfl rfl rfl

/-- What is known of the collectors is preserved by every step. -/
theorem collectors (h : Step w w') (hinv : w.Inv) :
  ∀ c, (w'.collectors c).Ok w'
  := by
  have hext := h.extends hinv.threads
  have hall := hinv.collectors
  cases h with
  | startLeg scanBudget chunk hc =>
    apply collectors_moveCollector hall
    use hinv.ok hc, le_rfl
    intro view _ hleft
    exact absurd (mem_finRange _) hleft
  | @readShard c cursor scanBudget chunk oldest shard left hc =>
    obtain ⟨hvalid, hle, hlive⟩ := hinv.ok hc
    apply collectors_moveCollector hall
    refine ⟨hvalid, le_trans (readShard_le ..) hle, ?_⟩
    intro view hview hleft
    by_cases hshard : view.shard = shard
    · subst hshard
      exact le_trans (readShard_le_registered _ (hinv.threads.registered_pos hview))
        (hinv.threads.live view hview)
    · apply le_trans (readShard_le ..) (hlive view hview _)
      simp [hshard, hleft]
  | startWalk hc =>
    obtain ⟨hvalid, hle, hlive⟩ := hinv.ok hc
    apply collectors_moveCollector hall
    apply World.Spares.start _ hvalid
    rintro v (hv | ⟨view, hview, rfl⟩)
    · exact le_trans hle hv
    · exact hlive view hview not_mem_nil
  | @visit c leg lo walk e es hc hes =>
    obtain ⟨hspares, hresume, hgc⟩ := hinv.ok hc
    apply collectors_moveCollector hall
    have hkept : ∀ key n s, Tree.versions (w.shared.trees leg.cf) key n = some s →
        w.history leg.cf key n = some s :=
      fun key => (hinv.stored.faithful _ (.inl le_rfl) leg.cf key).kept
    have hvisit := hgc.gcVisit hkept hresume leg.scanBudget leg.chunk hes
    rw [Leg.visited]
    cases hstep : gcVisit leg.oldest leg.scanBudget leg.chunk e walk
    all_goals
      rw [hstep] at hvisit
      exact ⟨hspares, hvisit.2, hvisit.1⟩
  | endWalk hc hes =>
    obtain ⟨hspares, hresume, hgc⟩ := hinv.ok hc
    apply collectors_moveCollector hall
    refine ⟨hspares, ?_, hgc.doomedOk_of_end hes⟩
    intro next hnext
    rw [hresume] at hnext
    cases hnext
  | @remove c leg walk doomed k hc =>
    obtain ⟨hspares, hresume, hdoomed⟩ := hinv.ok hc
    have hremove := World.Extends.remove w leg.cf k
    apply collectors_moveCollector
    · exact fun c' => (hall c').extends hremove
    · use hremove.spares hspares, hresume
      change DoomedOk _ ((w.shared.treeMut leg.cf fun t => t.erase k).trees leg.cf) _ _
      rw [trees_treeMut_self]
      exact hdoomed.remove_last.1
  | proceed hc =>
    obtain ⟨hspares, hresume, -⟩ := hinv.ok hc
    exact collectors_moveCollector hall (hspares.proceed hresume)
  | _ => exact fun c => (hall c).extends hext

theorem inv (h : Step w w') (hinv : w.Inv) :
  w'.Inv
  := ⟨h.threads hinv.threads, h.stored hinv, h.collectors hinv⟩

end Step

theorem World.inv_init :
  World.init.Inv
  where
  threads :=
    { writer := rfl
      published := fun _ => rfl
      freezing := nofun
      counted := fun _ _ => Nat.zero_le _
      live := nofun }
  stored :=
    { bound := fun _ _ _ h => absurd rfl h
      faithful := fun _ _ _ _ => Faithful.refl ..
      removed := nofun }
  collectors _ := rfl

/-- The invariant holds in every reachable world. -/
theorem Reachable.inv (h : Reachable w) :
  w.Inv
  := by
  induction h with
  | refl => exact inv_init
  | tail _ hstep ih => exact hstep.inv ih

/-- A collector that is not interrupted reads all shards left. -/
theorem Reachable.readShards (h : Reachable w) {c : ℕ} {cursor : GcCursor}
    {scanBudget chunk : ℕ} {left : List (Fin registryShards)}
    (hc : w.collectors c = .reading cursor scanBudget chunk oldest left) :
  Reachable (w.moveCollector c (.reading cursor scanBudget chunk
    (left.foldl (fun o shard => readShard o (w.shared.registry shard)) oldest) []))
  := by
  induction left generalizing w oldest with
  | nil =>
    rw [World.moveCollector, foldl_nil, ← hc, Function.update_eq_self]
    exact h
  | cons shard left ih =>
    have hmoved := ih (h.tail (.readShard hc)) (Function.update_self ..)
    simp only [World.moveCollector, Function.update_idem] at hmoved ⊢
    exact hmoved

/-- Whatever the interleaving, no version removed by garbage collection is one that a view
returns: not by a view registered at that time, nor by one that fixed its version later.
Every live view reads, at every key, what it would read had nothing been removed. -/
theorem gc_spares_views {w : World} (h : Reachable w) {view : View}
    (hview : .live view ∈ w.readers) (cf : ColumnFamily) (key : Bytes) :
  (∀ n s, (cf, key, n, s) ∈ w.removed →
      ∀ x, ¬ Newest (w.history cf) key view.version n (some x))
    ∧ ∀ x, Sees (w.history cf) key view.version x → view.get w.shared cf key = x
  := by
  have hfaithful := h.inv.stored.faithful _ (.inr ⟨view, hview, rfl⟩) cf key
  constructor
  · intro n s hremoved x hnewest
    obtain ⟨-, hnone⟩ := h.inv.stored.removed cf key n s hremoved
    rcases hfaithful.newest n _ hnewest with hstored | ⟨hx, -⟩
    · rw [hnone] at hstored
      cases hstored
    · cases hx
  · intro x hx
    exact (View.sees_newestSlot ..).unique (hfaithful.sees hx)

/-- A leg removes the version a later write superseded; a view taken afterwards returns the
later one. -/
theorem gc_spares_views_after_leg :
  ∃ (w : World) (view : View), Reachable w ∧ .live view ∈ w.readers
    ∧ (.default, [1], 1, some [7]) ∈ w.removed
    ∧ view.get w.shared .default [1] = some [8]
  := by
  have first := ((((((Relation.ReflTransGen.refl (r := Step) (a := .init)).tail
    (.begin [.put .default [1] [7]] none rfl rfl rfl)).tail (.insert rfl)).tail
    (.publish rfl rfl)).tail (.store rfl)).tail (.unlock rfl)).tail (.finish rfl)
  have second := (((((first.tail
    (.begin [.put .default [1] [8]] none rfl rfl rfl)).tail (.insert rfl)).tail
    (.publish rfl rfl)).tail (.store rfl)).tail (.unlock rfl)).tail (.finish rfl)
  have started := second.tail (.startLeg (c := 0) 100 100 rfl)
  have read := Reachable.readShards started (c := 0) rfl
  have walked := ((((read.tail (.startWalk (c := 0) rfl)).tail (.visit (c := 0) rfl rfl)).tail
    (.visit (c := 0) rfl rfl)).tail (.endWalk (c := 0) rfl rfl)).tail
    (@Step.remove _ 0 _ _ [] _ rfl)
  have taken := ((walked.tail .load).tail (.register (r := 0) ⟨0, by decide⟩ rfl)).tail
    (.reload (r := 0) rfl)
  refine ⟨_, _, taken, mem_singleton_self _, mem_singleton_self _, ?_⟩
  apply (gc_spares_views taken (mem_singleton_self _) .default [1]).2
  refine .inl ⟨2, by decide, rfl, ?_⟩
  intro n hlt hle
  exact absurd hle (not_le_of_gt hlt)
end Kv9.Engine
