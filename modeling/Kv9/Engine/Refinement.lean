import Kv9.Lib.Machine
import Kv9.Engine.Registry
import Kv9.Engine.Session

/-!
# The versioned engine refines the persistent-map engine

At its watermark the versioned engine shows the maps of the persistent-map engine, and at
the version of every live view it shows the maps of the snapshot taken at the same
instant.  A write stores above the watermark, so that it changes nothing for the views;
garbage collection removes nothing a view at a registered version or above reads.  Every
call therefore preserves the relation, and related sessions answer alike.
-/

namespace Kv9.Engine

open OrderedMap Versions

/-! ## Writes -/

/-- A mutation stores its slot at its key, and changes nothing else. -/
theorem MemState.getElem?_applyMutation (t : MemState) (m : Mutation) (cf : ColumnFamily)
    (key : Bytes) :
  ((t.applyMutation m).cf cf)[key]?
    = if cf = m.cf ∧ key = m.key then m.slot else (t.cf cf)[key]?
  := by
  have happly : t.applyMutation m = t.cfMut m.cf fun map =>
      match m.slot with
      | some value => map.insert m.key value
      | none => map.erase m.key := by
    cases m <;> rfl
  rw [happly]
  by_cases hcf : cf = m.cf
  · subst hcf
    rw [cf_cfMut_self]
    cases m.slot with
    | some value =>
      simp only [getElem?_insert, true_and]
      simp [eq_comm]
    | none =>
      simp only [getElem?_erase, true_and]
      simp [eq_comm]
  · rw [cf_cfMut_of_ne _ _ hcf, if_neg fun hc => hcf hc.1]

theorem MemState.applied_applyMutation (t : MemState) (m : Mutation) :
  (t.applyMutation m).applied = t.applied
  := by
  cases m <;> apply applied_cfMut

theorem MemState.applied_writeBatch (t : MemState) (batch : WriteBatch) :
  (t.writeBatch batch).applied = t.applied
  := by
  rw [writeBatch]
  induction batch generalizing t with
  | nil => rfl
  | cons m batch ih => rw [List.foldl_cons, ih, applied_applyMutation]

/-- `s` shows at `version` the maps of `t`, in every column family. -/
def ShowsAll (s : Shared) (version : ℕ) (t : MemState) : Prop :=
  ∀ cf, View.Shows (s.trees cf) version (t.cf cf)

/-- Every stored version is not above `n`. -/
def StoredUpTo (s : Shared) (n : ℕ) : Prop :=
  ∀ cf key n', Tree.versions (s.trees cf) key n' ≠ none → n' ≤ n

variable {s : Shared} {t : MemState}

/-- With nothing stored above `v`, a reader above `v` sees what a reader at `v` sees. -/
theorem ShowsAll.mono {v w : ℕ} (h : ShowsAll s v t) (hs : StoredUpTo s v) (hvw : v ≤ w) :
  ShowsAll s w t
  := by
  intro cf key
  apply (h cf key).mono hvw
  intro n hlt _
  by_contra hstored
  exact absurd (hs cf key n hstored) (not_le_of_gt hlt)

variable {version : ℕ}

/-- A mutation stored at `version` is what a reader at `version` sees. -/
theorem ShowsAll.applyMutation (h : ShowsAll s version t) (m : Mutation) :
  ShowsAll (s.treeMut m.cf fun t => t.insert (.new m.key version) m.slot) version
    (t.applyMutation m)
  := by
  intro cf key
  rw [versions_treeMut, MemState.getElem?_applyMutation]
  by_cases hcf : cf = m.cf
  · rw [if_pos hcf]
    by_cases hkey : key = m.key
    · rw [if_pos ⟨hcf, hkey⟩, hkey]
      apply sees_put_self
    · rw [if_neg fun hc => hkey hc.2]
      exact (h cf key).put_of_ne hkey
  · rw [if_neg hcf, if_neg fun hc => hcf hc.1]
    apply h

/-- A mutation stored above `v` changes nothing for a reader at `v`. -/
theorem ShowsAll.treeMut_of_lt {v : ℕ} (h : ShowsAll s v t) (hv : v < version) (m : Mutation) :
  ShowsAll (s.treeMut m.cf fun t => t.insert (.new m.key version) m.slot) v t
  := by
  intro cf key
  rw [versions_treeMut]
  split_ifs
  · exact (h cf key).put_of_lt hv
  · apply h

theorem StoredUpTo.treeMut (h : StoredUpTo s version) (m : Mutation) :
  StoredUpTo (s.treeMut m.cf fun t => t.insert (.new m.key version) m.slot) version
  := by
  intro cf key n hstored
  rw [versions_treeMut] at hstored
  split_ifs at hstored
  · rw [put] at hstored
    split_ifs at hstored with hc
    · exact hc.2.le
    · exact h cf key n hstored
  · exact h cf key n hstored

/-- What inserting a whole batch at `version` does: a reader at `version` sees the batch, a
reader below sees no change, and nothing but the trees changes. -/
structure Inserted (s : Shared) (version : ℕ) (batch : WriteBatch) (s' : Shared) : Prop where
  frame : s' = { s with trees := s'.trees }
  shows_self : ∀ t, ShowsAll s version t → ShowsAll s' version (t.writeBatch batch)
  shows_below : ∀ v t, v < version → ShowsAll s v t → ShowsAll s' v t
  stored : StoredUpTo s version → StoredUpTo s' version

theorem Inserted.nil (s : Shared) (version : ℕ) :
  Inserted s version [] s
  where
  frame := rfl
  shows_self _ h := h
  shows_below _ _ _ h := h
  stored h := h

variable {s' : Shared}

theorem Inserted.cons {m : Mutation} {batch : WriteBatch}
    (h : Inserted (s.treeMut m.cf fun t => t.insert (.new m.key version) m.slot) version batch s') :
  Inserted s version (m :: batch) s'
  where
  frame := by
    rw [h.frame]
    rfl
  shows_self t ht := h.shows_self _ (ht.applyMutation m)
  shows_below v t hv ht := h.shows_below v t hv (ht.treeMut_of_lt hv m)
  stored hs := h.stored (hs.treeMut m)

theorem insertAll_inserted (s : Shared) (version : ℕ) (batch : WriteBatch) (i : ℕ) :
  Inserted s version batch (s.insertAll version (fun _ => true) batch i).1
    ∧ (s.insertAll version (fun _ => true) batch i).2 = .ok ()
  := by
  induction batch generalizing s i with
  | nil => exact ⟨.nil s version, rfl⟩
  | cons m batch ih =>
    obtain ⟨hins, hok⟩ := ih (s.treeMut m.cf fun t => t.insert (.new m.key version) m.slot) (i + 1)
    use hins.cons, hok

/-! ## Engines that match -/

/-- The versioned engine shows at its watermark the state of the persistent-map engine,
and the watermark is the last version handed out. -/
structure Matches (s : Shared) (t : MemState) : Prop where
  current : ShowsAll s s.visible t
  stored : StoredUpTo s s.visible
  writer : s.writer = s.visible
  published : s.published.version = s.visible
  applied : s.published.applied = t.applied

/-- What a call keeps of the views: they stay registered, the watermark does not go back,
and nothing changes for a reader at a version up to the watermark that is not below a
registered one. -/
structure KeepsViews (s s' : Shared) : Prop where
  registered : ∀ shard n, s'.registered shard n = s.registered shard n
  visible : s.visible ≤ s'.visible
  shows : ∀ v t, v ≤ s.visible → (∃ shard n, n ≤ v ∧ 0 < s.registered shard n) →
    ShowsAll s v t → ShowsAll s' v t

/-- A batch applied by both engines keeps them matching. -/
theorem Matches.apply (h : Matches s t) (batch : WriteBatch) (pos : Option AppliedPosition)
    (t' : MemState) (hpos : s.refuses pos = none)
    (ht' : ∀ cf, t'.cf cf = (t.writeBatch batch).cf cf)
    (happlied : t'.applied = if pos.isSome then pos else t.applied) :
  let r := s.apply batch pos fun _ => true
  r.2 = .ok () ∧ Matches r.1 t' ∧ KeepsViews s r.1
  := by
  obtain ⟨hins, hok⟩ := insertAll_inserted s (s.writer + 1) batch 0
  have happly : s.apply batch pos (fun _ => true)
      = ((s.insertAll (s.writer + 1) (fun _ => true) batch 0).1.publish (s.writer + 1) pos
          (batch.any fun m => changesDataRevision m.cf m.key), .ok ()) := by
    rw [Shared.apply, hpos]
    simp only
    generalize s.insertAll (s.writer + 1) (fun _ => true) batch 0 = r at hok
    obtain ⟨s', e⟩ := r
    obtain rfl : e = .ok () := hok
    rfl
  simp only [happly]
  have hlt : s.visible < s.writer + 1 := by
    rw [h.writer]
    apply Nat.lt_succ_self
  refine ⟨trivial, ⟨?_, ?_, rfl, rfl, ?_⟩, ⟨?_, ?_, ?_⟩⟩
  · intro cf
    rw [ht']
    apply hins.shows_self t (h.current.mono h.stored hlt.le)
  · apply hins.stored
    intro cf key n hn
    exact le_trans (h.stored cf key n hn) hlt.le
  · rw [happlied, ← h.applied, Shared.publish, hins.frame]
  · intro shard n
    rw [hins.frame]
    rfl
  · exact hlt.le
  · intro v w hv _ hw
    exact hins.shows_below v w (lt_of_le_of_lt hv hlt) hw

theorem KeepsViews.trans {s'' : Shared} (h : KeepsViews s s') (h' : KeepsViews s' s'') :
  KeepsViews s s''
  where
  registered shard n := (h'.registered shard n).trans (h.registered shard n)
  visible := le_trans h.visible h'.visible
  shows v t hv hreg ht := by
    apply h'.shows v t (le_trans hv h.visible)
    · obtain ⟨shard, n, hn, hpos⟩ := hreg
      use shard, n, hn, by rwa [h.registered]
    · exact h.shows v t hv hreg ht

/-! ## Range deletes -/

theorem MemState.cfMut_cfMut (t : MemState) (cf : ColumnFamily) (f g : CfMap → CfMap) :
  (t.cfMut cf f).cfMut cf g = t.cfMut cf fun m => g (f m)
  := by
  cases cf
  · rfl
  · rfl
  · rfl

theorem MemState.writeBatch_deletes (t : MemState) (cf : ColumnFamily) (keys : List Bytes) :
  t.writeBatch (keys.map fun k => .delete cf k)
    = t.cfMut cf fun m => keys.foldl (fun m k => m.erase k) m
  := by
  rw [writeBatch]
  induction keys generalizing t with
  | nil => cases cf <;> rfl
  | cons k keys ih =>
    rw [List.map_cons, List.foldl_cons, ih, applyMutation, cfMut_cfMut]
    rfl

/-- A view shows no more rows than there are stored entries. -/
theorem View.Shows.length_rows_le {t : Tree} {m : OrderedMap Bytes Value} (h : Shows t version m)
    (start : Bytes) (stop : Option Bytes) :
  (range m (.included start) (stopBound stop)).length ≤ t.size
  := by
  have hlive : ∀ d (es : List (VersionedKey × Slot)), (live version d es).length ≤ es.length := by
    intro d es
    induction es generalizing d with
    | nil => exact le_rfl
    | cons e es ih =>
      obtain ⟨k, v⟩ := e
      simp only [live]
      split_ifs
      · exact le_trans (ih _) (Nat.le_succ _)
      · exact le_trans (ih _) (Nat.le_succ _)
      · cases v with
        | none => exact le_trans (ih _) (Nat.le_succ _)
        | some value => exact Nat.succ_le_succ (ih _)
  rw [← live_range h]
  exact le_trans (hlive _ _) (length_range_le ..)

/-- A range delete of the persistent-map engine is a batch of deletes. -/
theorem MemState.deleteRange_eq_writeBatch (t : MemState) (cf : ColumnFamily) (start stop : Bytes) :
  t.deleteRange cf start stop
    = t.writeBatch ((t.rows cf start stop).map fun e => .delete cf e.1)
  := by
  have hdeletes := t.writeBatch_deletes cf ((t.rows cf start stop).map Prod.fst)
  rw [List.map_map] at hdeletes
  apply hdeletes.symm

variable {v : View} {w : MemState} {cf : ColumnFamily} {oldest n id : ℕ}
  {c : Session Shared View Pages} {d : Session MemState MemState (List ScanEntry)}

/-- The walk of a range delete finds the rows shown at the last version handed out, and changes
nothing but the registry. -/
theorem Shared.walkRange_eq (hshows : View.Shows (s.trees cf) s.writer (t.cf cf))
    (shard : Fin registryShards) (start stop : Bytes) :
  ∃ reg, s.walkRange shard cf start stop
      = ({ s with registry := reg }, (t.rows cf start stop).map fun e => .delete cf e.1)
    ∧ KeepsViews s { s with registry := reg }
  := by
  -- the rows read through the temporary view are those of the map
  have hscan : View.page (s.trees cf) s.writer start (some stop) (s.trees cf).size
      = t.rows cf start stop := by
    rw [View.page_eq hshows, List.take_of_length_le]
    · rfl
    · apply hshows.length_rows_le
  have hdrop : (s.register shard s.writer).unregister shard s.writer
      = { s with registry := ((s.register shard s.writer).unregister shard s.writer).registry } := by
    rw [Shared.unregister]
    split <;> rfl
  use ((s.register shard s.writer).unregister shard s.writer).registry
  constructor
  · rw [← hscan, ← hdrop]
    rfl
  · use fun shard' n => ?_, le_rfl, fun _ _ _ _ hw => hw
    have hcount := Shared.registered_unregister (s.register shard s.writer) shard shard' s.writer n
    rw [Shared.registered_register, Nat.add_sub_cancel] at hcount
    apply hcount

/-- The walk of a range delete finds the rows of the map, and leaves the engine as it was. -/
theorem Matches.walkRange (h : Matches s t) (shard : Fin registryShards) (cf : ColumnFamily)
    (start stop : Bytes) :
  (s.walkRange shard cf start stop).2 = (t.rows cf start stop).map (fun e => .delete cf e.1)
    ∧ Matches (s.walkRange shard cf start stop).1 t
    ∧ KeepsViews s (s.walkRange shard cf start stop).1
  := by
  obtain ⟨reg, hwalk, hkeep⟩ := Shared.walkRange_eq (h.writer ▸ h.current cf) shard start stop
  rw [hwalk]
  exact ⟨rfl, ⟨h.1, h.2, h.3, h.4, h.5⟩, hkeep⟩

/-- The tombstones of a range delete are a batch. -/
theorem Matches.bury (h : Matches s t) (batch : WriteBatch) :
  let r := s.bury batch fun _ => true
  r.2 = .ok () ∧ Matches r.1 (t.writeBatch batch) ∧ KeepsViews s r.1
  := by
  simp only [Shared.bury]
  split_ifs with hempty
  · rw [List.isEmpty_iff.mp hempty]
    exact ⟨rfl, h, fun _ _ => rfl, le_rfl, fun _ _ _ _ hw => hw⟩
  · apply h.apply batch none _ rfl (fun _ => rfl)
    rw [MemState.applied_writeBatch]
    rfl

/-- A range delete by both engines keeps them matching. -/
theorem Matches.deleteRange (h : Matches s t) (shard : Fin registryShards) (cf : ColumnFamily)
    (start stop : Bytes) :
  let r := s.deleteRange shard cf start stop fun _ => true
  r.2 = .ok () ∧ Matches r.1 (t.deleteRange cf start stop) ∧ KeepsViews s r.1
  := by
  obtain ⟨hbatch, hmatch, hkeep⟩ := h.walkRange shard cf start stop
  obtain ⟨hok, hmatch', hkeep'⟩ := hmatch.bury (s.walkRange shard cf start stop).2
  rw [t.deleteRange_eq_writeBatch, ← hbatch]
  exact ⟨hok, hmatch', hkeep.trans hkeep'⟩

/-! ## Garbage collection -/

theorem Thins.showsAll {v : ℕ} (h : Thins oldest s s') (hv : oldest ≤ v) (hw : ShowsAll s v w) :
  ShowsAll s' v w
  := fun cf key => (h.faithful cf v hv key).sees (hw cf key)

theorem Thins.storedUpTo (h : Thins oldest s s') (hs : StoredUpTo s n) :
  StoredUpTo s' n
  := by
  intro cf key m hstored
  obtain ⟨x, hx⟩ := Option.ne_none_iff_exists'.mp hstored
  apply hs
  rw [show Tree.versions (s.trees cf) key m = some x from h.stored cf _ x hx]
  apply Option.some_ne_none

/-- A leg of garbage collection keeps the views as they are. -/
theorem Thins.keepsViews (h : Thins s.oldestLiveVersion s s') :
  KeepsViews s s'
  where
  registered shard n := by
    rw [h.frame]
    rfl
  visible := by
    rw [h.frame]
  shows := by
    rintro v w - ⟨shard, n, hn, hpos⟩ hw
    exact h.showsAll (le_trans (Shared.oldestLiveVersion_le_of_registered hpos) hn) hw

/-- A leg of garbage collection keeps the engines matching and the views as they are. -/
theorem Matches.gcStep (h : Matches s t) {cursor : GcCursor} (hc : cursor.Valid)
    (chunk scanBudget : ℕ) :
  Matches (gcStepWith chunk s cursor scanBudget).1 t
    ∧ KeepsViews s (gcStepWith chunk s cursor scanBudget).1
  := by
  have hthin := (gcStepWith_thins chunk s hc scanBudget).1
  generalize (gcStepWith chunk s cursor scanBudget).1 = s' at hthin
  have hvisible : s'.visible = s.visible := by rw [hthin.frame]
  refine ⟨⟨?_, ?_, ?_, ?_, ?_⟩, hthin.keepsViews⟩
  · rw [hvisible]
    exact hthin.showsAll s.oldestLiveVersion_le_visible h.current
  · rw [hvisible]
    exact hthin.storedUpTo h.stored
  · rw [hthin.frame]
    exact h.writer
  · rw [hthin.frame]
    exact h.published
  · rw [hthin.frame]
    exact h.applied

/-! ## Sessions -/

/-- A view that shows a snapshot and is registered at or below the version it reads at. -/
structure Holds (s : Shared) (v : View) (w : MemState) : Prop where
  registered : v.registered ≤ v.version
  version : v.version ≤ s.visible
  shows : ShowsAll s v.version w

/-- Whether a view is live and registered in `shard` at version `n`. -/
def countedAt (shard : Fin registryShards) (n : ℕ) (v : Option View) : Bool :=
  v.any fun v => decide (v.shard = shard ∧ v.registered = n)

theorem countedAt_some {shard : Fin registryShards} :
  countedAt shard n (some v) = true ↔ shard = v.shard ∧ n = v.registered
  := by
  rw [countedAt, Option.any_some, decide_eq_true_eq, eq_comm, eq_comm (a := n)]

/-- Iterators of one snapshot that have the same rows to hand out. -/
def Continues (c : Session Shared View Pages) (d : Session MemState MemState (List ScanEntry))
    (p : ℕ × Pages) (rows : ℕ × List ScanEntry) : Prop :=
  p.1 = rows.1 ∧ p.1 < c.snapshots.length ∧
    ∀ v w, c.live p.1 = some v → d.live p.1 = some w →
      p.2.view = v ∧ p.2.remaining (w.cf p.2.cf) = rows.2

/-- Iterators continue alike as long as their snapshot, if it is live, is the same. -/
theorem Continues.of_live {c' : Session Shared View Pages}
    {d' : Session MemState MemState (List ScanEntry)} {p : ℕ × Pages} {rows : ℕ × List ScanEntry}
    (h : Continues c d p rows) (hlen : c.snapshots.length ≤ c'.snapshots.length)
    (hc : ∀ v, c'.live p.1 = some v → c.live p.1 = some v)
    (hd : ∀ w, d'.live p.1 = some w → d.live p.1 = some w) :
  Continues c' d' p rows
  := ⟨h.1, lt_of_lt_of_le h.2.1 hlen, fun v w hv hw => h.2.2 v w (hc v hv) (hd w hw)⟩

/-- Sessions with the two engines after the same calls. -/
structure Related (c : Session Shared View Pages)
    (d : Session MemState MemState (List ScanEntry)) : Prop where
  engine : Matches c.engine d.engine
  taken : c.snapshots.length = d.snapshots.length
  snapshots : ∀ id, Option.Rel (Holds c.engine) (c.live id) (d.live id)
  counted : ∀ shard n, c.snapshots.countP (countedAt shard n) ≤ c.engine.registered shard n
  opened : c.iterators.length = d.iterators.length
  iterators : ∀ id : ℕ, Option.Rel (Continues c d) c.iterators[id]? d.iterators[id]?

theorem related_start :
  Related (.start .new) (.start .empty)
  where
  engine := by
    refine ⟨?_, ?_, rfl, rfl, rfl⟩
    · intro cf key
      refine .inr ⟨?_, ?_⟩
      · cases cf <;> rfl
      · exact fun _ _ => rfl
    · intro cf key n hstored
      exact absurd rfl hstored
  taken := rfl
  snapshots _ := .none
  counted _ _ := Nat.zero_le _
  opened := rfl
  iterators _ := .none

namespace Related

variable {c : Session Shared View Pages} {d : Session MemState MemState (List ScanEntry)}

/-- A live view is counted in the registry. -/
theorem registered_pos (h : Related c d) (hv : c.live id = some v) :
  0 < c.engine.registered v.shard v.registered
  := by
  apply lt_of_lt_of_le _ (h.counted v.shard v.registered)
  rw [Session.live, Option.join_eq_some_iff] at hv
  apply List.countP_pos_iff.mpr
  use some v, List.mem_of_getElem? hv, countedAt_some.mpr ⟨rfl, rfl⟩

/-- A call that keeps the views keeps sessions related. -/
theorem keeps (h : Related c d) (hmatch : Matches s t) (hkeep : KeepsViews c.engine s) :
  Related { c with engine := s } { d with engine := t }
  where
  engine := hmatch
  taken := h.taken
  snapshots id := by
    apply (h.snapshots id).imp
    intro v w hv _ hholds
    use hholds.registered, le_trans hholds.version hkeep.visible
    apply hkeep.shows _ _ hholds.version _ hholds.shows
    use v.shard, v.registered, hholds.registered, h.registered_pos hv
  counted shard n := by
    rw [hkeep.registered]
    apply h.counted
  opened := h.opened
  iterators := h.iterators

end Related

namespace Session

variable {σ ω ι : Type}

theorem live_append (c : Session σ ω ι) (s : σ) (o : Option ω) (id : ℕ) :
  live { c with engine := s, snapshots := c.snapshots ++ [o] } id
    = if id = c.snapshots.length then o else c.live id
  := by
  rw [live, live, List.getElem?_append]
  split_ifs with hlt heq heq
  · omega
  · rfl
  · simp [heq]
  · rw [List.getElem?_eq_none (l := c.snapshots) (not_lt.mp hlt), List.getElem?_eq_none]
    simp only [List.length_singleton]
    omega

theorem live_set (c : Session σ ω ι) (s : σ) (id id' : ℕ) :
  live { c with engine := s, snapshots := c.snapshots.set id none } id'
    = if id' = id then none else c.live id'
  := by
  rw [live, live, List.getElem?_set]
  by_cases heq : id' = id
  · subst heq
    split_ifs <;> rfl
  · rw [if_neg (Ne.symm heq), if_neg heq]

end Session

namespace Related

variable {c : Session Shared View Pages} {d : Session MemState MemState (List ScanEntry)}

/-- Taking a snapshot of both engines keeps sessions related. -/
theorem snapshot (h : Related c d) (shard : Fin registryShards) :
  Related
    { c with
      engine := c.engine.register shard c.engine.visible
      snapshots := c.snapshots ++ [some ⟨c.engine.visible, shard, c.engine.visible⟩] }
    { d with snapshots := d.snapshots ++ [some d.engine] }
  where
  engine := ⟨h.engine.1, h.engine.2, h.engine.3, h.engine.4, h.engine.5⟩
  taken := by simp [h.taken]
  snapshots id := by
    rw [Session.live_append, show d = { d with engine := d.engine } from rfl, Session.live_append,
      h.taken]
    split_ifs
    · exact .some ⟨le_rfl, le_rfl, h.engine.current⟩
    · exact (h.snapshots id).imp fun _ _ _ _ hholds => ⟨hholds.1, hholds.2, hholds.3⟩
  counted shard' n := by
    rw [List.countP_append, Shared.registered_register]
    apply Nat.add_le_add (h.counted shard' n)
    rw [List.countP_singleton]
    simp only [countedAt_some, le_refl]
  opened := h.opened
  iterators id := by
    apply (h.iterators id).imp
    intro p rows _ _ hp
    apply hp.of_live
    · simp
    · intro v hv
      rwa [Session.live_append, if_neg hp.2.1.ne] at hv
    · intro w hw
      rwa [show d = { d with engine := d.engine } from rfl, Session.live_append,
        if_neg (h.taken ▸ hp.2.1.ne)] at hw

/-- Dropping a snapshot of both engines keeps sessions related. -/
theorem drop (h : Related c d) (hv : c.live id = some v) :
  Related
    { c with
      engine := v.drop c.engine
      snapshots := c.snapshots.set id none }
    { d with snapshots := d.snapshots.set id none }
  := by
  have hframe : ∃ reg, v.drop c.engine = { c.engine with registry := reg } := by
    rw [View.drop, Shared.unregister]
    split
    · exact ⟨_, rfl⟩
    · exact ⟨_, rfl⟩
  have hlive : ∀ (id' : ℕ) (w : MemState),
      Session.live { d with snapshots := d.snapshots.set id none } id' = some w →
        id' ≠ id ∧ d.live id' = some w := by
    intro id' w hw
    rw [Session.live_set] at hw
    split_ifs at hw with heq
    use heq, hw
  constructor
  · obtain ⟨reg, hreg⟩ := hframe
    rw [hreg]
    use h.engine.1, h.engine.2, h.engine.3, h.engine.4, h.engine.5
  · simp [h.taken]
  · intro id'
    rw [Session.live_set, Session.live_set]
    split_ifs
    · exact .none
    · apply (h.snapshots id').imp
      obtain ⟨reg, hreg⟩ := hframe
      rw [hreg]
      exact fun _ _ _ _ hholds => ⟨hholds.1, hholds.2, hholds.3⟩
  · intro shard n
    rw [Session.live, Option.join_eq_some_iff] at hv
    obtain ⟨hlt, hget⟩ := List.getElem?_eq_some_iff.mp hv
    rw [List.countP_set hlt, View.drop, Shared.registered_unregister, hget]
    have hcount := h.counted shard n
    have hnone : countedAt shard n none = false := rfl
    simp only [countedAt_some, hnone, Bool.false_eq_true, if_false]
    omega
  · exact h.opened
  · intro id'
    apply (h.iterators id').imp
    intro p rows _ _ hp
    apply hp.of_live
    · simp
    · intro v hv
      rw [Session.live_set] at hv
      split_ifs at hv
      exact hv
    · exact fun w hw => (hlive _ w hw).2

/-- A read through a snapshot answers alike when it does on every view and snapshot that
match. -/
theorem read (h : Related c d) (id : ℕ) {f : View → Answer} {g : MemState → Answer}
    (hfg : ∀ v w, Holds c.engine v w → f v = g w) :
  (c.read id f).2 = (d.read id g).2
  := by
  rw [Session.read, Session.read]
  rcases Option.rel_iff.mp (h.snapshots id) with ⟨hv, hw⟩ | ⟨v, w, hv, hw, hholds⟩
  · rw [hv, hw]
    rfl
  · rw [hv, hw]
    exact hfg v w hholds

/-- A new iterator over a view continues like the rows of the snapshot. -/
theorem openIterator (h : Related c d) (id : ℕ) {f : View → Pages}
    {g : MemState → List ScanEntry} (hview : ∀ v, (f v).view = v)
    (hrows : ∀ v (w : MemState), (f v).remaining (w.cf (f v).cf) = g w) :
  (c.openIterator id f).2 = (d.openIterator id g).2
    ∧ Related (c.openIterator id f).1 (d.openIterator id g).1
  := by
  rw [Session.openIterator, Session.openIterator]
  rcases Option.rel_iff.mp (h.snapshots id) with ⟨hv, hw⟩ | ⟨v, w, hv, hw, hholds⟩
  · rw [hv, hw]
    exact ⟨rfl, h⟩
  · rw [hv, hw]
    simp only [h.opened, true_and]
    refine { h with opened := by simp [h.opened], iterators := ?_ }
    intro id'
    simp only [List.getElem?_append, h.opened]
    split_ifs with hlt
    · apply h.iterators
    · rcases Nat.eq_zero_or_pos (id' - d.iterators.length) with hzero | hpos
      · rw [hzero]
        refine .some ⟨rfl, ?_, ?_⟩
        · rw [Session.live, Option.join_eq_some_iff] at hv
          exact (List.getElem?_eq_some_iff.mp hv).1
        · intro v' w' hv' hw'
          obtain rfl := Option.some.inj (hv.symm.trans hv')
          obtain rfl := Option.some.inj (hw.symm.trans hw')
          exact ⟨hview v, hrows v w⟩
      · rw [List.getElem?_eq_none hpos, List.getElem?_eq_none hpos]
        exact .none

/-- An iterator stays on its view and column family. -/
theorem frame_next (s : Shared) (p : Pages) :
  (p.next s).1.view = p.view ∧ (p.next s).1.cf = p.cf
  := by
  have hrefill : (p.refill s).view = p.view ∧ (p.refill s).cf = p.cf := by
    simp only [Pages.refill]
    split_ifs <;> cases (p.fetched s).getLast? <;> exact ⟨rfl, rfl⟩
  simp only [Pages.next]
  split_ifs
  · cases (p.refill s).buffer <;> exact hrefill
  · cases p.buffer <;> exact ⟨rfl, rfl⟩

theorem next (h : Related c d) (id : ℕ) :
  (c.step versioned (.next id)).2 = (d.step persistent (.next id)).2
    ∧ Related (c.step versioned (.next id)).1 (d.step persistent (.next id)).1
  := by
  simp only [Session.step]
  rcases Option.rel_iff.mp (h.iterators id) with ⟨hp, hr⟩ | ⟨⟨i, p⟩, ⟨j, rows⟩, hp, hr, hcont⟩
  · rw [hp, hr]
    exact ⟨rfl, h⟩
  · obtain ⟨rfl, hlt, hrest⟩ := hcont
    rw [hp, hr]
    simp only
    rcases Option.rel_iff.mp (h.snapshots i) with ⟨hv, hw⟩ | ⟨v, w, hv, hw, hholds⟩
    · rw [hv, hw]
      exact ⟨rfl, h⟩
    · rw [hv, hw]
      obtain ⟨rfl, hrows⟩ := hrest v w hv hw
      obtain ⟨hrow, hrest'⟩ := Pages.next_eq (hholds.shows p.cf)
      obtain ⟨hview, hcf⟩ := frame_next c.engine p
      rw [hrows] at hrow hrest'
      simp only [versioned, persistent, hrow, true_and]
      refine { h with opened := by simp [h.opened], iterators := ?_ }
      intro id'
      simp only [List.getElem?_set, h.opened]
      split_ifs
      · refine .some ⟨rfl, hlt, ?_⟩
        intro v' w' hv' hw'
        obtain rfl := Option.some.inj (hv.symm.trans hv')
        obtain rfl := Option.some.inj (hw.symm.trans hw')
        use hview, by rw [hcf, hrest']
      · exact .none
      · apply h.iterators

end Related

/-- A batch at a replicated position is refused by both engines alike, or applied. -/
theorem Matches.writeApplied (h : Matches s t) (batch : WriteBatch) (pos : AppliedPosition) :
  (versioned.writeApplied s batch pos).2 = (persistent.writeApplied t batch pos).2
    ∧ Matches (versioned.writeApplied s batch pos).1 (persistent.writeApplied t batch pos).1
    ∧ KeepsViews s (versioned.writeApplied s batch pos).1
  := by
  have happlied : ∀ cf, (t.record batch pos).cf cf = (t.writeBatch batch).cf cf := by
    intro cf
    cases cf <;> rfl
  have hok : s.refuses (some pos) = none → t.writeApplied batch pos = .ok (t.record batch pos) →
      (versioned.writeApplied s batch pos).2 = (persistent.writeApplied t batch pos).2
        ∧ Matches (versioned.writeApplied s batch pos).1 (persistent.writeApplied t batch pos).1
        ∧ KeepsViews s (versioned.writeApplied s batch pos).1 := by
    intro hrefuses hwrite
    simp only [persistent, hwrite]
    exact h.apply batch _ _ hrefuses happlied rfl
  cases hprev : t.applied with
  | none =>
    apply hok
    · simp [Shared.refuses, h.applied, hprev]
    · rw [MemState.writeApplied, hprev]
  | some previous =>
    by_cases hle : pos.index ≤ previous.index
    · have hrefuses : s.refuses (some pos)
          = some (.positionMustAdvance previous.index pos.index) := by
        simp only [Shared.refuses, h.applied, hprev]
        exact if_pos hle
      have hwrite : t.writeApplied batch pos
          = .error (.positionMustAdvance previous.index pos.index) := by
        rw [MemState.writeApplied, hprev]
        exact if_pos hle
      simp only [versioned, persistent, Shared.apply, hrefuses, hwrite, true_and]
      exact ⟨h, fun _ _ => rfl, le_rfl, fun _ _ _ _ hw => hw⟩
    · apply hok
      · simp only [Shared.refuses, h.applied, hprev]
        exact if_neg hle
      · rw [MemState.writeApplied, hprev]
        exact if_neg hle

/-- The range up to `target` is the range below the key that follows it. -/
theorem range_included_eq (m : CfMap) (target : Bytes) :
  range m .unbounded (.included target) = range m (.included []) (.excluded target.next)
  := by
  apply (ascending_range ..).ext (ascending_range ..)
  intro e
  rw [mem_range, mem_range, Bound.above_excluded, Bytes.lt_next_iff]
  have hnil : ([] : Bytes) ≤ e.1 := not_lt.mp (List.not_lt_nil e.1)
  simp [hnil]

/-- A floor probe finds the greatest key not above the target. -/
theorem View.seekLe_eq (h : Shows (s.trees cf) v.version (w.cf cf)) {target : Bytes} :
  v.seekLe s cf target = w.seekLe cf target
  := by
  rw [seekLe, MemState.seekLe, pageRev_eq h, range_included_eq]
  generalize range (w.cf cf) (.included []) (.excluded target.next) = rows
  rw [← List.head?_reverse (l := rows)]
  cases rows.reverse with
  | nil => rfl
  | cons e es => rfl

/-- Every call keeps sessions related and answers alike. -/
theorem Related.step (h : Related c d) (call : Call) :
  (c.step versioned call).2 = (d.step persistent call).2
    ∧ Related (c.step versioned call).1 (d.step persistent call).1
  := by
  cases call with
  | writeBatch batch =>
    obtain ⟨hok, hmatch, hkeep⟩ := h.engine.apply batch none _ rfl (fun _ => rfl)
      (MemState.applied_writeBatch ..)
    exact ⟨congrArg Answer.done hok, h.keeps hmatch hkeep⟩
  | writeApplied batch pos =>
    obtain ⟨hresult, hmatch, hkeep⟩ := h.engine.writeApplied batch pos
    exact ⟨congrArg Answer.done hresult, h.keeps hmatch hkeep⟩
  | deleteRange shard cf start stop =>
    obtain ⟨hok, hmatch, hkeep⟩ := h.engine.deleteRange shard cf start stop
    exact ⟨congrArg Answer.done hok, h.keeps hmatch hkeep⟩
  | snapshot shard =>
    have hcurrent : View.current c.engine shard = (c.engine.register shard c.engine.visible,
          ⟨c.engine.visible, shard, c.engine.visible⟩) := by
      rw [View.current]
      simp [Shared.register]
    simp only [Session.step, versioned, persistent, hcurrent, h.taken, true_and]
    apply h.snapshot
  | positionedSnapshot shard =>
    simp only [Session.step, versioned, persistent, Shared.freezeParts, View.new,
      h.engine.published, h.engine.applied, h.taken, true_and]
    apply h.snapshot
  | drop id =>
    simp only [Session.step]
    rcases Option.rel_iff.mp (h.snapshots id) with ⟨hv, hw⟩ | ⟨v, w, hv, hw, -⟩
    · rw [hv, hw]
      exact ⟨rfl, h⟩
    · rw [hv, hw]
      exact ⟨rfl, h.drop hv⟩
  | gcStep cursor chunk scanBudget =>
    obtain ⟨hmatch, hkeep⟩ := h.engine.gcStep cursor.2 chunk scanBudget
    exact ⟨rfl, h.keeps hmatch hkeep⟩
  | get id cf key =>
    refine ⟨h.read id ?_, h⟩
    intro v w hholds
    exact congrArg Answer.value ((hholds.shows cf).newestSlot key)
  | scan id cf start stop limit =>
    refine ⟨h.read id ?_, h⟩
    intro v w hholds
    exact congrArg Answer.rows (View.page_eq (hholds.shows cf) start (some stop) limit)
  | seekLe id cf target =>
    refine ⟨h.read id ?_, h⟩
    intro v w hholds
    exact congrArg Answer.row (View.seekLe_eq (hholds.shows cf))
  | iter id cf start stop
  | iterRev id cf start stop =>
    apply h.openIterator id (fun _ => rfl)
    intro v w
    rfl
  | next id => apply h.next

/-- Every sequence of calls is answered by the versioned engine as it is by the
persistent-map engine. -/
theorem versioned_refines_persistent (calls : List Call) :
  Machine.outputs (Session.step versioned) (.start .new) calls
    = Machine.outputs (Session.step persistent) (.start .empty) calls
  := by
  have hsim : Machine.Simulation (Session.step versioned) (Session.step persistent) Related :=
    ⟨fun call h => (h.step call).1, fun call h => (h.step call).2⟩
  apply hsim.outputs_eq related_start

end Kv9.Engine
