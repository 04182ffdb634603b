import Kv9.Engine.RangeDelete
import Mathlib.Logic.Relation

/-!
# The rows of a failed batch

A batch that runs out of memory leaves the rows it has inserted in the trees, under the
version after the last one handed out.  The next batch takes that same version, and publishes
with its own rows whatever is left there.  A run records, besides the engine, the contents
that the batches that succeeded make up, and the rows left over since the last of them.  Views
show the recorded contents as long as every batch that succeeds writes all keys of the rows
left over, as a batch does that is tried again.
-/

namespace Kv9.Engine

open OrderedMap

/-! ## Batches that fail -/

/-- The mutations of a batch that find memory, from the `i`-th on. -/
def taken (room : ℕ → Bool) : WriteBatch → ℕ → WriteBatch
  | [], _ => []
  | m :: batch, i => if room i then m :: taken room batch (i + 1) else []

/-- Inserting a batch inserts the mutations that find memory. -/
theorem insertAll_taken (s : Shared) (version : ℕ) (room : ℕ → Bool) (batch : WriteBatch) (i : ℕ) :
  Inserted s version (taken room batch i) (s.insertAll version room batch i).1
    ∧ ((s.insertAll version room batch i).2 = .ok () ∧ taken room batch i = batch
      ∨ (s.insertAll version room batch i).2 = .error .outOfMemory)
  := by
  induction batch generalizing s i with
  | nil =>
    use .nil s version
    left
    use rfl
    rfl
  | cons m batch ih =>
    rw [Shared.insertAll, taken]
    split_ifs with hroom
    · obtain ⟨hins, hcase⟩ := ih (s.treeMut m.cf fun t => t.insert (.new m.key version) m.slot) (i + 1)
      use hins.cons
      rcases hcase with ⟨hok, htaken⟩ | hfull
      · left
        use hok, by rw [htaken]
      · right
        apply hfull
    · use .nil s version
      right
      rfl

/-- All that applying a batch can do: refuse its position, insert some of it and fail, or insert
and publish it. -/
theorem Shared.apply_cases (s : Shared) (batch : WriteBatch) (pos : Option AppliedPosition)
    (room : ℕ → Bool) :
  (∃ last refused, s.apply batch pos room = (s, .error (.positionMustAdvance last refused)))
    ∨ (∃ s', s.apply batch pos room = (s', .error .outOfMemory)
      ∧ Inserted s (s.writer + 1) (taken room batch 0) s')
    ∨ ∃ s' changes, s.apply batch pos room = (s'.publish (s.writer + 1) pos changes, .ok ())
      ∧ Inserted s (s.writer + 1) batch s'
  := by
  obtain ⟨hins, hcase⟩ := insertAll_taken s (s.writer + 1) room batch 0
  rw [apply]
  cases hrefuse : s.refuses pos with
  | some e =>
    left
    obtain ⟨last, refused, rfl⟩ : ∃ last refused, e = .positionMustAdvance last refused := by
      unfold refuses at hrefuse
      split at hrefuse
      · split_ifs at hrefuse
        cases hrefuse
        exact ⟨_, _, rfl⟩
      · cases hrefuse
    use last, refused
  | none =>
    right
    simp only
    generalize s.insertAll (s.writer + 1) room batch 0 = r at hins hcase ⊢
    obtain ⟨s', result⟩ := r
    rcases hcase with ⟨hok, htaken⟩ | hfull
    · right
      subst hok
      rw [htaken] at hins
      exact ⟨s', _, rfl, hins⟩
    · left
      subst hfull
      use s'

/-! ## Runs -/

/-- An engine in a run, with what the batches that succeeded make up. -/
structure Traced where
  engine : Shared
  /-- The views taken, each with the contents at that time, unless they are dropped. -/
  views : List (Option (View × MemState))
  /-- What the batches that succeeded make up. -/
  contents : MemState
  /-- What batches that failed have inserted since the last one that succeeded. -/
  leftover : WriteBatch

/-- One call. -/
inductive Act where
  | write (batch : WriteBatch) (pos : Option AppliedPosition) (room : ℕ → Bool)
  | deleteRange (shard : Fin registryShards) (cf : ColumnFamily) (start stop : Bytes)
      (room : ℕ → Bool)
  | view (shard : Fin registryShards)
  | freeze (shard : Fin registryShards)
  | drop (id : ℕ)
  | gcStep (cursor : { cursor : GcCursor // cursor.Valid }) (chunk scanBudget : ℕ)

namespace Traced

/-- A new engine. -/
def start : Traced := ⟨.new, [], .empty, []⟩

/-- Write a batch. -/
def write (x : Traced) (batch : WriteBatch) (pos : Option AppliedPosition) (room : ℕ → Bool) :
    Traced :=
  match x.engine.apply batch pos room with
  | (s, .ok ()) => { x with engine := s, contents := x.contents.writeBatch batch, leftover := [] }
  | (s, .error .outOfMemory) =>
    { x with engine := s, leftover := x.leftover ++ taken room batch 0 }
  | (s, .error (.positionMustAdvance ..)) => { x with engine := s }

/-- One call.  A range delete that finds nothing writes no batch. -/
def step (x : Traced) : Act → Traced
  | .write batch pos room => x.write batch pos room
  | .deleteRange shard cf start stop room =>
    let (s, tombstones) := x.engine.walkRange shard cf start stop
    if tombstones.isEmpty then { x with engine := s }
    else { x with engine := s }.write tombstones none room
  | .view shard =>
    let (s, v) := View.current x.engine shard
    { x with engine := s, views := x.views ++ [some (v, x.contents)] }
  | .freeze shard =>
    let (s, v, _, _) := x.engine.freezeParts shard
    { x with engine := s, views := x.views ++ [some (v, x.contents)] }
  | .drop id =>
    match x.views[id]?.join with
    | some (v, _) => { x with engine := v.drop x.engine, views := x.views.set id none }
    | none => x
  | .gcStep cursor chunk scanBudget =>
    { x with engine := (gcStepWith chunk x.engine cursor scanBudget).1 }

/-- A batch writes every key of the rows left over. -/
def Covers (x : Traced) (batch : WriteBatch) : Prop :=
  ∀ m ∈ x.leftover, ∃ m' ∈ batch, m'.cf = m.cf ∧ m'.key = m.key

instance (x : Traced) (batch : WriteBatch) : Decidable (x.Covers batch) :=
  inferInstanceAs (Decidable (∀ m ∈ x.leftover, ∃ m' ∈ batch, m'.cf = m.cf ∧ m'.key = m.key))

/-- A call that writes a batch and succeeds writes every key of the rows left over. -/
def Allowed (x : Traced) : Act → Prop
  | .write batch pos room => (x.engine.apply batch pos room).2 = .ok () → x.Covers batch
  | .deleteRange shard cf start stop room =>
    let (s, tombstones) := x.engine.walkRange shard cf start stop
    tombstones ≠ [] → (s.apply tombstones none room).2 = .ok () → x.Covers tombstones
  | _ => True

/-- An allowed call. -/
def Next (x y : Traced) : Prop := ∃ act, x.Allowed act ∧ y = x.step act

end Traced

/-- What a run maintains.  The rows left over are what a reader just above the watermark would
see besides the contents. -/
structure Tracks (x : Traced) : Prop where
  current : ShowsAll x.engine x.engine.visible x.contents
  above : ShowsAll x.engine (x.engine.visible + 1) (x.contents.writeBatch x.leftover)
  stored : StoredUpTo x.engine (x.engine.visible + 1)
  writer : x.engine.writer = x.engine.visible
  published : x.engine.published.version = x.engine.visible
  views : ∀ v w, some (v, w) ∈ x.views → Holds x.engine v w
  counted : ∀ shard n,
    x.views.countP (fun o => countedAt shard n (o.map Prod.fst)) ≤ x.engine.registered shard n

theorem Tracks.start :
  Tracks .start
  where
  current := related_start.engine.current
  above := related_start.engine.current.mono related_start.engine.stored (Nat.le_succ _)
  stored _ _ _ hstored := absurd rfl hstored
  writer := rfl
  published := rfl
  views := nofun
  counted _ _ := Nat.zero_le _

namespace Tracks

variable {x : Traced}

/-- A live view is counted in the registry. -/
theorem registered_pos (h : Tracks x) {v : View} {w : MemState} (hv : some (v, w) ∈ x.views) :
  0 < x.engine.registered v.shard v.registered
  := by
  apply lt_of_lt_of_le _ (h.counted v.shard v.registered)
  apply List.countP_pos_iff.mpr
  use some (v, w), hv
  apply countedAt_some.mpr
  use rfl

/-- A call that keeps the views keeps them showing what they did. -/
theorem keeps (h : Tracks x) {s : Shared} {contents : MemState} {leftover : WriteBatch}
    (hkeep : KeepsViews x.engine s) (hcurrent : ShowsAll s s.visible contents)
    (habove : ShowsAll s (s.visible + 1) (contents.writeBatch leftover))
    (hstored : StoredUpTo s (s.visible + 1)) (hwriter : s.writer = s.visible)
    (hpublished : s.published.version = s.visible) :
  Tracks ⟨s, x.views, contents, leftover⟩
  where
  current := hcurrent
  above := habove
  stored := hstored
  writer := hwriter
  published := hpublished
  views v w hv := by
    have hholds := h.views v w hv
    use hholds.registered, hholds.version.trans hkeep.visible
    apply hkeep.shows _ _ hholds.version _ hholds.shows
    use v.shard, v.registered, hholds.registered
    apply h.registered_pos hv
  counted shard n := by
    rw [hkeep.registered]
    apply h.counted

end Tracks

/-- A batch that writes every key of the rows left over hides them. -/
theorem Traced.Covers.getElem?_writeBatch {x : Traced} {batch : WriteBatch} (h : x.Covers batch)
    (t : MemState) (cf : ColumnFamily) (key : Bytes) :
  (((t.writeBatch x.leftover).writeBatch batch).cf cf)[key]? = ((t.writeBatch batch).cf cf)[key]?
  := by
  rw [← MemState.writeBatch_append, MemState.getElem?_writeBatch, MemState.getElem?_writeBatch,
    lastSlot_append]
  cases hlast : lastSlot batch cf key with
  | some slot => rfl
  | none =>
    have hnone : lastSlot x.leftover cf key = none := by
      rw [lastSlot_eq_none_iff] at hlast ⊢
      intro m hm hkey
      obtain ⟨m', hm', hcf, hkey'⟩ := h m hm
      apply hlast m' hm'
      rw [hcf, hkey']
      apply hkey
    rw [hnone]
    rfl

namespace Tracks

variable {x : Traced}

/-- Writing a batch, when it is a batch that hides the rows left over. -/
theorem write (h : Tracks x) {batch : WriteBatch} {pos : Option AppliedPosition}
    {room : ℕ → Bool} (hcovers : (x.engine.apply batch pos room).2 = .ok () → x.Covers batch) :
  Tracks (x.write batch pos room)
  := by
  rw [Traced.write]
  have hbelow : x.engine.visible < x.engine.visible + 1 := Nat.lt_succ_self _
  rcases x.engine.apply_cases batch pos room with
    ⟨last, refused, happly⟩ | ⟨s, happly, hins⟩ | ⟨s, changes, happly, hins⟩
  · rw [happly]
    apply h
  · -- the rows inserted join those left over
    rw [h.writer] at hins
    have hvisible : s.visible = x.engine.visible := by rw [hins.frame]
    rw [happly]
    apply h.keeps
    · constructor
      · intro shard n
        rw [hins.frame]
        rfl
      · apply hvisible.ge
      · intro v w hv _ hw
        apply hins.shows_below v w (hv.trans_lt hbelow) hw
    · rw [hvisible]
      apply hins.shows_below _ _ hbelow h.current
    · rw [hvisible, MemState.writeBatch_append]
      apply hins.shows_self _ h.above
    · rw [hvisible]
      apply hins.stored h.stored
    · rw [hins.frame]
      apply h.writer
    · rw [hins.frame]
      apply h.published
  · rw [happly] at hcovers ⊢
    rw [h.writer] at hins ⊢
    have hshows : ShowsAll s (x.engine.visible + 1) (x.contents.writeBatch batch) := by
      apply ((hins.shows_self _ h.above).unique _).mpr
      intro cf key
      rw [(hcovers rfl).getElem?_writeBatch]
    have hstored := hins.stored h.stored
    apply h.keeps
    · constructor
      · intro shard n
        rw [hins.frame]
        rfl
      · apply Nat.le_succ
      · intro v w hv _ hw
        apply hins.shows_below v w (hv.trans_lt hbelow) hw
    · apply hshows
    · apply hshows.mono hstored (Nat.le_succ _)
    · intro cf key n hn
      apply (hstored cf key n hn).trans (Nat.le_succ _)
    · rfl
    · rfl

theorem view (h : Tracks x) (shard : Fin registryShards) :
  Tracks
    { x with
      engine := x.engine.register shard x.engine.visible
      views := x.views ++ [some (⟨x.engine.visible, shard, x.engine.visible⟩, x.contents)] }
  where
  current := h.current
  above := h.above
  stored := h.stored
  writer := h.writer
  published := h.published
  views v w hv := by
    rcases List.mem_append.mp hv with hv | hv
    · have hholds := h.views v w hv
      use hholds.registered, hholds.version, hholds.shows
    · cases List.mem_singleton.mp hv
      use le_rfl, le_rfl, h.current
  counted shard' n := by
    rw [List.countP_append, Shared.registered_register]
    apply Nat.add_le_add (h.counted shard' n)
    rw [List.countP_singleton]
    simp only [Option.map_some, countedAt_some, le_refl]

theorem drop (h : Tracks x) {id : ℕ} {v : View} {w : MemState}
    (hv : x.views[id]? = some (some (v, w))) :
  Tracks { x with engine := v.drop x.engine, views := x.views.set id none }
  := by
  have hframe : ∃ reg, v.drop x.engine = { x.engine with registry := reg } := by
    rw [View.drop, Shared.unregister]
    split
    · exact ⟨_, rfl⟩
    · exact ⟨_, rfl⟩
  have hcount : ∀ shard n, (x.views.set id none).countP
      (fun o => countedAt shard n (o.map Prod.fst)) ≤ (v.drop x.engine).registered shard n := by
    intro shard n
    obtain ⟨hlt, hget⟩ := List.getElem?_eq_some_iff.mp hv
    rw [List.countP_set hlt, View.drop, Shared.registered_unregister, hget]
    have hbefore := h.counted shard n
    have hnone : countedAt shard n none = false := rfl
    simp only [Option.map_some, Option.map_none, countedAt_some, hnone, Bool.false_eq_true,
      if_false]
    omega
  obtain ⟨reg, hreg⟩ := hframe
  rw [hreg] at hcount ⊢
  use h.current, h.above, h.stored, h.writer, h.published
  intro v' w' hv'
  have hholds := h.views v' w' ((List.mem_or_eq_of_mem_set hv').resolve_right (by simp))
  use hholds.registered, hholds.version, hholds.shows

theorem step (h : Tracks x) {act : Act} (hallowed : x.Allowed act) :
  Tracks (x.step act)
  := by
  cases act with
  | write batch pos room => apply h.write hallowed
  | deleteRange shard cf start stop room =>
    obtain ⟨reg, hwalk, hkeep⟩ :=
      Shared.walkRange_eq (h.writer ▸ h.current cf) shard start stop
    rw [Traced.Allowed, hwalk] at hallowed
    rw [Traced.step, hwalk]
    have hwalked : Tracks { x with engine := { x.engine with registry := reg } } :=
      h.keeps hkeep h.current h.above h.stored h.writer h.published
    simp only
    split_ifs with hempty
    · apply hwalked
    · apply hwalked.write
      apply hallowed
      rwa [List.isEmpty_iff] at hempty
  | view shard =>
    have hcurrent : View.current x.engine shard = (x.engine.register shard x.engine.visible,
          ⟨x.engine.visible, shard, x.engine.visible⟩) := by
      rw [View.current]
      simp [Shared.register]
    rw [Traced.step, hcurrent]
    apply h.view
  | freeze shard =>
    simp only [Traced.step, Shared.freezeParts, View.new, h.published]
    apply h.view
  | drop id =>
    rw [Traced.step]
    cases hv : x.views[id]?.join with
    | none => apply h
    | some vw =>
      apply h.drop (Option.join_eq_some_iff.mp hv)
  | gcStep cursor chunk scanBudget =>
    have hthin := (gcStepWith_thins chunk x.engine cursor.2 scanBudget).1
    rw [Traced.step]
    generalize (gcStepWith chunk x.engine cursor scanBudget).1 = s at hthin ⊢
    have hvisible : s.visible = x.engine.visible := by rw [hthin.frame]
    have hlive := x.engine.oldestLiveVersion_le_visible
    apply h.keeps hthin.keepsViews
    · rw [hvisible]
      apply hthin.showsAll hlive h.current
    · rw [hvisible]
      apply hthin.showsAll (hlive.trans (Nat.le_succ _)) h.above
    · rw [hvisible]
      apply hthin.storedUpTo h.stored
    · rw [hthin.frame]
      apply h.writer
    · rw [hthin.frame]
      apply h.published

theorem run (h : Relation.ReflTransGen Traced.Next .start x) :
  Tracks x
  := by
  induction h with
  | refl => apply Tracks.start
  | tail _ hnext ih =>
    obtain ⟨act, hallowed, rfl⟩ := hnext
    apply ih.step hallowed

end Tracks

/-- In a run in which every batch that succeeds writes all keys left over by batches that failed,
every view answers from the batches that had succeeded when it was taken. -/
theorem view_reads_contents {x : Traced} (h : Relation.ReflTransGen Traced.Next .start x)
    {v : View} {w : MemState} (hv : some (v, w) ∈ x.views) :
  (∀ cf key, v.get x.engine cf key = w.get cf key)
    ∧ (∀ cf start stop limit, v.scan x.engine cf start stop limit = w.scan cf start stop limit)
    ∧ ∀ cf target, v.seekLe x.engine cf target = w.seekLe cf target
  := by
  have hshows := ((Tracks.run h).views v w hv).shows
  constructor
  · intro cf key
    apply (View.sees_newestSlot (x.engine.trees cf) v.version key).unique (hshows cf key)
  constructor
  · intro cf start stop limit
    rw [View.scan, View.page_eq (hshows cf)]
    rfl
  · intro cf target
    apply View.seekLe_eq (hshows cf)

/-- A new engine after a batch of two rows that fails after the first. -/
def interrupted : Traced :=
  Traced.start.write [.put .default [1] [10], .put .default [2] [20]] none (· = 0)

/-- The interrupted engine after another batch. -/
def resumed (batch : WriteBatch) : Traced := interrupted.write batch none fun _ => true

/-- After a batch that writes the key left over, a view reads what that batch wrote. -/
theorem view_reads_rewritten :
  let x := (resumed [.put .default [1] [11]]).step (.view ⟨0, by decide⟩)
  Relation.ReflTransGen Traced.Next .start x ∧ ∃ v w, some (v, w) ∈ x.views
    ∧ v.get x.engine .default [1] = some [11]
  := by
  intro x
  have hfail : Traced.Next .start interrupted :=
    ⟨.write _ _ _, fun _ => List.forall_mem_nil _, rfl⟩
  have hrewrite : Traced.Next interrupted (resumed [.put .default [1] [11]]) :=
    ⟨.write _ _ _, fun _ => by decide, rfl⟩
  have hview : Traced.Next (resumed [.put .default [1] [11]]) x :=
    ⟨.view ⟨0, by decide⟩, trivial, rfl⟩
  have hrun := ((Relation.ReflTransGen.single hfail).tail hrewrite).tail hview
  have hv : some (⟨1, ⟨0, by decide⟩, 1⟩, (resumed [.put .default [1] [11]]).contents) ∈ x.views :=
    List.mem_singleton.mpr rfl
  refine ⟨hrun, _, _, hv, ?_⟩
  rw [(view_reads_contents hrun hv).1]
  decide

/-- The next batch publishes the row the failed one left: a view reads it, although the batches
that succeeded wrote nothing there. -/
theorem view_reads_leftover :
  let x := (resumed [.put .default [3] [30]]).step (.view ⟨0, by decide⟩)
  (Shared.new.apply [.put .default [1] [10], .put .default [2] [20]] none (· = 0)).2
      = .error .outOfMemory
    ∧ x.views.map (Option.map fun (v, w) => (v.get x.engine .default [1], w.get .default [1]))
      = [some (some [10], none)]
  := by
  decide

end Kv9.Engine
