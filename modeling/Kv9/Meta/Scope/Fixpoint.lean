import Kv9.Meta.Routing
import Kv9.Meta.Scope.Closure

/-!
# A closure covers the view it is computed from

The closure is computed from the entries of a view, and routing looks at one entry at a time.
On a consistent catalog whose references form no chain beyond the bound the two agree: no entry
of the view asks for a new snapshot, and a snapshot holds what routing delivers.
-/

namespace Kv9.Meta.Scope

open Codec Except Engine List

variable {p : Payloads} {view : MemState} {found found' : Collected} {e : ScanEntry}

/-! ## What is collected -/

/-- What noting an entry does, and what the entry then is. -/
theorem collectEntry_cases (h : collectEntry p found e = .ok found') :
  ∃ o, classify p e.1 (some e.2) = .ok o
    ∧ ((∃ s task, o = some (.task s) ∧ decodeUintComponent (e.1.drop (e.1.length - 8)) = .ok task
        ∧ found' = { found with taskIds := found.taskIds ++ [task] })
      ∨ (∃ region m, o = some (.region region) ∧ found' = { found with regionKeyspace := m })
      ∨ (∃ region node, o = some (.regionPeer region node)
        ∧ found' = { found with peers := found.peers ++ [(region, node)] })
      ∨ (∃ keyspace v tenant, o = some (.keyspace keyspace) ∧ isRow e.1 ∧ isTable e.1 keyspaces
        ∧ RowValue.decode e.2 = .ok v ∧ v.get 3 = some (.uint tenant)
        ∧ found' = { found with keyspaceTenant := found.keyspaceTenant.insert keyspace tenant })
      ∨ found' = found ∧ (∀ s, o ≠ some (.task s))
        ∧ (∀ region node, o = some (.regionPeer region node) → ¬ isRow e.1)
        ∧ ∀ keyspace v tenant, o = some (.keyspace keyspace) → isRow e.1 → isTable e.1 keyspaces →
          RowValue.decode e.2 = .ok v → v.get 3 ≠ some (.uint tenant))
  := by
  obtain ⟨o, ho, h⟩ := bind_eq_ok.mp h
  use o, ho
  split at h
  · next s =>
      obtain ⟨task, htask, h⟩ := bind_eq_ok.mp h
      cases h
      exact .inl ⟨s, task, rfl, htask, rfl⟩
  · next region =>
      right
      left
      split_ifs at h
      · obtain ⟨row, -, h⟩ := bind_eq_ok.mp h
        split at h
        · cases h
          exact ⟨region, _, rfl, rfl⟩
        · cases h
          exact ⟨region, found.regionKeyspace, rfl, rfl⟩
      · cases h
        exact ⟨region, found.regionKeyspace, rfl, rfl⟩
  · next region node =>
      split_ifs at h with hrow
      · cases h
        exact .inr (.inr (.inl ⟨region, node, rfl, rfl⟩))
      · cases h
        exact .inr (.inr (.inr (.inr ⟨rfl, nofun, fun _ _ _ => hrow, nofun⟩)))
  · next keyspace =>
      right
      right
      right
      split_ifs at h with hrow
      · obtain ⟨row, hdecode, h⟩ := bind_eq_ok.mp h
        split at h
        · next tenant htenant =>
            cases h
            exact .inl ⟨keyspace, row, tenant, rfl, hrow.1, hrow.2, hdecode, htenant, rfl⟩
        · next hnone =>
            cases h
            refine .inr ⟨rfl, nofun, nofun, ?_⟩
            intro _ v tenant _ _ _ hv htenant
            cases hdecode.symm.trans hv
            apply hnone tenant htenant
      · cases h
        exact .inr ⟨rfl, nofun, nofun, fun _ _ _ _ h₁ h₂ => absurd ⟨h₁, h₂⟩ hrow⟩
  · next htask hregion hpeer hkeyspace =>
      cases h
      refine .inr (.inr (.inr (.inr ⟨rfl, htask, ?_, ?_⟩)))
      · intro region node ho'
        apply absurd ho' (hpeer region node)
      · intro keyspace v tenant ho'
        apply absurd ho' (hkeyspace keyspace)

/-- What is collected from an entry. -/
structure Collected.Covers (p : Payloads) (found : Collected) (e : ScanEntry) : Prop where
  declared : ∃ o, classify p e.1 (some e.2) = .ok o
  task : ∀ s, classify p e.1 (some e.2) = .ok (some (.task s)) →
    ∃ task ∈ found.taskIds, decodeUintComponent (e.1.drop (e.1.length - 8)) = .ok task
  peer : ∀ region node, classify p e.1 (some e.2) = .ok (some (.regionPeer region node)) →
    isRow e.1 → (region, node) ∈ found.peers
  tenant : ∀ keyspace v tenant, classify p e.1 (some e.2) = .ok (some (.keyspace keyspace)) →
    isRow e.1 → isTable e.1 keyspaces → RowValue.decode e.2 = .ok v →
    v.get 3 = some (.uint tenant) → found.keyspaceTenant[keyspace]? ≠ none

/-- What is collected is kept. -/
structure Collected.Grows (found found' : Collected) : Prop where
  taskIds : found.taskIds ⊆ found'.taskIds
  peers : found.peers ⊆ found'.peers
  keyspaceTenant : ∀ keyspace : UInt64, found.keyspaceTenant[keyspace]? ≠ none →
    found'.keyspaceTenant[keyspace]? ≠ none

theorem Collected.Covers.mono (h : found.Covers p e) (hgrows : found.Grows found') :
  found'.Covers p e
  := by
  use h.declared
  · intro s hs
    obtain ⟨task, hmem, htask⟩ := h.task s hs
    use task, hgrows.taskIds hmem
  · intro region node hpeer hrow
    apply hgrows.peers (h.peer region node hpeer hrow)
  · intro keyspace v tenant hkeyspace hrow htable hv htenant
    apply hgrows.keyspaceTenant
    apply h.tenant keyspace v tenant hkeyspace hrow htable hv htenant

theorem collectEntry_grows (h : collectEntry p found e = .ok found') :
  found.Grows found'
  := by
  have hrefl : found.Grows found := ⟨List.Subset.refl _, List.Subset.refl _, fun _ h => h⟩
  obtain ⟨o, -, ⟨s, task, -, -, rfl⟩ | ⟨region, m, -, rfl⟩ | ⟨region, node, -, rfl⟩
    | ⟨keyspace, v, tenant, -, -, -, -, -, rfl⟩ | ⟨rfl, -⟩⟩ := collectEntry_cases h
  · use subset_append_left _ _, hrefl.peers, hrefl.keyspaceTenant
  · use hrefl.taskIds, hrefl.peers, hrefl.keyspaceTenant
  · use hrefl.taskIds, subset_append_left _ _, hrefl.keyspaceTenant
  · use hrefl.taskIds, hrefl.peers
    intro keyspace' hknown
    rw [OrderedMap.getElem?_insert]
    split_ifs
    · nofun
    · exact hknown
  · exact hrefl

theorem collectEntry_covers (h : collectEntry p found e = .ok found') :
  found'.Covers p e
  := by
  obtain ⟨o, ho, hcases⟩ := collectEntry_cases h
  use ⟨o, ho⟩
  all_goals rw [ho]
  · rintro s ⟨⟩
    obtain ⟨_, task, -, htask, rfl⟩ | ⟨_, _, ho', -⟩ | ⟨_, _, ho', -⟩ | ⟨_, _, _, ho', -⟩
      | ⟨-, hnone, -⟩ := hcases
    · use task, mem_append_right _ (mem_singleton_self task)
    · nomatch ho'
    · nomatch ho'
    · nomatch ho'
    · apply absurd rfl (hnone s)
  · rintro region node ⟨⟩ hrow
    obtain ⟨_, _, ho', -⟩ | ⟨_, _, ho', -⟩ | ⟨_, _, ho', rfl⟩ | ⟨_, _, _, ho', -⟩
      | ⟨-, -, hnone, -⟩ := hcases
    · nomatch ho'
    · nomatch ho'
    · cases ho'
      apply mem_append_right _ (mem_singleton_self _)
    · nomatch ho'
    · apply absurd hrow (hnone region node rfl)
  · rintro keyspace v tenant ⟨⟩ hrow htable hv htenant
    obtain ⟨_, _, ho', -⟩ | ⟨_, _, ho', -⟩ | ⟨_, _, ho', -⟩ | ⟨_, _, _, ho', -, -, -, -, rfl⟩
      | ⟨-, -, -, hnone⟩ := hcases
    · nomatch ho'
    · nomatch ho'
    · nomatch ho'
    · cases ho'
      rw [OrderedMap.getElem?_insert, if_pos rfl]
      nofun
    · apply absurd htenant (hnone keyspace v tenant rfl hrow htable hv)

variable {entries : List ScanEntry}

theorem collect_covers (h : entries.foldlM (collectEntry p) found = .ok found') (he : e ∈ entries) :
  found'.Covers p e
  := by
  induction entries generalizing found with
  | nil => nomatch he
  | cons first entries ih =>
    obtain ⟨mid, hmid, hrest⟩ := bind_eq_ok.mp h
    rcases mem_cons.mp he with rfl | he
    · apply foldlM_preserves (P := (·.Covers p e)) _ (collectEntry_covers hmid) hrest
      intro e' _ s s' hs hstep
      apply hs.mono (collectEntry_grows hstep)
    · apply ih hrest he

/-- The tenant of a keyspace is the one its row names. -/
def Collected.NamesTenants (view : MemState) (found : Collected) : Prop :=
  ∀ (keyspace tenant : UInt64), found.keyspaceTenant[keyspace]? = some tenant →
    ∃ bytes v, view.get .default (keyspaceKey keyspace) = some bytes
      ∧ RowValue.decode bytes = .ok v ∧ v.get 3 = some (.uint tenant)

theorem collectEntry_namesTenants (hview : RowsReadable (view.get .default))
    (he : view.get .default e.1 = some e.2) (hfound : found.NamesTenants view)
    (h : collectEntry p found e = .ok found') :
  found'.NamesTenants view
  := by
  obtain ⟨o, ho, ⟨s, task, -, -, rfl⟩ | ⟨region, m, -, rfl⟩ | ⟨region, node, -, rfl⟩
    | ⟨keyspace, v, tenant, rfl, hrow, htable, hv, htenant, rfl⟩ | ⟨rfl, -⟩⟩ :=
    collectEntry_cases h
  · exact hfound
  · exact hfound
  · exact hfound
  · intro keyspace' tenant' hget
    rw [OrderedMap.getElem?_insert] at hget
    split_ifs at hget with heq
    · cases hget
      subst heq
      obtain ⟨hkey, -⟩ := exists_keyspace_of_classify hview he hrow htable ho
      rw [hkey] at he
      use e.2, v
    · apply hfound keyspace' tenant' hget
  · exact hfound

/-! ## The entries that are visited -/

theorem mem_forEach {start stop : Bytes} :
  e ∈ forEach view start stop ↔ view.get .default e.1 = some e.2 ∧ start ≤ e.1 ∧ e.1 < stop
  := by
  rw [forEach_eq, MemState.rows, OrderedMap.mem_range, Bound.below_included, Bound.above_excluded]
  rfl

theorem mem_forEach_all :
  e ∈ forEach view allStart allEnd ↔ view.get .default e.1 = some e.2 ∧ e.1 < allEnd
  := by
  have hstart : allStart ≤ e.1 := not_lt.mp (not_lt_nil e.1)
  rw [mem_forEach, and_iff_right hstart]

theorem tableHeader_lt_allEnd (table : TableId) (marker : UInt8) (body : Bytes) :
  tableHeader table marker ++ body < allEnd
  := by
  apply cons_lt_cons_iff.mpr (.inl (by decide))

/-- A key beyond the entries that are visited is not declared. -/
theorem classify_of_allEnd_le {key : Bytes} (h : allEnd ≤ key) (value : Option Bytes) :
  classify p key value = .ok none
  := by
  cases key with
  | nil => apply absurd (List.Lex.nil : [] < allEnd) (not_lt.mpr h)
  | cons b rest =>
    have hb : b = 0xff := by
      by_contra hne
      apply not_lt.mpr h
      rw [allEnd, replicate_succ, cons_lt_cons_iff]
      left
      have hlt := b.toNat_lt
      rw [← UInt8.toNat_inj] at hne
      change b.toNat ≠ 255 at hne
      change b.toNat < 255
      omega
    subst hb
    simp [classify, retentionPrefix, taskHistoryKey, manifestPairPrefix, manifestGenPrefix,
      sliceMarker, capturePrefix, systemPrefix, rowMarker, cons_prefix_cons]

/-- The task rows of a view that was collected from can be read. -/
theorem readable_of_covers (hview : RowsReadable (view.get .default))
    (hcovers : ∀ e ∈ forEach view allStart allEnd, found.Covers p e) :
  Readable p view
  := by
  have hrow : ∀ task bytes, view.get .default (taskKey task) = some bytes →
      ∃ v s, RowValue.decode bytes = .ok v ∧ taskSubject p v = .ok s := by
    intro task bytes hget
    obtain ⟨o, ho⟩ := (hcovers (taskKey task, bytes)
      (mem_forEach_all.mpr ⟨hget, tableHeader_lt_allEnd _ _ _⟩)).declared
    obtain ⟨v, hv, ho⟩ := bind_eq_ok.mp ho
    obtain ⟨s, hs, -⟩ := bind_eq_ok.mp ho
    use v, s
  constructor
  · intro task
    rw [subjectOf]
    cases hget : view.get .default (taskKey task) with
    | none => use none
    | some bytes =>
      obtain ⟨v, s, hv, hs⟩ := hrow task bytes hget
      use s
      simp [hv, hs]
  · rw [backupsOf]
    apply foldlM_isOk
    intro e he backups
    obtain ⟨hget, hrange⟩ := mem_forEach.mp he
    obtain ⟨suffix, hkey⟩ := mem_rowRange.mp hrange
    rw [hkey] at hget
    obtain ⟨pk, -, hpk, rfl, -⟩ := hview tasksDesc (by decide) suffix e.2 hget
    obtain ⟨task, rfl⟩ := eq_uint_of_wellKeyed hpk rfl
    obtain ⟨v, s, hv, hs⟩ := hrow task e.2 hget
    obtain ⟨operation, hoperation⟩ := backupIntentOperation_isOk hs
    simp only [noteBackup, hv, ok_bind, hoperation]
    cases operation with
    | none =>
      use backups
      rfl
    | some operation =>
      use (operation, task) :: backups
      have htask := decode_taskKey task
      rw [taskKey, rowKey, ← hkey] at htask
      rw [htask]
      rfl

/-! ## Routing against a closure -/

/-- The tasks that were found are resolved to what they are about. -/
theorem resolveTasks_covers (hview : Readable p view) (hchains : ChainsWithin p view maxRefDepth)
    (ids : List TaskId) {r : Resolver} (h : r.Exact p view) :
  ∃ tasks r', resolveTasks p view ids r = .ok (tasks, r')
    ∧ ∀ id ∈ ids, ∀ s, (resolution p view).item id = some s → s.resolved p view ∈ tasks
  := by
  induction ids generalizing r with
  | nil => exact ⟨[], r, rfl, nofun⟩
  | cons id ids ih =>
    obtain ⟨r₁, hr₁, h₁⟩ := h.task hview hchains id
    obtain ⟨tasks, r₂, hr₂, hmem⟩ := ih h₁
    refine ⟨(((resolution p view).item id).map (TaskSubject.resolved p view)).toList ++ tasks, r₂,
      ?_, ?_⟩
    · rw [resolveTasks, hr₁]
      simp only [hr₂, ok_bind]
      rfl
    · intro id' hid' s hs
      rcases mem_cons.mp hid' with rfl | hid'
      · apply mem_append_left
        rw [hs]
        apply mem_singleton_self
      · apply mem_append_right _ (hmem id' hid' s hs)

/-- Routing an entry gives an answer that does not depend on what was resolved before, and that
is no new snapshot. -/
def Settled (p : Payloads) (view : MemState) (c : Closure) (e : ScanEntry) (answer : Route) :
    Prop :=
  answer ≠ .resnapshot ∧ ∀ r : Resolver, r.Exact p view →
    ∃ r', route p view c e.1 (some e.2) r = .ok (answer, r') ∧ r'.Exact p view

variable {c : Closure}

/-- An answer for which nothing is resolved. -/
theorem settled_of_route {answer : Route} (hanswer : answer ≠ .resnapshot)
    (hroute : ∀ r, route p view c e.1 (some e.2) r = .ok (answer, r)) :
  ∃ answer, Settled p view c e answer
  := ⟨answer, hanswer, fun r hr => ⟨r, hroute r, hr⟩⟩

theorem deliverIf_ne (inScope : Prop) [Decidable inScope] :
  deliverIf inScope ≠ .resnapshot
  := by
  rw [deliverIf]
  split_ifs
  · nofun
  · nofun

section Close

variable {node : NodeId} {full : List NodeId} {tasks : List Resolved}

/-- A task that was resolved for the closure is delivered or skipped. -/
theorem settled_task (hview : Readable p view) (hchains : ChainsWithin p view maxRefDepth)
    {task : TaskId} {s : TaskSubject} (hitem : (resolution p view).item task = some s)
    (hmem : s.resolved p view ∈ tasks) (hclass : classify p e.1 (some e.2) = .ok (some (.task s))) :
  ∃ answer, Settled p view (close node full found tasks) e answer
  := by
  use if (close node full found tasks).delivers (s.resolved p view) then .deliver else .skip
  constructor
  · split_ifs
    · nofun
    · nofun
  · intro r hr
    obtain ⟨r', hr', hexact⟩ := hr.resolveDepth hview le_rfl (hchains task s hitem)
    use r'
    refine ⟨?_, hexact⟩
    rw [route, hclass]
    simp only [ok_bind, routeTask, Resolver.resolve, hr', widenedBy_close hmem, Bool.false_eq_true,
      if_false]
    split_ifs
    · rfl
    · rfl

/-- A keyspace whose tenant was found is delivered or skipped. -/
theorem settled_keyspace (hview : RowsReadable (view.get .default))
    (htenants : found.NamesTenants view) (hcover : found.Covers p e)
    (he : view.get .default e.1 = some e.2) {keyspace : UInt64}
    (hclass : classify p e.1 (some e.2) = .ok (some (.keyspace keyspace))) :
  ∃ answer, Settled p view (close node full found tasks) e answer
  := by
  have hroute : ∃ answer, answer ≠ .resnapshot
      ∧ routeKeyspace (close node full found tasks) keyspace e.1 (some e.2) = .ok answer := by
    rw [routeKeyspace]
    by_cases hscope : keyspace ∈ (close node full found tasks).keyspaces
    · rw [if_neg (not_not.mpr hscope)]
      by_cases hrow : isRow e.1 ∧ isTable e.1 keyspaces
      · obtain ⟨hkey, v, hv⟩ := exists_keyspace_of_classify hview he hrow.1 hrow.2 hclass
        simp only [if_pos hrow, hv, ok_bind]
        split
        · next tenant htenant =>
            -- the tenant that was found is the one the row names
            have hfound := hcover.tenant keyspace v tenant hclass hrow.1 hrow.2 hv htenant
            obtain ⟨tenant', htenant'⟩ := Option.ne_none_iff_exists'.mp hfound
            obtain ⟨bytes, v', hget, hv', hnamed⟩ := htenants keyspace tenant' htenant'
            rw [← hkey] at hget
            cases he.symm.trans hget
            cases hv.symm.trans hv'
            cases htenant.symm.trans hnamed
            rw [if_neg (not_not.mpr (tenant_mem_close hscope htenant'))]
            exact ⟨.deliver, nofun, rfl⟩
        · exact ⟨.deliver, nofun, rfl⟩
      · use .deliver, nofun, if_neg hrow
    · use .skip, nofun, if_pos hscope
  obtain ⟨answer, hanswer, hroute⟩ := hroute
  apply settled_of_route hanswer
  intro r
  simp [route, hclass, hroute]

/-- An entry that the closure was computed from is settled by it. -/
theorem settled_of_covers (hview : Consistent (view.get .default))
    (hchains : ChainsWithin p view maxRefDepth)
    (hcovers : ∀ e ∈ forEach view allStart allEnd, found.Covers p e)
    (htenants : found.NamesTenants view)
    (hmem : ∀ id ∈ found.taskIds, ∀ s, (resolution p view).item id = some s →
      s.resolved p view ∈ tasks)
    (he : e ∈ forEach view allStart allEnd) :
  ∃ answer, Settled p view (close node full found tasks) e answer
  := by
  have hget := (mem_forEach_all.mp he).1
  have hcover := hcovers e he
  obtain ⟨o, ho⟩ := hcover.declared
  cases o with
  | none =>
    apply settled_of_route (by simp : Route.undeclared ≠ .resnapshot)
    intro r
    rw [route, ho]
    rfl
  | some about =>
    cases about with
    | task s =>
      obtain ⟨task, v, hkey, hv, hs⟩ := exists_task_of_classify hview.rows hget ho
      have hitem : (resolution p view).item task = some s := by
        rw [hkey] at hget
        simp [resolution, subjectOf, hget, hv, hs, answerOr]
      obtain ⟨task', htask', hdecode⟩ := hcover.task s ho
      rw [hkey, decode_taskKey] at hdecode
      cases hdecode
      apply settled_task (readable_of_covers hview.rows hcovers) hchains hitem
        (hmem task htask' s hitem) ho
    | regionPeer region n =>
      obtain ⟨bytes, hbytes⟩ := exists_peer_of_classify hview hget ho
      have hpeer : (region, n) ∈ found.peers := by
        have hrow := hcovers (peerKey region n, bytes)
          (mem_forEach_all.mpr ⟨hbytes, tableHeader_lt_allEnd _ _ _⟩)
        apply hrow.peer region n (classify_peerKey p region n _)
        apply (isRow_tableHeader _ _ _).mpr rfl
      apply settled_of_route (routePeer_close hpeer (some e.2))
      intro r
      rw [route, ho]
      rfl
    | keyspace k => apply settled_keyspace hview.rows htenants hcover hget ho
    | global =>
      apply settled_of_route (by simp : Route.deliver ≠ .resnapshot)
      intro r
      rw [route, ho]
      rfl
    | fullOnly =>
      apply settled_of_route (by simp : Route.skip ≠ .resnapshot)
      intro r
      rw [route, ho]
      rfl
    | held =>
      apply settled_of_route (by simp : Route.ifHeld ≠ .resnapshot)
      intro r
      rw [route, ho]
      rfl
    | region region
    | capture region =>
      apply settled_of_route (deliverIf_ne (region ∈ (close node full found tasks).regions))
      intro r
      rw [route, ho]
      rfl
    | tenant tenant =>
      apply settled_of_route (deliverIf_ne (tenant ∈ (close node full found tasks).tenants))
      intro r
      rw [route, ho]
      rfl
    | node n =>
      apply settled_of_route (deliverIf_ne (n ∈ (close node full found tasks).nodes))
      intro r
      rw [route, ho]
      rfl

end Close

/-- Every entry of the view is settled by the closure of the view. -/
theorem exists_settled {node : NodeId} {full : List NodeId} (hview : Consistent (view.get .default))
    (hchains : ChainsWithin p view maxRefDepth) (hc : closure p view node full = .ok c)
    (he : view.get .default e.1 = some e.2) :
  ∃ answer, Settled p view c e answer
  := by
  obtain ⟨found, hfound, hc⟩ := bind_eq_ok.mp hc
  have hcovers : ∀ e ∈ forEach view allStart allEnd, found.Covers p e :=
    fun e he => collect_covers hfound he
  have htenants : found.NamesTenants view := by
    apply foldlM_preserves _ _ hfound
    · intro e he s s' hs hstep
      apply collectEntry_namesTenants hview.rows (mem_forEach_all.mp he).1 hs hstep
    · intro keyspace tenant htenant
      nomatch (Std.ExtTreeMap.getElem?_empty.symm.trans htenant : none = some tenant)
  obtain ⟨tasks, r, htasks, hmem⟩ := resolveTasks_covers (readable_of_covers hview.rows hcovers)
    hchains found.taskIds (Resolver.exact_new p view)
  simp only [htasks, ok_bind, pure_eq_ok] at hc
  cases hc
  rcases lt_or_ge e.1 allEnd with hlt | hge
  · apply settled_of_covers hview hchains hcovers htenants hmem (mem_forEach_all.mpr ⟨he, hlt⟩)
  · apply settled_of_route (nofun : Route.undeclared ≠ .resnapshot)
    intro r
    rw [route, classify_of_allEnd_le hge]
    rfl

/-! ## Routing and snapshots -/

theorem Settled.unique {answer answer' : Route} (h : Settled p view c e answer)
    (h' : Settled p view c e answer') :
  answer = answer'
  := by
  obtain ⟨_, hroute, -⟩ := h.2 .new (Resolver.exact_new p view)
  obtain ⟨_, hroute', -⟩ := h'.2 .new (Resolver.exact_new p view)
  cases hroute.symm.trans hroute'
  rfl

/-- An entry that is delivered is one of those that are visited. -/
theorem Settled.lt_allEnd (h : Settled p view c e .deliver) :
  e.1 < allEnd
  := by
  by_contra hge
  obtain ⟨r, hroute, -⟩ := h.2 .new (Resolver.exact_new p view)
  rw [route, classify_of_allEnd_le (not_lt.mp hge)] at hroute
  nomatch hroute

/-- Entries that are settled are answered one after the other. -/
theorem routeAll_settled {R : ScanEntry → Route → Prop}
    (h : ∀ e ∈ entries, ∃ answer, Settled p view c e answer ∧ R e answer) {r : Resolver}
    (hr : r.Exact p view) :
  ∃ answers r', routeAll p view c entries r = .ok (answers, r') ∧ List.Forall₂ R entries answers
  := by
  induction entries generalizing r with
  | nil => exact ⟨[], r, rfl, .nil⟩
  | cons e entries ih =>
    obtain ⟨answer, hanswer, hR⟩ := h e mem_cons_self
    obtain ⟨r₁, hr₁, h₁⟩ := hanswer.2 r hr
    obtain ⟨answers, r₂, hr₂, hanswers⟩ := ih (fun e' he' => h e' (mem_cons_of_mem e he')) h₁
    refine ⟨answer :: answers, r₂, ?_, .cons hR hanswers⟩
    simp [routeAll, hr₁, hr₂]

/-- A snapshot holds the entries that are delivered. -/
theorem mem_snapshotFrom {rows : List ScanEntry}
    (h : ∀ e ∈ entries, ∃ answer, Settled p view c e answer) {r : Resolver} (hr : r.Exact p view)
    (hrows : snapshotFrom p view c entries r = .ok rows) :
  e ∈ rows ↔ e ∈ entries ∧ Settled p view c e .deliver
  := by
  induction entries generalizing r rows with
  | nil =>
    cases hrows
    simp
  | cons first entries ih =>
    obtain ⟨answer, hanswer⟩ := h first mem_cons_self
    obtain ⟨r', hr', hexact⟩ := hanswer.2 r hr
    simp only [snapshotFrom, hr', ok_bind, bind_eq_ok] at hrows
    obtain ⟨_, -, more, hmore, hrows⟩ := hrows
    have hmem := ih (fun e' he' => h e' (mem_cons_of_mem first he')) hexact hmore
    cases hrows
    split_ifs with hdeliver
    · subst hdeliver
      rw [mem_cons, mem_cons, hmem, or_and_right]
      apply or_congr_left
      constructor
      · rintro rfl
        exact ⟨rfl, hanswer⟩
      · exact And.left
    · rw [mem_cons, hmem, or_and_right]
      constructor
      · exact .inr
      · rintro (⟨rfl, hother⟩ | hrest)
        · apply absurd (hanswer.unique hother) hdeliver
        · exact hrest

/-- The closure of a node covers the view it was computed from.  Whatever entries of the view are
routed, one after the other, none asks for a new snapshot, and those are delivered that the
snapshot of the closure holds. -/
theorem closure_isFixpoint {node : NodeId} {full : List NodeId} {c : Closure}
    (hview : Consistent (view.get .default)) (hchains : ChainsWithin p view maxRefDepth)
    (hc : closure p view node full = .ok c) {entries : List ScanEntry}
    (hentries : ∀ e ∈ entries, view.get .default e.1 = some e.2) :
  ∃ answers r, routeAll p view c entries .new = .ok (answers, r)
    ∧ List.Forall₂ (fun e answer => answer ≠ .resnapshot
        ∧ ∀ rows, snapshotRows p view c = .ok rows → (e ∈ rows ↔ answer = .deliver))
      entries answers
  := by
  have hnew := Resolver.exact_new p view
  have hsettled : ∀ e : ScanEntry, view.get .default e.1 = some e.2 →
      ∃ answer, Settled p view c e answer :=
    fun e he => exists_settled hview hchains hc he
  apply routeAll_settled _ hnew
  intro e he
  obtain ⟨answer, hanswer⟩ := hsettled e (hentries e he)
  use answer, hanswer, hanswer.1
  intro rows hrows
  rw [mem_snapshotFrom (fun e he => hsettled e (mem_forEach_all.mp he).1) hnew hrows]
  constructor
  · rintro ⟨-, hdeliver⟩
    apply hanswer.unique hdeliver
  · rintro rfl
    exact ⟨mem_forEach_all.mpr ⟨hentries e he, hanswer.lt_allEnd⟩, hanswer⟩

/-! ### A catalog with a group -/

/-- Payloads of which only creations are read, and each is of one group on node 4. -/
def samplePayloads : Payloads where
  creation _ := .ok ⟨100, 5, [4]⟩
  migration _ := .error (invalid "payload")
  evidence _ := .error (invalid "payload")
  truncation _ := .error (invalid "payload")
  removal _ := .error (invalid "payload")
  abort _ := .error (invalid "payload")
  compaction _ := .error (invalid "payload")
  plan _ := .error (invalid "payload")
  drain _ := .error (invalid "payload")
  split _ := .error (invalid "payload")
  splitEvidence _ := .error (invalid "payload")
  merge _ := .error (invalid "payload")
  mergeEvidence _ := .error (invalid "payload")
  rangeAbort _ := .error (invalid "payload")
  sealEvidence _ := .error (invalid "payload")
  backup _ := .error (invalid "payload")
  backupAnchor _ := .error (invalid "payload")
  backupRetirement _ := .error (invalid "payload")
  backupCompletion _ := .error (invalid "payload")
  restore _ := .error (invalid "payload")
  restoreEvidence _ := .error (invalid "payload")
  capture _ := .error (invalid "payload")

/-- The row of a task. -/
def sampleTask (task kind : UInt64) : RowValue :=
  ((RowValue.new.set 1 (.uint task)).set 2 (.uint kind)).set 3 (.bytes [])

/-- The row of a replica. -/
def samplePeer (region : RegionId) (node : NodeId) : RowValue :=
  ((RowValue.new.set 1 (.uint region)).set 2 (.uint node)).set 3 (.uint 1)

/-- A transaction that inserts a region with a replica, and the creation of its group. -/
def sampleGroup : Txn :=
  Call.run sampleSha256 (Txn.start ∅)
    [.insert tenantsDesc [memcmpUint 7] (sampleTenant "a"),
      .insert keyspacesDesc [memcmpUint 9] sampleKeyspace,
      .insert regionsDesc [memcmpUint 5] (sampleRegion 5 [] []),
      .insert nodesDesc [memcmpUint 4] (RowValue.new.set 1 (.uint 4)),
      .insert regionPeersDesc [memcmpUint 5, memcmpUint 4] (samplePeer 5 4),
      .insert tasksDesc [memcmpUint 100] (sampleTask 100 100)]

/-- The view after the transaction. -/
def sampleView : MemState :=
  { MemState.empty with default := Overlay.override sampleGroup.overlay sampleGroup.view }

theorem consistent_sampleView :
  Consistent (sampleView.get .default)
  := by
  have hget : sampleView.get .default = sampleGroup.readKv := by
    funext key
    apply Overlay.getElem?_override
  rw [hget]
  apply Call.consistent_run consistent_empty
  simp only [forall_mem_cons]
  refine ⟨⟨⟨by decide, keyed_uint 7 (by decide)⟩, ?_⟩, ⟨⟨by decide, keyed_uint 9 (by decide)⟩, ?_⟩,
    ⟨⟨by decide, keyed_uint 5 (by decide)⟩, fits_sampleRegion 5 (by decide) (by decide)⟩,
    ⟨⟨by decide, keyed_uint 4 (by decide)⟩, fits_new.set (fits_uint 4)⟩,
    ⟨⟨by decide, .cons ⟨5, rfl⟩ (.cons ⟨4, rfl⟩ .nil)⟩, ?_⟩,
    ⟨⟨by decide, keyed_uint 100 (by decide)⟩, ?_⟩, nofun⟩
  · apply (fits_new.set (fits_uint 7)).set
    exact ⟨by decide, nofun⟩
  · apply ((fits_new.set (fits_uint 9)).set _).set (fits_uint 7)
    exact ⟨by decide, nofun⟩
  · apply ((fits_new.set (fits_uint 5)).set (fits_uint 4)).set (fits_uint 1)
  · apply ((fits_new.set (fits_uint 100)).set (fits_uint 100)).set
    exact ⟨by decide, nofun⟩

/-- The kind of a task row. -/
def kindOf (e : ScanEntry) : Option ColumnValue :=
  match RowValue.decode e.2 with
  | .ok v => v.get 2
  | .error _ => none

/-- Creations refer to nothing. -/
theorem chainsWithin_of_creations
    (h : (forEach view (tableHeader tasks rowMarker) (tableHeader tasks (rowMarker + 1))).map kindOf
      = [some (.uint 100)]) :
  ChainsWithin samplePayloads view maxRefDepth
  := by
  intro task s hs
  simp only [resolution, subjectOf] at hs
  cases hget : view.get .default (taskKey task) with
  | none =>
    rw [hget] at hs
    cases hs
  | some bytes =>
    have he : (taskKey task, bytes) ∈ forEach view (tableHeader tasks rowMarker)
        (tableHeader tasks (rowMarker + 1)) :=
      mem_forEach.mpr ⟨hget, mem_rowRange.mpr ⟨_, rfl⟩⟩
    have hmem := mem_map_of_mem (f := kindOf) he
    rw [h, mem_singleton, kindOf] at hmem
    simp only [hget] at hs
    cases hdecode : RowValue.decode bytes with
    | error reason =>
      rw [hdecode] at hs
      cases hs
    | ok v =>
      have hdeclared : ¬ (100 : UInt64) ∉ declaredKinds := by
        decide
      simp only [hdecode] at hmem
      simp only [hdecode, ok_bind, taskSubject, hmem, if_neg hdeclared] at hs
      split at hs
      · cases hs
        rintro _ ⟨⟩
      · cases hs

/-- The node that hosts a group has the group in its scope. -/
theorem closure_isFixpoint_sampleView :
  ∃ c, closure samplePayloads sampleView 4 [1] = .ok c
    ∧ ∃ answers r, routeAll samplePayloads sampleView c (forEach sampleView allStart allEnd) .new
        = .ok (answers, r)
      ∧ List.Forall₂ (fun e answer => answer ≠ .resnapshot
          ∧ ∀ rows, snapshotRows samplePayloads sampleView c = .ok rows →
            (e ∈ rows ↔ answer = .deliver))
        (forEach sampleView allStart allEnd) answers
  := by
  have hchains : ChainsWithin samplePayloads sampleView maxRefDepth := by
    apply chainsWithin_of_creations
    decide +kernel
  have hok : (closure samplePayloads sampleView 4 [1]).isOk = true := by
    decide +kernel
  cases hc : closure samplePayloads sampleView 4 [1] with
  | error reason =>
    rw [hc] at hok
    nomatch hok
  | ok c =>
    use c, rfl
    apply closure_isFixpoint consistent_sampleView hchains hc
    intro e he
    apply (mem_forEach_all.mp he).1

end Kv9.Meta.Scope
