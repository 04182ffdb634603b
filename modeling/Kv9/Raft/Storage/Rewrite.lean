import Kv9.Raft.Storage.Sound

/-!
# Rewriting the log

The records of a rewritten log are replayed from nothing: the base, the configurations in order,
the entries that are left, and the hard state last.  What they give is what the store knew before,
although the records that it learned it from are gone.
-/

namespace Kv9.Raft.Storage

open Except List View

variable {w : Wire} {g : Full} {v v' : View} {rs : List Record}

/-! ## Replaying entries and configurations -/

variable {es : List Entry} {membership : MembershipHistory}

/-- Entries that continue the log can be replayed one by one. -/
theorem View.replay_entries (h : v.mem.Wf) (hes : v.mem.Continues es) :
  v.replay w (es.map .entry) = .ok { v with mem := { v.mem with entries := v.mem.overwrite es } }
  := by
  induction es generalizing v with
  | nil => rfl
  | cons e es ih =>
    have hone : v.mem.Continues [e] := (show v.mem.Continues ([e] ++ es) from hes).front
    have hv : v.replayRecord w (.entry e)
        = .ok { v with mem := { v.mem with entries := v.mem.overwrite [e] } } := by
      change (v.mem.append [e]).mapError _ >>= _ = _
      rw [h.append hone]
      rfl
    rw [map_cons, replay_cons, hv, ok_bind, ih (h.overwrite hone) hes.next,
      MemStorage.overwrite_next hes]

/-- What applied configurations change. -/
theorem View.replay_changes {changes : List Change} (hchanges : ∀ c ∈ changes, c.Indexed)
    (hv : v.replay w (changes.map Change.record) = .ok v') :
  v' = { v with
    mem := v.mem.setConfState v'.mem.confState
    confIndex := v'.confIndex
    confHistory := v'.confHistory
    origins := v'.origins
    membership :=
      changes.foldl (fun m c => m.appliedOrigin w c.index c.state c.origin) v.membership }
  := by
  induction changes generalizing v with
  | nil =>
    obtain rfl := ok.inj hv
    rfl
  | cons c changes ih =>
    obtain ⟨hc, hchanges⟩ := forall_mem_cons.mp hchanges
    rw [map_cons, replay_cons, Change.replayRecord hc] at hv
    simp only [bind_eq_ok] at hv
    obtain ⟨_, ⟨origins, -, h⟩, hv⟩ := hv
    obtain rfl := ok.inj h
    rw [ih hchanges hv]
    rfl

/-! ## The records of a rewritten log -/

/-- The entries that are left are all visited. -/
theorem View.retainedEntries_eq (h : v.mem.Wf)
    (hes : v.retainedEntries v.mem.firstIndex v.mem.lastIndex = .ok es) :
  es = v.mem.entries
  := by
  unfold retainedEntries at hes
  rw [h.firstIndex, h.lastIndex] at hes
  split_ifs at hes with hempty
  · obtain rfl := ok.inj hes
    exact (length_eq_zero_iff.mp (by omega)).symm
  · simp only [bind_eq_ok, mapM_eq_ok] at hes
    obtain ⟨-, -, -, -, hall⟩ := hes
    have hlength : es.length = v.mem.entries.length := by
      rw [← hall.length_eq, length_range']
      omega
    apply ext_getElem hlength
    intro i hi hi'
    have hget := forall₂_iff_get.mp hall
    have := hget.2 i (by rw [length_range']; omega) hi
    have hentry : v.mem.entry? (v.mem.cut.index + 1 + i) = some v.mem.entries[i] := by
      unfold MemStorage.entry?
      rw [if_neg (by omega), Nat.add_sub_cancel_left, List.getElem?_eq_getElem hi']
    simp only [get_eq_getElem, getElem_range', one_mul] at this
    obtain ⟨slice, hslice, hhead⟩ := this
    rw [h.slice_one hentry] at hslice
    obtain rfl := ok.inj hslice
    exact (ok.inj hhead).symm

/-- The records of the configurations of a sound store. -/
theorem Good.configurationRecords (h : Good w g v) (hsnapshot : v.snapshot = none) (hrs : v.configurationRecords w = .ok (rs, membership)) :
  ∃ base start, v.baseRecords w = .ok (base, start)
    ∧ rs = base ++ .confState g.state :: g.changes.map Change.record
    ∧ membership = g.changes.foldl (fun m c => m.appliedOrigin w c.index c.state c.origin)
      (start.recordInitial w g.state)
  := by
  unfold View.configurationRecords at hrs
  simp only [bind_eq_ok, Prod.exists] at hrs
  obtain ⟨base, start, hbase, initial, applied, hhistory, changeRecords, hchanges, -, -, hrs⟩ := hrs
  rw [h.history, hsnapshot] at hhistory
  obtain ⟨rfl, rfl⟩ := Prod.mk.inj (ok.inj hhistory)
  have horigins : (g.applied.map fun a => (a.1, a.2, v.origins.get a.1))
      = g.changes.map fun c => (c.index, c.state, c.origin) := by
    rw [Full.applied, map_map]
    apply map_congr_left
    intro c hc
    dsimp only [Function.comp_apply]
    rw [h.origin c hc]
  rw [horigins] at hchanges hrs
  have hrecords : changeRecords = g.changes.map Change.record := by
    rw [mapM_eq_ok, forall₂_map_left_iff] at hchanges
    have hall : List.Forall₂ (fun c r => r = c.record) g.changes changeRecords := by
      apply hchanges.imp
      rintro ⟨index, cs, origin⟩ r hr
      cases origin with
      | none => exact (ok.inj hr).symm
      | some record =>
        obtain ⟨_, -, hr⟩ := bind_eq_ok.mp hr
        exact (ok.inj hr).symm
    apply ext_getElem
    · rw [length_map, hall.length_eq]
    · intro i hi hi'
      rw [getElem_map]
      apply (forall₂_iff_get.mp hall).2
  obtain ⟨rfl, rfl⟩ := Prod.mk.inj (ok.inj hrs)
  refine ⟨base, start, hbase, ?_, ?_⟩
  · rw [hrecords]
    simp
  · rw [foldl_map]
    rfl

theorem Good.replay_base (h : Good w g v) {base : List Record} {start : MembershipHistory}
    (hbase : v.baseRecords w = .ok (base, start)) :
  ∃ mem : MemStorage, mem.cut = v.mem.cut ∧ mem.entries = []
    ∧ (View.new w).replay w base = .ok { View.new w with
      mem := mem
      membership := start
      configurationBase := v.configurationBase }
    ∧ start.SameRecords (.new w)
  := by
  unfold View.baseRecords at hbase
  rw [h.wf.firstIndex] at hbase
  split_ifs at hbase with hpos
  · simp only [bind_eq_ok] at hbase
    obtain ⟨cut, hcut, hbase⟩ := hbase
    rw [View.compactedBase, h.wf.firstIndex, if_neg (by omega), Nat.add_sub_cancel,
      MemStorage.term_cut] at hcut
    obtain rfl := ok.inj hcut
    simp only [bind_eq_ok] at hbase
    obtain ⟨cs, hcs, hbase⟩ := hbase
    obtain ⟨rfl, rfl⟩ := Prod.mk.inj (ok.inj hbase)
    refine ⟨MemStorage.new.restart v.mem.cut cs, rfl, rfl, ?_,
      MembershipHistory.sameRecords_retainedBase ..⟩
    rw [(of_configurationAtBase hcs).1, replay_singleton]
    change (MemStorage.new.applySnapshot _ _).mapError _ >>= _ = _
    rw [MemStorage.wf_new.applySnapshot cs (by change 0 < v.mem.cut.index; omega)]
    rfl
  · obtain ⟨rfl, rfl⟩ := Prod.mk.inj (ok.inj hbase)
    obtain ⟨hcut, hnone⟩ := h.no_base (by omega)
    rw [hcut, hnone]
    exact ⟨.new, rfl, rfl, rfl, .refl _⟩

/-- Replaying the configurations of a sound store. -/
theorem Good.replay_configurations (h : Good w g v) (hsnapshot : v.snapshot = none) (hrs : v.configurationRecords w = .ok (rs, membership)) :
  ∃ mem : MemStorage, mem.cut = v.mem.cut ∧ mem.entries = [] ∧ mem.confState = v.mem.confState
    ∧ v.membership.SameRecords membership ∧ membership.Hashed w
    ∧ (View.new w).replay w rs = .ok {
      mem := mem
      confIndex := v.confIndex
      confHistory := v.confHistory
      origins := v.origins
      membership := membership
      configurationBase := v.configurationBase
      leaseEpoch := none
      snapshot := none }
  := by
  obtain ⟨base, start, hbase, rfl, rfl⟩ := h.configurationRecords hsnapshot hrs
  obtain ⟨mem, hcut, hentries, hreplay, hstart⟩ := h.replay_base hbase
  obtain ⟨known, hknown, hagrees⟩ := h.told hsnapshot
  rw [replay_cons, bind_eq_ok] at hknown
  obtain ⟨known₀, hknown₀, hknown⟩ := hknown
  -- After the initial configuration, the log with the base agrees with the one without.
  let started : View := { View.new w with
    mem := mem.setConfState g.state
    confHistory := (View.new w).confHistory.recordInitial g.state
    membership := start.recordInitial w g.state
    configurationBase := v.configurationBase }
  have hstarted : Agrees known₀ started := by
    rw [← ok.inj hknown₀]
    exact ⟨rfl, rfl, rfl, rfl, (hstart.recordInitial g.state).symm⟩
  obtain ⟨known', hknown', hagrees'⟩ := hstarted.replay_changes h.indexed hknown
  have hagrees := hagrees.trans hagrees'
  have hframe := View.replay_changes h.indexed hknown'
  have hmembership : known'.membership = g.changes.foldl
      (fun m c => m.appliedOrigin w c.index c.state c.origin) (start.recordInitial w g.state) := by
    rw [hframe]
  refine ⟨known'.mem, ?_, ?_, hagrees.confState.symm, ?_, ?_, ?_⟩
  · rw [hframe]
    exact hcut
  · rw [hframe]
    exact hentries
  · rw [← hmembership]
    exact hagrees.membership
  · cases g.changes using List.reverseRecOn with
    | nil => rfl
    | append_singleton changes c =>
      rw [foldl_append]
      rfl
  · rw [replay_append, hreplay]
    change View.replay w started _ = _
    rw [hknown', hagrees.confIndex, hagrees.confHistory, hagrees.origins, hframe]
    rfl

/-- Replaying the records of a rewritten log gives what the store knew. -/
theorem Good.replay_reclamation (h : Good w g v) (hsnapshot : v.snapshot = none)
    (hlease : v.leaseEpoch = none) (hdistinct : v.Distinct w)
    (hrs : v.reclamationRecords w = .ok rs) :
  (View.new w).replay w rs = .ok v
  := by
  unfold View.reclamationRecords at hrs
  simp only [bind_eq_ok, Prod.exists, failIf_eq_ok, not_not] at hrs
  obtain ⟨records, membership, hrecords, -, hsame, entries, hentries, hrs⟩ := hrs
  obtain rfl := ok.inj hrs
  obtain rfl := retainedEntries_eq h.wf hentries
  obtain ⟨mem, hcut, hempty, hconf, hsameRecords, hhashed, hreplay⟩ :=
    h.replay_configurations hsnapshot hrecords
  have hmembership : v.membership = membership :=
    hsameRecords.eq h.hashed hhashed hsame (hdistinct records membership hrecords)
  have hwf : mem.Wf := by
    rw [MemStorage.Wf, hempty]
    trivial
  have hcontinues : mem.Continues v.mem.entries := by
    have hcont := h.wf
    rw [MemStorage.Wf, ← hcut] at hcont
    cases hes : v.mem.entries with
    | nil => apply MemStorage.continues_nil
    | cons e es =>
      rw [hes] at hcont
      have he := hcont.1
      constructor
      · rintro _ ⟨⟩
        rw [he]
        apply hcont
      · rintro _ ⟨⟩
        omega
      · rintro _ ⟨⟩
        omega
  have hoverwrite : mem.overwrite v.mem.entries = v.mem.entries := by
    cases hes : v.mem.entries with
    | nil => rw [MemStorage.overwrite, hempty]
    | cons e es => rw [MemStorage.overwrite, hempty, take_nil, nil_append]
  rw [replay_append, replay_append, hreplay, ok_bind, replay_entries hwf hcontinues, hoverwrite]
  obtain ⟨⟨cut, entries, hs, cs⟩, confIndex, history, origins, members, base, lease, snapshot⟩ := v
  subst hsnapshot hlease hmembership hcut hconf
  rfl

end Kv9.Raft.Storage
