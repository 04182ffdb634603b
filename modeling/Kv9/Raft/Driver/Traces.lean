import Kv9.Raft.Driver.Pump

/-!
# What the pump leaves behind

Every trace of the pump is tied to the entries it has processed: the ring holds the newest
commands among them, the receipts the newest configuration changes, and the watermark is one
of them.  The order of the log then says what a watermark proves.
-/

namespace Kv9.Raft.Driver

open Codec Engine Except List

variable {x : Externals} {confer : Members → CommittedEntry → Except Error Members}
  {m m' : Machine} {entry : CommittedEntry} {rest rest' : List CommittedEntry} {cmd : Command}
  {more : List (AppliedPosition × Command)} {results : List ApplyResult}

/-! ## One turn -/

/-- What is grouped with an entry is a front part of the entries after it, and there is none
unless the entry is new to the machine. -/
theorem grouped_spec (h : grouped m entry cmd rest = (more, rest')) :
  ∃ used, rest = used ++ rest' ∧ Grouped m used more ∧ (more ≠ [] → m.applied < entry.index)
  := by
  rw [grouped] at h
  split_ifs at h with hnew
  · obtain ⟨used, hused, hgrouped, -⟩ := gather_spec m entry.data.length 1 rest
    rw [h] at hused hgrouped
    use used, hused, hgrouped, fun _ => hnew.2.1
  · cases h
    use [], rfl, .nil, nofun

variable {used : List CommittedEntry}

/-- The entries of a group are commands at the positions of the group. -/
theorem Grouped.pos_eq (h : Grouped m used more) :
  more.map (·.1) = used.map CommittedEntry.pos ∧ ∀ e ∈ used, e.kind = .command
  := by
  induction h with
  | nil => exact ⟨rfl, nofun⟩
  | @cons e c used more hc _ ih =>
    constructor
    · rw [map_cons, map_cons, ih.1, hc.2.2.1]
    · intro e he
      rcases mem_cons.mp he with rfl | he
      · exact hc.1
      · exact ih.2 e he

variable {commands : List (AppliedPosition × Command)} {receipts : List RingEntry} {r : RingEntry}

theorem length_groupLoop {previous : AppliedPosition} {batch : WriteBatch}
    (h : m.groupLoop previous commands = .ok (batch, results)) :
  results.length = commands.length
  := by
  induction commands generalizing previous batch results with
  | nil =>
    cases h
    rfl
  | cons c commands ih =>
    simp only [Machine.groupLoop, bind_eq_ok] at h
    obtain ⟨_, -, _, -, _, -, _, hloop, h⟩ := h
    cases h
    rw [length_cons, length_cons, ih hloop]

/-- A group that is applied leaves the machine at its last position. -/
theorem applied_of_answer_group {pos : AppliedPosition}
    (h : m.applyRawGroup ((pos, cmd) :: more) = .ok (m', results)) :
  results.length = more.length + 1 ∧ m'.applied = (lastPos pos more).index
  := by
  have hlast : ((pos, cmd) :: more).getLast? = some ((more.getLast?).getD (pos, cmd)) :=
    List.getLast?_cons
  simp only [Machine.applyRawGroup, hlast, bind_eq_ok] at h
  obtain ⟨_, -, _, hloop, engine, -, h⟩ := h
  cases h
  constructor
  · apply length_groupLoop hloop
  · rw [lastPos]
    cases more.getLast? <;> rfl

/-- The entries of a turn: the first one and those that are grouped with it. -/
theorem taken_spec (hkind : entry.kind = .command)
    (hgroup : grouped m entry cmd rest = (more, rest')) :
  ∃ used, rest = used ++ rest' ∧ (entry :: rest).take (more.length + 1) = entry :: used
    ∧ more.map (·.1) = used.map CommittedEntry.pos ∧ (∀ e ∈ entry :: used, e.kind = .command)
    ∧ (more ≠ [] → m.applied < entry.index)
  := by
  obtain ⟨used, rfl, hgrouped, hnew⟩ := grouped_spec hgroup
  obtain ⟨hpos, hcommand⟩ := hgrouped.pos_eq
  refine ⟨used, rfl, ?_, hpos, ?_, hnew⟩
  · rw [take_succ_cons, ← hgrouped.length_eq, take_left]
  · intro e he
    rcases mem_cons.mp he with rfl | he
    · exact hkind
    · exact hcommand e he

/-- What one turn on `entries` did. -/
structure Turned (m m' : Machine) (entries : List CommittedEntry) (receipts : List RingEntry) :
    Prop where
  pos_eq : receipts.map RingEntry.pos = entries.map CommittedEntry.pos
  command : ∀ e ∈ entries, e.kind = .command
  applied : (m'.applied = m.applied ∧ ∀ e ∈ entries, e.index ≤ m.applied)
    ∨ ((∀ e ∈ entries, m.applied < e.index)
      ∧ ∃ last ∈ entries, m'.applied = last.index ∧ ∀ e ∈ entries, e.index ≤ last.index)

/-- The last position of a group is that of the last entry in it. -/
theorem lastPos_eq (entry : CommittedEntry) (h : more.map (·.1) = used.map CommittedEntry.pos) :
  ∃ front last, entry :: used = front ++ [last] ∧ lastPos entry.pos more = last.pos
  := by
  rcases eq_nil_or_concat' used with rfl | ⟨front, last, rfl⟩
  · rw [map_eq_nil_iff.mp h]
    exact ⟨[], entry, rfl, rfl⟩
  · use entry :: front, last, rfl
    rw [lastPos, ← List.getLast?_map, h]
    simp

theorem ringEntries_pos (h : results.length = commands.length) :
  (ringEntries commands results).map RingEntry.pos = commands.map (·.1)
  := by
  rw [ringEntries, map_zipWith]
  induction commands generalizing results with
  | nil => rw [zipWith_nil_left, map_nil]
  | cons c commands ih =>
    cases results with
    | nil => simp at h
    | cons r results =>
      rw [zipWith_cons_cons, ih (by simpa using h)]
      rfl

/-- In a successful turn the machine skips the entries, or they are new to it and it ends at the
last of them. -/
theorem turned_of_answer (hordered : (entry :: used).Pairwise fun a b => a.index < b.index)
    (hpos : more.map (·.1) = used.map CommittedEntry.pos)
    (hcommand : ∀ e ∈ entry :: used, e.kind = .command) (hnew : more ≠ [] → m.applied < entry.index)
    (hanswer : answerCommands x m entry.pos cmd more = .ok (m', results)) :
  Turned m m' (entry :: used) (ringEntries ((entry.pos, cmd) :: more) results)
  := by
  cases more with
  | nil =>
    rw [map_nil, eq_comm, map_eq_nil_iff] at hpos
    subst hpos
    simp only [answerCommands, bind_eq_ok] at hanswer
    obtain ⟨⟨_, result⟩, happly, hanswer⟩ := hanswer
    cases hanswer
    use rfl, hcommand
    by_cases hle : entry.pos.index ≤ m.applied
    · rw [Machine.applyAt_of_le hle] at happly
      cases happly
      left
      use rfl, fun e he => mem_singleton.mp he ▸ hle
    · obtain ⟨batch, happlied⟩ := Machine.applied_of_applyAt happly (not_le.mp hle)
      right
      use fun e he => mem_singleton.mp he ▸ not_le.mp hle
      use entry, mem_singleton_self _, happlied.applied_eq
      exact fun e he => mem_singleton.mp he ▸ le_rfl
  | cons c more =>
    obtain ⟨hlength, happlied⟩ := applied_of_answer_group hanswer
    refine ⟨?_, hcommand, .inr ⟨?_, ?_⟩⟩
    · rw [ringEntries_pos hlength, map_cons, hpos]
      rfl
    · intro e he
      rcases mem_cons.mp he with rfl | he
      · exact hnew (cons_ne_nil _ _)
      · exact (hnew (cons_ne_nil _ _)).trans ((pairwise_cons.mp hordered).1 e he)
    · obtain ⟨front, last, hfront, hpos⟩ := lastPos_eq entry hpos
      rw [hfront] at hordered ⊢
      refine ⟨last, mem_append_right _ (mem_singleton_self _), ?_, ?_⟩
      · rw [happlied, hpos]
        rfl
      · intro e he
        rcases mem_append.mp he with he | he
        · exact le_of_lt ((pairwise_append.mp hordered).2.2 e he last (mem_singleton_self _))
        · rw [mem_singleton.mp he]

/-! ## The ring and the machine -/

/-- The ring, the machine and the log. -/
structure Applies (o : Opening) (d : NodeDriver) : Prop where
  log_eq : d.history.processed ++ (d.pump.entries ++ d.left) = o.log
  ring_eq : d.ring = Ring.keep appliedRing d.history.receipts
  receipts_pos : d.history.receipts.map RingEntry.pos
    = (d.history.processed.filter CommittedEntry.isCommand).map CommittedEntry.pos
  applications_eq : d.history.applications = o.applications
    ++ (d.history.receipts.filter fun r => o.machine.applied < r.index).map
      fun r => (r.pos, r.outcome)
  le_applied : o.machine.applied ≤ d.machine.applied
  receipts_le : ∀ r ∈ d.history.receipts, r.index ≤ d.machine.applied
  applied_from : d.machine.applied = o.machine.applied
    ∨ ∃ r ∈ d.history.receipts, r.index = d.machine.applied

variable {o : Opening} {d d' : NodeDriver}

variable {entries : List CommittedEntry}

theorem mem_of_pos_mem (h : receipts.map RingEntry.pos = entries.map CommittedEntry.pos)
    (hr : r ∈ receipts) :
  ∃ e ∈ entries, e.pos = r.pos
  := by
  have hpos := mem_map_of_mem (f := RingEntry.pos) hr
  rw [h] at hpos
  exact mem_map.mp hpos

theorem Opening.applies (o : Opening) : Applies o o.driver where
  log_eq := rfl
  ring_eq := Ring.keep_nil.symm
  receipts_pos := rfl
  applications_eq := (append_nil _).symm
  le_applied := le_rfl
  receipts_le := nofun
  applied_from := .inl rfl

variable {e e' : CommittedEntry}

namespace Applies

section

variable (h : Applies o d)
include h

theorem ordered :
  (d.history.processed ++ (d.pump.entries ++ d.left)).Pairwise fun a b => a.index < b.index
  := by
  rw [h.log_eq]
  exact o.committed.ordered.imp And.left

/-- What is processed lies below what is not. -/
theorem processed_lt (he : e ∈ d.history.processed) (he' : e' ∈ d.pump.entries ++ d.left) :
  e.index < e'.index
  := (pairwise_append.mp h.ordered).2.2 e he e' he'

/-- The entry of a command in the ring's history. -/
theorem entry_of_receipt (hr : r ∈ d.history.receipts) :
  ∃ e ∈ d.history.processed, e.kind = .command ∧ e.pos = r.pos
  := by
  obtain ⟨e, he, hpos⟩ := mem_of_pos_mem h.receipts_pos hr
  obtain ⟨he, hcommand⟩ := mem_filter.mp he
  use e, he, of_decide_eq_true hcommand, hpos

theorem receipt_of_entry (he : e ∈ d.history.processed) (hcommand : e.kind = .command) :
  ∃ r ∈ d.history.receipts, r.pos = e.pos
  := by
  have hmem := mem_map_of_mem (f := CommittedEntry.pos)
    ((mem_filter (p := CommittedEntry.isCommand)).mpr ⟨he, decide_eq_true hcommand⟩)
  rw [← h.receipts_pos] at hmem
  exact mem_map.mp hmem

/-- The machine has not moved in this life, or it stands below everything unprocessed. -/
theorem applied_lt (he : e ∈ d.pump.entries ++ d.left) :
  d.machine.applied = o.machine.applied ∨ d.machine.applied < e.index
  := by
  rcases h.applied_from with hsame | ⟨r, hr, hindex⟩
  · exact .inl hsame
  · right
    obtain ⟨e', he', -, hpos⟩ := h.entry_of_receipt hr
    rw [← hindex, show r.index = e'.index from congrArg AppliedPosition.index hpos.symm]
    apply h.processed_lt he' he

/-- A turn keeps the ring and the machine in step. -/
theorem turned {left : List CommittedEntry}
    {pump : PumpAt} (hsplit : d.pump.entries ++ d.left = entries ++ (pump.entries ++ left))
    (ht : Turned d.machine m' entries receipts) :
  Applies o { d.recordCommands m' entries receipts with pump := pump, left := left }
  := by
  have hentry : ∀ r ∈ receipts, ∃ e ∈ entries, e.index = r.index := by
    intro r hr
    obtain ⟨e, he, hpos⟩ := mem_of_pos_mem ht.pos_eq hr
    use e, he, congrArg AppliedPosition.index hpos
  have hahead : ∀ e ∈ entries, e ∈ d.pump.entries ++ d.left := by
    intro e he
    rw [hsplit]
    exact mem_append_left _ he
  have hle : d.machine.applied ≤ m'.applied := by
    rcases ht.applied with ⟨hsame, -⟩ | ⟨hnew, last, hlast, hm', -⟩
    · rw [hsame]
    · rw [hm']
      exact le_of_lt (hnew last hlast)
  constructor
  · rw [← h.log_eq, hsplit]
    apply append_assoc
  · change receipts.foldl (Ring.push appliedRing) d.ring = _
    rw [h.ring_eq]
    apply Ring.foldl_push_keep
  · have hall : entries.filter CommittedEntry.isCommand = entries :=
      filter_eq_self.mpr fun e he => decide_eq_true (ht.command e he)
    change (d.history.receipts ++ receipts).map _ = (List.filter _ (d.history.processed ++ entries)).map _
    rw [map_append, filter_append, map_append, h.receipts_pos, hall, ht.pos_eq]
  · change d.history.applications ++ (receipts.filter _).map _
      = o.applications ++ (List.filter _ (d.history.receipts ++ receipts)).map _
    rw [h.applications_eq, filter_append, map_append, append_assoc]
    congr 3
    apply filter_congr
    intro r hr
    obtain ⟨e, he, hindex⟩ := hentry r hr
    -- Below the entry, the machine stands where it was opened or has moved beyond that.
    rcases h.applied_lt (hahead e he) with hsame | hlt
    · rw [hsame]
    · rw [hindex] at hlt
      rw [decide_eq_true hlt, decide_eq_true (lt_of_le_of_lt h.le_applied hlt)]
  · exact h.le_applied.trans hle
  · intro r hr
    rcases mem_append.mp hr with hr | hr
    · exact (h.receipts_le r hr).trans hle
    · obtain ⟨e, he, hindex⟩ := hentry r hr
      rw [← hindex]
      rcases ht.applied with ⟨hsame, hskipped⟩ | ⟨-, last, -, hm', hlast⟩
      · exact (hskipped e he).trans (le_of_eq hsame.symm)
      · exact (hlast e he).trans (le_of_eq hm'.symm)
  · rcases ht.applied with ⟨hsame, -⟩ | ⟨-, last, hlast, hm', -⟩
    · rcases h.applied_from with hopened | ⟨r, hr, hindex⟩
      · exact .inl (hsame.trans hopened)
      · exact .inr ⟨r, mem_append_left _ hr, hindex.trans hsame.symm⟩
    · right
      have hmem := mem_map_of_mem (f := CommittedEntry.pos) hlast
      rw [← ht.pos_eq] at hmem
      obtain ⟨r, hr, hpos⟩ := mem_map.mp hmem
      use r, mem_append_right _ hr
      change r.index = m'.applied
      rw [hm']
      exact congrArg AppliedPosition.index hpos

/-- Moving an entry from the unprocessed to the processed ones, if it is no command. -/
theorem passed {entry : CommittedEntry} {rest : List CommittedEntry}
    (hentries : d.pump.entries = entry :: rest) (hkind : entry.kind ≠ .command)
    (hpump : d'.pump.entries = rest) (hleft : d'.left = d.left)
    (hprocessed : d'.history.processed = d.history.processed ++ [entry])
    (hring : d'.ring = d.ring) (hreceipts : d'.history.receipts = d.history.receipts)
    (happlications : d'.history.applications = d.history.applications)
    (hmachine : d'.machine = d.machine) :
  Applies o d'
  := by
  have hcommand : entry.isCommand = false := decide_eq_false hkind
  constructor
  · rw [hprocessed, hpump, hleft, ← h.log_eq, hentries, append_assoc]
    rfl
  · rw [hring, hreceipts, h.ring_eq]
  · rw [hreceipts, hprocessed, h.receipts_pos, filter_append, filter_cons_of_neg (by simp [hcommand]),
      filter_nil, append_nil]
  · rw [happlications, hreceipts, h.applications_eq]
  · rw [hmachine]
    exact h.le_applied
  · rw [hreceipts, hmachine]
    exact h.receipts_le
  · rw [hreceipts, hmachine]
    exact h.applied_from

theorem pump (hconf : ∀ e ∈ d.pump.unreceipted, e.isConf = true) (hstep : Pump x confer d d') :
  Applies o d'
  := by
  have hlog := h.log_eq
  cases hstep with
  | take n hidle hfatal hleft =>
    rw [hidle] at hlog
    refine { h with log_eq := ?_ }
    rw [← hlog]
    change _ ++ (d.left.take (n + 1) ++ d.left.drop (n + 1)) = _
    rw [take_append_drop]
    rfl
  | @noop entry rest last hpump hkind =>
    have hentries : d.pump.entries = entry :: rest := by rw [hpump]; rfl
    refine h.passed hentries ?_ rfl rfl rfl rfl rfl rfl rfl
    rw [hkind]
    nofun
  | undecodable hpump hkind hdecode
  | unapplied hpump hkind hdecode hgroup hanswer
  | replay hpump hkind hindex
  | confChange hpump hkind hindex hconfer
  | unconferred cause hpump hkind hindex
  | poison hpump =>
    rw [hpump] at hlog
    exact { h with log_eq := hlog }
  | @commands entry rest rest' last cmd more m results hpump hkind hdecode hgroup hanswer =>
    obtain ⟨used, rfl, htake, hpos, hcommand, hnew⟩ := taken_spec hkind hgroup
    have hordered : (entry :: used).Pairwise fun a b => a.index < b.index := by
      have hahead := (pairwise_append.mp h.ordered).2.1
      rw [hpump] at hahead
      have hfront := (pairwise_append.mp hahead).1
      exact (pairwise_append.mp (show ((entry :: used) ++ rest').Pairwise _ from hfront)).1
    rw [htake]
    apply h.turned _ (turned_of_answer hordered hpos hcommand hnew hanswer)
    rw [hpump]
    exact congrArg (entry :: ·) (append_assoc used rest' d.left)
  | @receipt entry rest members hpump =>
    have hentries : d.pump.entries = entry :: rest := by rw [hpump]; rfl
    refine h.passed hentries ?_ rfl rfl rfl rfl rfl rfl rfl
    intro hkind
    have := hconf entry (by rw [hpump]; exact mem_singleton_self _)
    rw [CommittedEntry.isConf, hkind] at this
    nomatch this
  | publish hpump =>
    rw [hpump] at hlog
    rw [NodeDriver.publishDriverApplied]
    split_ifs
    · exact { h with log_eq := hlog }
    · exact { h with log_eq := hlog }
  | unpersisted cause hidle => exact { h with }
  | reads states async hidle hfatal hstates =>
    exact { h with log_eq := hlog }

end

end Applies

/-! ## Configuration changes -/

/-- The entries whose configuration changes the peer has applied or skipped. -/
def conferred (d : NodeDriver) : List CommittedEntry :=
  d.history.processed.filter CommittedEntry.isConf ++ d.pump.unreceipted

/-- The receipts of configuration changes, and the peer. -/
structure Confers (o : Opening) (d : NodeDriver) : Prop where
  receipts_eq : d.confReceipts = Ring.keep confReceiptsKept d.history.confReceipts
  receipts_pos : d.history.confReceipts.map ConfReceiptEntry.pos
    = (d.history.processed.filter CommittedEntry.isConf).map CommittedEntry.pos
  unreceipted_conf : ∀ e ∈ d.pump.unreceipted, e.isConf = true
  changes_eq : d.history.confChanges = o.confChanges
    ++ ((conferred d).filter fun e => o.confApplied < e.index).map CommittedEntry.pos
  le_confApplied : o.confApplied ≤ d.peer.confApplied
  conferred_le : ∀ e ∈ conferred d, e.index ≤ d.peer.confApplied
  confApplied_from : d.peer.confApplied = o.confApplied
    ∨ ∃ e ∈ conferred d, e.index = d.peer.confApplied

theorem Opening.confers (o : Opening) : Confers o o.driver where
  receipts_eq := Ring.keep_nil.symm
  receipts_pos := rfl
  unreceipted_conf := nofun
  changes_eq := (append_nil _).symm
  le_confApplied := le_rfl
  conferred_le := nofun
  confApplied_from := .inl rfl

namespace Confers

/-- A step that leaves the configuration changes alone. -/
theorem same (h : Confers o d) (hreceipts : d'.confReceipts = d.confReceipts)
    (hhistory : d'.history.confReceipts = d.history.confReceipts)
    (hchanges : d'.history.confChanges = d.history.confChanges)
    (happlied : d'.peer.confApplied = d.peer.confApplied)
    (hprocessed : d'.history.processed.filter CommittedEntry.isConf
      = d.history.processed.filter CommittedEntry.isConf)
    (hunreceipted : d'.pump.unreceipted = d.pump.unreceipted) :
  Confers o d'
  := by
  have hconferred : conferred d' = conferred d := by
    rw [conferred, conferred, hprocessed, hunreceipted]
  constructor
  · rw [hreceipts, hhistory, h.receipts_eq]
  · rw [hhistory, hprocessed, h.receipts_pos]
  · rw [hunreceipted]
    exact h.unreceipted_conf
  · rw [hchanges, hconferred, h.changes_eq]
  · rw [happlied]
    exact h.le_confApplied
  · rw [happlied, hconferred]
    exact h.conferred_le
  · rw [happlied, hconferred]
    exact h.confApplied_from

/-- A change that is new to the pump lies beyond all changes before it. -/
theorem confApplied_lt (h : Confers o d) (happlies : Applies o d)
    (hreceipted : d.pump.unreceipted = []) (he : entry ∈ d.pump.entries ++ d.left) :
  d.peer.confApplied = o.confApplied ∨ d.peer.confApplied < entry.index
  := by
  rcases h.confApplied_from with hsame | ⟨e, hmem, hindex⟩
  · exact .inl hsame
  · right
    rw [conferred, hreceipted, append_nil] at hmem
    rw [← hindex]
    apply happlies.processed_lt (mem_filter.mp hmem).1 he

theorem filter_isConf_append (processed : List CommittedEntry)
    (h : ∀ e ∈ entries, e.isConf = false) :
  (processed ++ entries).filter CommittedEntry.isConf = processed.filter CommittedEntry.isConf
  := by
  have hnone : entries.filter CommittedEntry.isConf = [] := by
    apply filter_eq_nil_iff.mpr
    intro e he
    rw [h e he]
    nofun
  rw [filter_append, hnone, append_nil]

theorem isConf_eq_false (hkind : entry.kind = .command ∨ entry.kind = .noop) :
  entry.isConf = false
  := by
  rw [CommittedEntry.isConf]
  rcases hkind with hkind | hkind <;> rw [hkind] <;> rfl

/-- The peer has applied or skipped a change, which is recorded if it was new. -/
theorem conferred_append (h : Confers o d) (hreceipted : d.pump.unreceipted = [])
    (hkind : entry.isConf = true) (hreceipts : d'.confReceipts = d.confReceipts)
    (hhistory : d'.history.confReceipts = d.history.confReceipts)
    (hprocessed : d'.history.processed = d.history.processed)
    (hunreceipted : d'.pump.unreceipted = [entry])
    (hchanges : d'.history.confChanges = d.history.confChanges
      ++ ([entry].filter fun e => o.confApplied < e.index).map CommittedEntry.pos)
    (hle : d.peer.confApplied ≤ d'.peer.confApplied) (hentry : entry.index ≤ d'.peer.confApplied)
    (hfrom : d'.peer.confApplied = d.peer.confApplied ∨ entry.index = d'.peer.confApplied) :
  Confers o d'
  := by
  have hconferred : conferred d' = conferred d ++ [entry] := by
    rw [conferred, conferred, hprocessed, hunreceipted, hreceipted, append_nil]
  constructor
  · rw [hreceipts, hhistory, h.receipts_eq]
  · rw [hhistory, hprocessed, h.receipts_pos]
  · rw [hunreceipted]
    exact fun e he => mem_singleton.mp he ▸ hkind
  · rw [hchanges, hconferred, h.changes_eq, filter_append, map_append, append_assoc]
  · exact h.le_confApplied.trans hle
  · intro e he
    rw [hconferred] at he
    rcases mem_append.mp he with he | he
    · exact (h.conferred_le e he).trans hle
    · rw [mem_singleton.mp he]
      exact hentry
  · rw [hconferred]
    rcases hfrom with hsame | hindex
    · rw [hsame]
      rcases h.confApplied_from with hopened | ⟨e, he, hindex⟩
      · exact .inl hopened
      · exact .inr ⟨e, mem_append_left _ he, hindex⟩
    · exact .inr ⟨entry, mem_append_right _ (mem_singleton_self _), hindex⟩

theorem pump (h : Confers o d) (happlies : Applies o d) (hstep : Pump x confer d d') :
  Confers o d'
  := by
  cases hstep with
  | take n hidle hfatal hleft =>
    refine h.same rfl rfl rfl rfl rfl ?_
    rw [hidle]
    rfl
  | noop hpump hkind =>
    refine h.same rfl rfl rfl rfl ?_ ?_
    · apply filter_isConf_append
      exact fun e he => mem_singleton.mp he ▸ isConf_eq_false (.inr hkind)
    · rw [hpump]
      rfl
  | undecodable hpump hkind hdecode
  | unapplied hpump hkind hdecode hgroup hanswer
  | unconferred cause hpump hkind hindex
  | poison hpump =>
    refine h.same rfl rfl rfl rfl rfl ?_
    rw [hpump]
    rfl
  | commands hpump hkind hdecode hgroup hanswer =>
    obtain ⟨used, -, htake, -, hcommand, -⟩ := taken_spec hkind hgroup
    refine h.same rfl rfl rfl rfl ?_ ?_
    · rw [htake]
      apply filter_isConf_append
      exact fun e he => isConf_eq_false (.inl (hcommand e he))
    · rw [hpump]
      rfl
  | @replay entry rest last hpump hkind hindex =>
    have hreceipted : d.pump.unreceipted = [] := by rw [hpump]; rfl
    have hold : ¬ o.confApplied < entry.index := by
      have hmem : entry ∈ d.pump.entries ++ d.left := by
        rw [hpump]
        exact mem_append_left _ (mem_cons_self ..)
      rcases h.confApplied_lt happlies hreceipted hmem with hsame | hlt
      · rw [← hsame]
        exact not_lt.mpr hindex
      · exact absurd hlt (not_lt.mpr hindex)
    refine h.conferred_append hreceipted hkind rfl rfl rfl rfl ?_ le_rfl hindex (.inl rfl)
    rw [filter_singleton, decide_eq_false hold]
    exact (append_nil _).symm
  | @confChange entry rest last members hpump hkind hindex hconfer =>
    have hreceipted : d.pump.unreceipted = [] := by rw [hpump]; rfl
    refine h.conferred_append hreceipted hkind rfl rfl rfl rfl ?_ (le_of_lt hindex) le_rfl
      (.inr rfl)
    rw [filter_singleton, decide_eq_true (lt_of_le_of_lt h.le_confApplied hindex)]
    rfl
  | @receipt entry rest members hpump =>
    have hunreceipted : d.pump.unreceipted = [entry] := by rw [hpump]; rfl
    have hkind : entry.isConf = true :=
      h.unreceipted_conf entry (hunreceipted ▸ mem_singleton_self _)
    have hprocessed : (d.history.processed ++ [entry]).filter CommittedEntry.isConf
        = d.history.processed.filter CommittedEntry.isConf ++ [entry] := by
      rw [filter_append, filter_singleton, hkind]
      rfl
    have hconferred : ∀ d', d'.history.processed = d.history.processed ++ [entry] →
        d'.pump.unreceipted = [] → conferred d' = conferred d := by
      intro d' hd' hnone
      rw [conferred, conferred, hd', hnone, hprocessed, hunreceipted, append_nil]
    constructor
    · change Ring.push confReceiptsKept d.confReceipts _ = _
      rw [h.receipts_eq]
      apply Ring.push_keep
    · change (d.history.confReceipts ++ [_]).map _ = (List.filter _ (d.history.processed ++ [entry])).map _
      rw [hprocessed, map_append, map_append, h.receipts_pos]
      rfl
    · nofun
    · rw [hconferred _ rfl rfl]
      exact h.changes_eq
    · exact h.le_confApplied
    · rw [hconferred _ rfl rfl]
      exact h.conferred_le
    · rw [hconferred _ rfl rfl]
      exact h.confApplied_from
  | publish hpump =>
    rw [NodeDriver.publishDriverApplied]
    split_ifs <;> refine h.same rfl rfl rfl rfl rfl ?_ <;> rw [hpump] <;> rfl
  | _ => exact h.same rfl rfl rfl rfl rfl rfl

end Confers

/-! ## The watermark -/

/-- The watermark is where the driver was opened, or a processed entry. -/
structure Marks (o : Opening) (d : NodeDriver) : Prop where
  watermark_from : ∀ wm ∈ d.driverApplied, o.base = some wm
    ∨ ∃ e ∈ d.history.processed, e.pos = wm
  last_from : ∀ rest last, d.pump = .applying rest last →
    rest ≠ [] ∨ ∃ e ∈ d.history.processed, e.pos = last

theorem Opening.marks (o : Opening) : Marks o o.driver where
  watermark_from _ hwm := .inl hwm
  last_from := nofun

namespace Marks

/-- A step that keeps the watermark and ends, if it applies entries, at a processed one. -/
theorem grown (h : Marks o d) (hwatermark : d'.driverApplied = d.driverApplied)
    (hprocessed : d.history.processed ⊆ d'.history.processed)
    (hlast : ∀ rest last, d'.pump = .applying rest last →
      rest ≠ [] ∨ ∃ e ∈ d'.history.processed, e.pos = last) :
  Marks o d'
  := by
  refine ⟨?_, hlast⟩
  intro wm hwm
  rw [hwatermark] at hwm
  rcases h.watermark_from wm hwm with hbase | ⟨e, he, hpos⟩
  · exact .inl hbase
  · exact .inr ⟨e, hprocessed he, hpos⟩

theorem pump (h : Marks o d) (hstep : Pump x confer d d') :
  Marks o d'
  := by
  cases hstep with
  | take n hidle hfatal hleft =>
    refine h.grown rfl (List.Subset.refl _) ?_
    intro rest last hpump
    cases hpump
    left
    intro hnil
    rcases take_eq_nil_iff.mp hnil with hn | hnil
    · nomatch hn
    · exact hleft hnil
  | @noop entry rest last hpump hkind
  | @receipt entry rest members hpump =>
    refine h.grown rfl (subset_append_left _ _) ?_
    intro rest last hpump
    cases hpump
    exact .inr ⟨entry, mem_append_right _ (mem_singleton_self _), rfl⟩
  | @commands entry rest rest' last cmd more m results hpump hkind hdecode hgroup hanswer =>
    obtain ⟨used, -, htake, hpos, -⟩ := taken_spec hkind hgroup
    obtain ⟨front, final, hfront, hlast⟩ := lastPos_eq entry hpos
    refine h.grown rfl (subset_append_left _ _) ?_
    intro rest last hpump
    cases hpump
    refine .inr ⟨final, mem_append_right _ ?_, hlast.symm⟩
    rw [htake, hfront]
    exact mem_append_right _ (mem_singleton_self _)
  | @publish last hpump =>
    rw [NodeDriver.publishDriverApplied]
    split_ifs
    · refine ⟨?_, nofun⟩
      intro wm hwm
      cases hwm
      rcases h.last_from [] last hpump with hne | hprocessed
      · exact absurd rfl hne
      · exact .inr hprocessed
    · use h.watermark_from, nofun
  | unpersisted cause hidle => exact h.grown rfl (List.Subset.refl _) h.last_from
  | reads states async hidle hfatal hstates =>
    exact h.grown rfl (List.Subset.refl _) h.last_from
  | _ => exact h.grown rfl (List.Subset.refl _) nofun

end Marks

/-! ## All traces -/

/-- Two entries of the log at one index are one. -/
theorem Opening.entry_unique (o : Opening) (he : e ∈ o.log) (he' : e' ∈ o.log)
    (hindex : e.index = e'.index) :
  e = e'
  := by
  have hnodup : (o.log.map CommittedEntry.index).Nodup := by
    apply pairwise_map.mpr
    exact o.committed.ordered.imp fun h => ne_of_lt h.1
  apply inj_on_of_nodup_map hnodup he he' hindex

/-- All traces of the pump are in step with what it has processed. -/
structure Sound (o : Opening) (d : NodeDriver) : Prop where
  applies : Applies o d
  confers : Confers o d
  marks : Marks o d

theorem Opening.sound (o : Opening) : Sound o o.driver := ⟨o.applies, o.confers, o.marks⟩

namespace Sound

section

variable (h : Sound o d)
include h

theorem pump (hstep : Pump x confer d d') : Sound o d' where
  applies := h.applies.pump h.confers.unreceipted_conf hstep
  confers := h.confers.pump h.applies hstep
  marks := h.marks.pump hstep

theorem mint {context : Bytes} (hmint : d.mintReadContext = some (context, d')) :
  Sound o d'
  := by
  obtain ⟨next, -, hnext⟩ := Option.map_eq_some_iff.mp hmint
  cases hnext
  exact ⟨{ h.applies with }, h.confers.same rfl rfl rfl rfl rfl rfl, { h.marks with }⟩

theorem submit (context : Bytes) : Sound o (d.submitRead context) :=
  ⟨{ h.applies with }, h.confers.same rfl rfl rfl rfl rfl rfl, { h.marks with }⟩

theorem beside (hstep : Beside d d') : Sound o d' := by
  cases hstep with
  | role leader hint ready =>
    exact ⟨{ h.applies with }, h.confers.same rfl rfl rfl rfl rfl rfl, { h.marks with }⟩
  | mint hmint =>
    have h := h.mint hmint
    exact ⟨{ h.applies with }, h.confers.same rfl rfl rfl rfl rfl rfl, { h.marks with }⟩
  | submit hcontext => apply h.submit

theorem env (hstep : Env x confer d d') : Sound o d' :=
  hstep.elim h.pump h.beside

/-- What a processed entry lies above is processed. -/
theorem processed_of_le (he : e ∈ d.history.processed) (he' : e' ∈ o.log)
    (hle : e'.index ≤ e.index) :
  e' ∈ d.history.processed
  := by
  rw [← h.applies.log_eq] at he'
  rcases mem_append.mp he' with he' | he'
  · exact he'
  · exact absurd (h.applies.processed_lt he he') (not_lt.mpr hle)

/-- What the watermark covers is processed. -/
theorem processed_of_watermark {wm : AppliedPosition} (hwm : wm ∈ d.driverApplied)
    (he : e ∈ o.log) (hle : e.index ≤ wm.index) :
  e ∈ d.history.processed
  := by
  rcases h.marks.watermark_from wm hwm with hbase | ⟨e', he', hpos⟩
  · exact absurd (o.base_lt wm hbase e he) (not_lt.mpr hle)
  · apply h.processed_of_le he' he
    rw [show e'.index = wm.index from congrArg AppliedPosition.index hpos]
    exact hle

/-- What the machine has passed in this life is processed. -/
theorem processed_of_applied (he : e ∈ o.log) (hnew : o.machine.applied < e.index)
    (hle : e.index ≤ d.machine.applied) :
  e ∈ d.history.processed
  := by
  rcases h.applies.applied_from with hsame | ⟨r, hr, hindex⟩
  · exact absurd (hnew.trans_le hle) (hsame ▸ lt_irrefl _)
  · obtain ⟨e', he', -, hpos⟩ := h.applies.entry_of_receipt hr
    apply h.processed_of_le he' he
    rw [show e'.index = r.index from congrArg AppliedPosition.index hpos, hindex]
    exact hle

theorem processed_subset : d.history.processed ⊆ o.log := by
  rw [← h.applies.log_eq]
  apply subset_append_left

end

end Sound

end Kv9.Raft.Driver
