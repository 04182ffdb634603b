import Kv9.Raft.Driver

/-!
# Redelivery does not matter

However a driver cuts a log into groups, wherever it crashes and from wherever the log is
handed over again, its machine is the one of an uninterrupted pass over a front part of the
log.  What makes this work is that an engine holds everything a machine knows: the applied
index is that of its position, and expiry is enabled exactly when it holds a watermark.  The
second needs that no plain write puts the watermark under a column family code that is not
assigned, which the guard of the watermark does not see.
-/

namespace Kv9.Raft

open Codec Engine Except RawTtl List Rows

/-- The operation puts the watermark under an unassigned column family code. -/
def KvOp.Forges : KvOp → Prop
  | .put cf key _ => cf ≠ cfCode .default ∧ cfFromCode cf = .default ∧ key = clockKey
  | .delete _ _ => False

/-- An operation of the command puts the watermark under an unassigned column family code. -/
def Command.Forges : Command → Prop
  | .put cf key value => (KvOp.put cf key value).Forges
  | .write ops => ∃ op ∈ ops, op.Forges
  | .catalogTxn ops => ∃ op ∈ ops, op.Forges
  | _ => False

namespace Machine

variable {x : Externals} {start m m' : Machine} {pos : AppliedPosition} {cmd : Command}
  {outcome : ApplyOutcome} {batch : WriteBatch}

/-! ## What an engine knows -/

/-- The engine holds everything the machine knows. -/
structure Faithful (m : Machine) : Prop where
  applied_eq : m.applied = m.engine.appliedIndex
  clock : ∃ clock, watermark m.engine = .ok clock ∧ clock.isSome = m.ttlEnabled

theorem Faithful.settled (h : m.Faithful) :
  m.Settled
  := by
  intro previous hprevious
  rw [h.applied_eq, Store.appliedIndex, Option.mem_def.mp hprevious]

/-- A faithful machine is found again in its engine. -/
theorem Faithful.reopen_eq (h : m.Faithful) (hidentity : m'.dataIdentity = m.dataIdentity)
    {m'' : Machine} (hreopen : { m' with engine := m.engine }.reopen = .ok m'') :
  m'' = m
  := by
  obtain ⟨clock, hclock, rfl⟩ := reopen_eq_ok hreopen
  obtain ⟨clock', hclock', henabled⟩ := h.clock
  cases (hclock.symm.trans hclock' : (.ok clock : Except Error _) = .ok clock')
  rw [← h.applied_eq, henabled, hidentity]

/-- Plain writes that do not forge the watermark leave it absent. -/
theorem write_lowerOps_clock {rows : Rows} {ops : List KvOp}
    (hreserved : ops.any reservedOp = false) (hforges : ∀ op ∈ ops, ¬ op.Forges)
    (hnone : rows .default clockKey = none) :
  rows.write (lowerOps ops) .default clockKey = none
  := by
  induction ops generalizing rows with
  | nil => exact hnone
  | cons op ops ih =>
    rw [any_cons, Bool.or_eq_false_iff] at hreserved
    apply ih hreserved.2 fun op' hop' => hforges op' (mem_cons_of_mem _ hop')
    rw [Rows.mutate]
    split_ifs with hrow
    · cases op with
      | put cf key value =>
        exfalso
        obtain ⟨hcf, rfl⟩ := hrow
        by_cases hcode : cf = cfCode .default
        · have := hreserved.1
          rw [reservedOp, hcode] at this
          simp [KvOp.cf, KvOp.key] at this
        · exact hforges _ (mem_cons_self ..) ⟨hcode, hcf.symm, rfl⟩
      | delete cf key => rfl
    · exact hnone

/-- An applied entry that does not forge the watermark keeps the machine faithful. -/
theorem Faithful.applied (h : m.Faithful) (happlied : Applied x m pos cmd m' outcome batch)
    (hforges : ¬ cmd.Forges) :
  m'.Faithful
  := by
  have hengine : m'.engine = (m.after batch pos).engine := by
    rw [happlied.after_eq]
  have henabled : m'.ttlEnabled = (m.ttlEnabled || enablesTtl cmd outcome) := by
    rw [happlied.after_eq]
  constructor
  · rw [happlied.applied_eq, hengine]
    rfl
  obtain ⟨clock, hclock, hsome⟩ := h.clock
  -- A batch that does not name the watermark, of an entry that does not enable expiry.
  have hsame : enablesTtl cmd outcome = false → (∀ mutation ∈ batch, mutation.key ≠ clockKey) →
      ∃ clock, watermark m'.engine = .ok clock ∧ clock.isSome = m'.ttlEnabled := by
    intro henables hbatch
    refine ⟨clock, ?_, ?_⟩
    · rw [hengine, watermark, get_after, write_of_forall_ne]
      · exact hclock
      · rintro mutation hmutation ⟨-, hkey⟩
        exact hbatch mutation hmutation hkey.symm
    · rw [henabled, henables, Bool.or_false, hsome]
  have hreserved := reserved_of_effect happlied.effect
  cases happlied.effect with
  | idle hlegacy httl =>
    apply hsame _ (by simp)
    cases cmd with
    | rawTtl command =>
      cases outcome with
      | plain => exact absurd rfl (httl command rfl)
      | _ => rfl
    | _ => rfl
  | @lowered _ ops hops hdisabled hops' hfence =>
    have henables : enablesTtl cmd .plain = false := by
      cases cmd with
      | rawTtl command => cases hops
      | _ => rfl
    refine ⟨none, ?_, ?_⟩
    · have hnone : m.engine.rows .default clockKey = none := by
        cases hrow : m.engine.rows .default clockKey with
        | none => rfl
        | some bytes =>
          rw [hdisabled] at hsome
          rw [watermark, Store.get, hrow] at hclock
          obtain ⟨_, -, hclock⟩ := bind_eq_ok.mp hclock
          cases hclock
          cases hsome
      rw [hengine, watermark, get_after]
      cases cmd with
      | fenced fence inner =>
        obtain ⟨r, -, -, -, howns⟩ := hfence fence inner rfl
        rw [write_of_forall_ne, hnone]
        · rfl
        · rintro mutation hmutation ⟨-, hkey⟩
          obtain ⟨op, hop, rfl⟩ := mem_lowerOps.mp hmutation
          have hraw := isRawKey_of_ownsOp (all_eq_true.mp howns op hop)
          rw [← KvOp.key_lower, ← hkey] at hraw
          cases hraw
      | put cf key value =>
        cases hops
        rw [write_lowerOps_clock hops' _ hnone]
        · rfl
        · intro op hop
          rw [mem_singleton.mp hop]
          exact hforges
      | write ops
      | catalogTxn ops =>
        cases hops
        rw [write_lowerOps_clock hops' (fun op hop hf => hforges ⟨op, hop, hf⟩) hnone]
        rfl
      | _ => cases hops
    · rw [henabled, henables, hdisabled]
      rfl
  | manifest hcmd =>
    apply hsame
    · rcases hcmd with rfl | rfl
      · rfl
      · rfl
    · exact fun mu hmu => (hreserved (fun _ _ => by simp) (fun _ _ => by simp) mu hmu).2
  | @ttl command r prior clock' batch _ _ _ _ _ hprior _ _ heffect =>
    refine ⟨some clock', ?_, ?_⟩
    · rw [hengine]
      exact watermark_after_ttl hprior heffect
    · rw [henabled, enablesTtl, Bool.or_true]
      rfl
  | _ => exact hsame rfl fun mu hmu => (hreserved (by rintro _ ⟨⟩) (by rintro _ ⟨⟩) mu hmu).2

theorem Applied.dataIdentity_eq (h : Applied x m pos cmd m' outcome batch) :
  m'.dataIdentity = m.dataIdentity
  := by
  rw [h.after_eq]
  rfl

end Machine

namespace Driver

open Kv9.Raft.Machine

variable {x : Externals} {start m m' : Machine} {entry : CommittedEntry}
  {entries log : List CommittedEntry}

/-! ## Passes -/

theorem pass_append (m : Machine) (entries entries' : List CommittedEntry) :
  pass x m (entries ++ entries') = (pass x m entries >>= fun m => pass x m entries')
  := foldlM_append

theorem pass_cons (m : Machine) (entry : CommittedEntry) (entries : List CommittedEntry) :
  pass x m (entry :: entries) = (applyEntry x m entry >>= fun m => pass x m entries)
  := foldlM_cons

theorem pass_nil (m : Machine) :
  pass x m [] = .ok m
  := rfl

/-- What holds at the start of a pass and is preserved by every entry holds after it. -/
theorem pass_induction (log : List CommittedEntry) {P : List CommittedEntry → Machine → Prop}
    (hstart : P [] start)
    (hstep : ∀ {done : List CommittedEntry} {m m' : Machine} {entry : CommittedEntry},
      P done m → applyEntry x m entry = .ok m' → entry ∈ log → P (done ++ [entry]) m')
    (hentries : ∀ e ∈ entries, e ∈ log) (h : pass x start entries = .ok m) :
  P entries m
  := by
  induction entries using List.reverseRecOn generalizing m with
  | nil =>
    cases h
    exact hstart
  | append_singleton entries entry ih =>
    rw [pass_append, bind_eq_ok] at h
    obtain ⟨m₁, hpass, hentry⟩ := h
    rw [pass_cons, bind_eq_ok] at hentry
    obtain ⟨m₂, hentry, hnil⟩ := hentry
    cases hnil
    apply hstep (ih (fun e he => hentries e (mem_append_left _ he)) hpass) hentry
    exact hentries entry (mem_append_right _ (mem_singleton_self _))

/-- An entry that is applied alone is no command, is skipped, or takes effect. -/
theorem applyEntry_eq_ok (h : applyEntry x m entry = .ok m') :
  (entry.kind ≠ .command ∧ m' = m)
    ∨ (entry.kind = .command ∧ ∃ cmd, entry.decode = .ok cmd ∧ ((entry.index ≤ m.applied ∧ m' = m)
        ∨ (m.applied < entry.index
          ∧ ∃ outcome batch, Machine.Applied x m entry.pos cmd m' outcome batch)))
  := by
  rw [applyEntry] at h
  split_ifs at h with hkind
  · simp only [bind_eq_ok] at h
    obtain ⟨cmd, hdecode, ⟨m₁, result⟩, happly, h⟩ := h
    cases h
    refine .inr ⟨hkind, cmd, hdecode, ?_⟩
    by_cases hindex : entry.index ≤ m.applied
    · rw [Machine.applyAt_of_le (show entry.pos.index ≤ m.applied from hindex)] at happly
      cases happly
      exact .inl ⟨hindex, rfl⟩
    · obtain ⟨batch, happlied⟩ := Machine.applied_of_applyAt happly (not_le.mp hindex)
      exact .inr ⟨not_le.mp hindex, _, batch, happlied⟩
  · cases h
    exact .inl ⟨hkind, rfl⟩

theorem decode_of_entry {cmd : Command} (h : entry.decode = .ok cmd) :
  Command.decode entry.data = .ok cmd
  := by
  rw [CommittedEntry.decode, bind_eq_ok] at h
  obtain ⟨cmd', hdecode, h⟩ := h
  split at h
  · nomatch h
  · cases h
    exact hdecode

/-- No command of the log forges the watermark. -/
def Unforged (log : List CommittedEntry) : Prop :=
  ∀ e ∈ log, ∀ cmd, Command.decode e.data = .ok cmd → ¬ cmd.Forges

/-- What is known of the machine after a pass over entries. -/
structure Passed (start : Machine) (entries : List CommittedEntry) (m : Machine) : Prop where
  faithful : m.Faithful
  identity : m.dataIdentity = start.dataIdentity
  applied_le : ∀ e ∈ entries, e.kind = .command → e.index ≤ m.applied
  position : m.engine.applied = start.engine.applied ∨ ∃ e ∈ entries, m.engine.applied = some e.pos

theorem passed_of_pass (hlog : Unforged log) (hstart : start.Faithful)
    (hentries : ∀ e ∈ entries, e ∈ log) (h : pass x start entries = .ok m) :
  Passed start entries m
  := by
  refine pass_induction log ⟨hstart, rfl, nofun, .inl rfl⟩ ?_ hentries h
  intro done m m' entry hp hentry hmem
  rcases applyEntry_eq_ok hentry with ⟨hkind, rfl⟩ | ⟨hkind, cmd, hdecode, hcase⟩
  · refine { hp with applied_le := ?_, position := ?_ }
    · intro e he hcommand
      rcases mem_append.mp he with he | he
      · exact hp.applied_le e he hcommand
      · rw [mem_singleton.mp he] at hcommand
        exact absurd hcommand hkind
    · refine hp.position.imp id ?_
      rintro ⟨e, he, heq⟩
      use e, mem_append_left _ he, heq
  rcases hcase with ⟨hindex, rfl⟩ | ⟨hindex, outcome, batch, happlied⟩
  · refine { hp with applied_le := ?_, position := ?_ }
    · intro e he hcommand
      rcases mem_append.mp he with he | he
      · exact hp.applied_le e he hcommand
      · rwa [mem_singleton.mp he]
    · refine hp.position.imp id ?_
      rintro ⟨e, he, heq⟩
      use e, mem_append_left _ he, heq
  · constructor
    · exact hp.faithful.applied happlied (hlog entry hmem cmd (decode_of_entry hdecode))
    · exact happlied.dataIdentity_eq.trans hp.identity
    · intro e he hcommand
      rw [happlied.applied_eq]
      rcases mem_append.mp he with he | he
      · exact (hp.applied_le e he hcommand).trans (le_of_lt hindex)
      · rw [mem_singleton.mp he]
        exact le_rfl
    · refine .inr ⟨entry, mem_append_right _ (mem_singleton_self _), ?_⟩
      rw [happlied.after_eq]
      rfl

/-! ## Turns -/

/-- Entries with the commands they carry, all of which may be grouped. -/
def Grouped (m : Machine) : List CommittedEntry → List (AppliedPosition × Command) → Prop :=
  List.Forall₂ fun e c => e.kind = .command ∧ Command.decode e.data = .ok c.2 ∧ c.1 = e.pos
    ∧ m.canGroupRaw c.2 = true

theorem entry_decode_of_canGroupRaw {cmd : Command} (h : Command.decode entry.data = .ok cmd)
    (hgroup : m.canGroupRaw cmd = true) :
  entry.decode = .ok cmd
  := by
  rw [CommittedEntry.decode, h]
  obtain ⟨-, ops, hops, -⟩ := Machine.canGroupRaw_eq_true hgroup
  cases cmd with
  | confChange add node => nomatch hops
  | _ => rfl

/-- What is gathered is a front part of the entries. -/
theorem gather_spec (m : Machine) (bytes count : ℕ) (entries : List CommittedEntry) :
  ∃ used, entries = used ++ (gather m bytes count entries).2
    ∧ Grouped m used (gather m bytes count entries).1
    ∧ (count ≤ Machine.maxRawGroupEntries →
      count + (gather m bytes count entries).1.length ≤ Machine.maxRawGroupEntries)
  := by
  induction entries generalizing bytes count with
  | nil => exact ⟨[], rfl, .nil, id⟩
  | cons next rest ih =>
    have hstop : gather m bytes count (next :: rest) = ([], next :: rest) →
        ∃ used, next :: rest = used ++ (gather m bytes count (next :: rest)).2
          ∧ Grouped m used (gather m bytes count (next :: rest)).1
          ∧ (count ≤ Machine.maxRawGroupEntries →
            count + (gather m bytes count (next :: rest)).1.length
              ≤ Machine.maxRawGroupEntries) := by
      intro h
      rw [h]
      use [], rfl, .nil, id
    by_cases hroom : count < Machine.maxRawGroupEntries ∧ next.kind = .command
        ∧ next.data.length ≤ Machine.maxRawGroupBytes - bytes
    · cases hdecode : Command.decode next.data with
      | error e =>
        apply hstop
        rw [gather, if_pos hroom, hdecode]
      | ok cmd =>
        by_cases hgroup : m.canGroupRaw cmd = true
        · obtain ⟨used, hused, hgrouped, hcount⟩ :=
            ih (bytes + next.data.length) (count + 1)
          have hgather : gather m bytes count (next :: rest)
              = ((next.pos, cmd) :: (gather m (bytes + next.data.length) (count + 1) rest).1,
                (gather m (bytes + next.data.length) (count + 1) rest).2) := by
            rw [gather, if_pos hroom, hdecode]
            simp [hgroup]
          rw [hgather]
          refine ⟨next :: used, ?_, .cons ⟨hroom.2.1, hdecode, rfl, hgroup⟩ hgrouped, ?_⟩
          · rw [cons_append, ← hused]
          · intro _
            rw [length_cons]
            omega
        · apply hstop
          rw [gather, hdecode]
          simp [if_neg hgroup]
    · apply hstop
      rw [gather, if_neg hroom]

variable {commands : List (AppliedPosition × Command)}

/-- A pass over entries that may be grouped applies their commands one by one. -/
theorem pass_eq_applyAll (h : Grouped m entries commands) (m₁ : Machine) :
  pass x m₁ entries = (do
    let (m₂, _) ← m₁.applyAll x commands
    return m₂)
  := by
  induction h generalizing m₁ with
  | nil => rfl
  | @cons entry c entries commands hc _ ih =>
    obtain ⟨pos, cmd⟩ := c
    obtain ⟨hkind, hdecode, hpos, hgroup⟩ := hc
    subst hpos
    rw [pass_cons, applyEntry, if_pos hkind, entry_decode_of_canGroupRaw hdecode hgroup, ok_bind]
    simp only [Machine.applyAll]
    cases happly : m₁.applyAt x entry.pos cmd with
    | error e => rfl
    | ok answer =>
      simp only [ok_bind, pure_eq_ok, ih]
      cases hall : answer.1.applyAll x commands with
      | error e => rfl
      | ok answer' => rfl

variable {rest : List CommittedEntry}

/-- A turn applies a front part of the entries, as a pass does. -/
theorem pass_of_turn (hm : m.Settled) (h : turn x m entries = .ok (m', rest)) :
  ∃ used, entries = used ++ rest ∧ pass x m used = .ok m'
  := by
  cases entries with
  | nil =>
    cases h
    exact ⟨[], rfl, rfl⟩
  | cons entry entries =>
    rw [turn] at h
    by_cases hkind : entry.kind = .command
    · rw [if_pos hkind, bind_eq_ok] at h
      obtain ⟨cmd, hdecode, h⟩ := h
      have halone : ∀ {m'}, applyCommands x m entry.pos cmd [] = .ok m' →
          pass x m [entry] = .ok m' := by
        intro m' h
        rw [pass_cons, applyEntry, if_pos hkind, hdecode, ok_bind]
        rw [applyCommands] at h
        rw [h]
        rfl
      by_cases hgroup : entry.data.length ≤ Machine.maxRawGroupBytes ∧ m.applied < entry.index
          ∧ m.canGroupRaw cmd = true
      · simp only [if_pos hgroup, bind_eq_ok] at h
        obtain ⟨m₁, happly, h⟩ := h
        cases h
        obtain ⟨used, hused, hgrouped, -⟩ := gather_spec m entry.data.length 1 entries
        refine ⟨entry :: used, ?_, ?_⟩
        · rw [cons_append, ← hused]
        · cases hmore : (gather m entry.data.length 1 entries).1 with
          | nil =>
            rw [hmore] at happly hgrouped
            cases hgrouped
            exact halone happly
          | cons c more =>
            rw [hmore] at happly hgrouped
            simp only [applyCommands, bind_eq_ok] at happly
            obtain ⟨⟨m₂, results⟩, happly, h⟩ := happly
            cases h
            have hall := Machine.applyAll_of_applyRawGroup (x := x) hm happly
            have hentry : Grouped m (entry :: used) ((entry.pos, cmd) :: c :: more) :=
              .cons ⟨hkind, decode_of_entry hdecode, rfl, hgroup.2.2⟩ hgrouped
            rw [pass_eq_applyAll hentry, hall]
            rfl
      · simp only [if_neg hgroup, bind_eq_ok] at h
        obtain ⟨m₁, happly, h⟩ := h
        cases h
        use [entry], rfl, halone happly
    · rw [if_neg hkind] at h
      cases h
      use [entry], rfl
      rw [pass_cons, applyEntry, if_neg hkind]
      rfl

/-- A turn on an entry that is applied already changes nothing. -/
theorem turn_of_le (hdecode : entry.kind = .command →
      ∃ cmd, entry.decode = .ok cmd) (hindex : entry.kind = .command → entry.index ≤ m.applied) :
  turn x m (entry :: rest) = .ok (m, rest)
  := by
  rw [turn]
  by_cases hkind : entry.kind = .command
  · obtain ⟨cmd, hcmd⟩ := hdecode hkind
    have hle := hindex hkind
    have hgroup : ¬ (entry.data.length ≤ Machine.maxRawGroupBytes ∧ m.applied < entry.index
        ∧ m.canGroupRaw cmd = true) := fun h => absurd h.2.1 (not_lt.mpr hle)
    rw [if_pos hkind, hcmd, ok_bind]
    simp only [if_neg hgroup, applyCommands]
    rw [Machine.applyAt_of_le (show entry.pos.index ≤ m.applied from hle)]
    rfl
  · rw [if_neg hkind]

/-- A pass decodes every command on its way. -/
theorem decode_of_pass {done ahead : List CommittedEntry}
    (h : pass x start (done ++ entry :: ahead) = .ok m) :
  entry.kind = .command → ∃ cmd, entry.decode = .ok cmd
  := by
  intro hkind
  rw [pass_append, bind_eq_ok] at h
  obtain ⟨m₁, -, h⟩ := h
  rw [pass_cons, bind_eq_ok] at h
  obtain ⟨m₂, hentry, -⟩ := h
  rcases applyEntry_eq_ok hentry with ⟨hne, -⟩ | ⟨-, cmd, hdecode, -⟩
  · exact absurd hkind hne
  · use cmd, hdecode

/-! ## Deliveries -/

/-- A driver follows the pass: its machine is that of a pass over the entries it is done with
and possibly some more, and every engine a crash may leave is that of a pass. -/
structure Follows (x : Externals) (start : Machine) (log : List CommittedEntry) (d : Delivery) :
    Prop where
  machine : ∃ done ahead, done ++ d.pending = log.take d.cursor
    ∧ ahead <+: d.pending ++ log.drop d.cursor ∧ pass x start (done ++ ahead) = .ok d.machine
  engines : ∀ engine ∈ d.engines, ∃ front m, front <+: log ∧ pass x start front = .ok m
    ∧ m.engine = engine

variable {d : Delivery}

theorem front_of_done {done ahead : List CommittedEntry}
    (hdone : done ++ d.pending = log.take d.cursor)
    (hahead : ahead <+: d.pending ++ log.drop d.cursor) :
  done ++ ahead <+: log
  := by
  have := (prefix_append_right_inj done).mpr hahead
  rwa [← append_assoc, hdone, take_append_drop] at this

theorem Follows.take (h : Follows x start log d) (n : ℕ) (hidle : d.pending = []) :
  Follows x start log
    { d with pending := (log.drop d.cursor).take n, cursor := min (d.cursor + n) log.length }
  := by
  obtain ⟨done, ahead, hdone, hahead, hpass⟩ := h.machine
  rw [hidle, append_nil] at hdone
  rw [hidle] at hahead
  have htake : log.take (min (d.cursor + n) log.length) = log.take (d.cursor + n) := by
    rw [take_eq_take_iff]
    omega
  have hdrop : log.drop (min (d.cursor + n) log.length) = (log.drop d.cursor).drop n := by
    rw [drop_drop]
    rcases le_total (d.cursor + n) log.length with hle | hle
    · rw [min_eq_left hle]
    · rw [min_eq_right hle, drop_length, drop_eq_nil_of_le hle]
  refine ⟨⟨done, ahead, ?_, ?_, hpass⟩, h.engines⟩
  · change done ++ (log.drop d.cursor).take n = log.take (min (d.cursor + n) log.length)
    rw [htake, hdone, take_add]
  · change ahead <+: (log.drop d.cursor).take n ++ log.drop (min (d.cursor + n) log.length)
    rw [hdrop, take_append_drop]
    exact hahead

theorem Follows.turn (hlog : Unforged log) (hstart : start.Faithful) (h : Follows x start log d)
    (hturn : Driver.turn x d.machine d.pending = .ok (m, rest)) :
  Follows x start log { d with machine := m, pending := rest, engines := m.engine :: d.engines }
  := by
  obtain ⟨done, ahead, hdone, hahead, hpass⟩ := h.machine
  have hfront := front_of_done hdone hahead
  have hpassed := passed_of_pass hlog hstart (fun e he => hfront.subset he) hpass
  have hmachine : ∃ done ahead, done ++ rest = log.take d.cursor
      ∧ ahead <+: rest ++ log.drop d.cursor ∧ pass x start (done ++ ahead) = .ok m := by
    cases ahead with
    | nil =>
      rw [append_nil] at hpass
      obtain ⟨used, hused, hm⟩ := pass_of_turn hpassed.faithful.settled hturn
      refine ⟨done ++ used, [], ?_, nil_prefix, ?_⟩
      · rw [append_assoc, ← hused, hdone]
      · rw [append_nil, pass_append, hpass, ok_bind, hm]
    | cons entry ahead =>
      cases hpending : d.pending with
      | nil =>
        rw [hpending] at hturn hdone hahead
        cases hturn
        use done, entry :: ahead, hdone, hahead, hpass
      | cons entry' pending =>
        rw [hpending] at hturn hdone hahead
        rw [cons_append, cons_prefix_cons] at hahead
        obtain ⟨rfl, hahead⟩ := hahead
        -- The entry has been applied in an earlier life, and is skipped now.
        have hindex := hpassed.applied_le entry (mem_append_right _ (mem_cons_self ..))
        rw [turn_of_le (decode_of_pass hpass) hindex] at hturn
        cases hturn
        refine ⟨done ++ [entry], ahead, ?_, hahead, ?_⟩
        · rw [append_assoc, singleton_append, hdone]
        · rw [append_assoc, singleton_append, hpass]
  use hmachine
  intro engine hengine
  rcases mem_cons.mp hengine with rfl | hengine
  · obtain ⟨done, ahead, hdone, hahead, hpass⟩ := hmachine
    refine ⟨done ++ ahead, m, ?_, hpass, rfl⟩
    have hwhole := (prefix_append_right_inj done).mpr hahead
    rwa [← append_assoc, hdone, take_append_drop] at hwhole
  · exact h.engines engine hengine

/-- A pass over entries without commands changes nothing. -/
theorem pass_of_no_command (h : ∀ e ∈ entries, e.kind ≠ .command) :
  pass x m entries = .ok m
  := by
  induction entries with
  | nil => rfl
  | cons entry entries ih =>
    rw [pass_cons, applyEntry, if_neg (h entry (mem_cons_self ..))]
    exact ih fun e he => h e (mem_cons_of_mem _ he)

/-- The engine of a pass has applied no command of the entries that follow. -/
theorem Passed.applied_lt (hlog : CommittedLog log) (hstart : start.engine.applied = none)
    {front : List CommittedEntry} (hfront : front ++ rest <+: log) (h : Passed start front m)
    {e : CommittedEntry} (he : e ∈ rest) :
  m.applied < e.index
  := by
  have hpairwise := hlog.ordered.sublist hfront.sublist
  rw [h.faithful.applied_eq, Store.appliedIndex]
  rcases h.position with hnone | ⟨e', he', hsome⟩
  · rw [hnone, hstart]
    have hne := hlog.index_ne e (hfront.subset (mem_append_right _ he))
    exact lt_of_le_of_ne (UInt64.zero_le ..) hne.symm
  · rw [hsome]
    exact ((pairwise_append.mp hpairwise).2.2 e' he' e he).1

theorem Follows.crash (hlog : CommittedLog log) (hunforged : Unforged log) (hstart : start.Faithful)
    (hfresh : start.engine.applied = none) (h : Follows x start log d) {engine : Store} {cursor : ℕ}
    (hengine : engine ∈ d.engines) (hreopen : { d.machine with engine := engine }.reopen = .ok m)
    (hskipped : ∀ e ∈ log.take cursor, e.kind = .command → e.index ≤ m.applied) :
  Follows x start log { d with machine := m, pending := [], cursor := cursor }
  := by
  obtain ⟨front, m₁, hfront, hpass, rfl⟩ := h.engines engine hengine
  have hpassed := passed_of_pass hunforged hstart (fun e he => hfront.subset he) hpass
  obtain ⟨done, ahead, hdone, hahead, hpass'⟩ := h.machine
  have hidentity : d.machine.dataIdentity = start.dataIdentity :=
    (passed_of_pass hunforged hstart
      (fun e he => (front_of_done hdone hahead).subset he) hpass').identity
  have hm := hpassed.faithful.reopen_eq (hidentity.trans hpassed.identity.symm) hreopen
  subst hm
  refine ⟨?_, h.engines⟩
  rcases prefix_or_prefix_of_prefix hfront ( take_prefix cursor log) with hshort | hlong
  · -- What was handed over beyond the engine holds no command.
    obtain ⟨rest, hrest⟩ := hshort
    have hnone : ∀ e ∈ rest, e.kind ≠ .command := by
      intro e he hkind
      have hle := hskipped e (hrest ▸ mem_append_right _ he) hkind
      have hwhole : front ++ rest <+: log := hrest ▸ take_prefix cursor log
      exact absurd (hpassed.applied_lt hlog hfresh hwhole he) (not_lt.mpr hle)
    use log.take cursor, [], append_nil _, nil_prefix
    rw [append_nil, ← hrest, pass_append, hpass, ok_bind, pass_of_no_command hnone]
  · obtain ⟨ahead, rfl⟩ := hlong
    refine ⟨log.take cursor, ahead, append_nil _, ?_, hpass⟩
    rw [nil_append, ← prefix_append_right_inj (log.take cursor), take_append_drop]
    exact hfront

theorem Delivers.follows (hlog : CommittedLog log) (hunforged : Unforged log)
    (hstart : start.Faithful) (hfresh : start.engine.applied = none) (h : Delivers x start log d) :
  Follows x start log d
  := by
  induction h with
  | start =>
    use ⟨[], [], rfl, nil_prefix, rfl⟩
    intro engine hengine
    rw [mem_singleton.mp hengine]
    exact ⟨[], start, nil_prefix, rfl, rfl⟩
  | take n _ hidle ih => exact ih.take n hidle
  | turn _ hturn ih => exact ih.turn hunforged hstart hturn
  | crash _ hengine hreopen _ hskipped ih =>
    exact ih.crash hlog hunforged hstart hfresh hengine hreopen hskipped

/-! ## Turns do not fail -/

/-- The positions of entries that follow a pass are in order. -/
theorem ordered_of_grouped (hlog : CommittedLog log) {previous : AppliedPosition}
    (hgrouped : Grouped m entries commands) (hentries : entries.Sublist log)
    (hprevious : ∀ e ∈ entries, previous.index < e.index ∧ previous.term ≤ e.term) :
  Machine.Ordered previous commands
  := by
  induction hgrouped generalizing previous with
  | nil => trivial
  | @cons entry c entries commands hc _ ih =>
    obtain ⟨pos, cmd⟩ := c
    have hpos : pos = entry.pos := hc.2.2.1
    subst hpos
    have hentry := hprevious entry (mem_cons_self ..)
    have hpairwise := hlog.ordered.sublist hentries
    use ⟨hentry.1, hlog.term_ne entry (hentries.subset (mem_cons_self ..)), hentry.2⟩
    apply ih ((sublist_cons_self ..).trans hentries)
    exact (pairwise_cons.mp hpairwise).1

theorem canGroup_of_grouped (h : Grouped m entries commands) :
  ∀ c ∈ commands, m.canGroupRaw c.2 = true
  := by
  induction h with
  | nil => nofun
  | cons hc _ ih =>
    intro c hmem
    rcases mem_cons.mp hmem with rfl | hmem
    · exact hc.2.2.2
    · exact ih c hmem

theorem exists_pass_of_append {entries' : List CommittedEntry}
    (h : pass x m (entries ++ entries') = .ok m') :
  ∃ m₁, pass x m entries = .ok m₁
  := by
  rw [pass_append, bind_eq_ok] at h
  obtain ⟨m₁, hpass, -⟩ := h
  use m₁, hpass

/-- A turn on entries that a pass gets through does not fail. -/
theorem turn_of_pass (hlog : CommittedLog log) (hm : m.Settled) (hentries : entries.Sublist log)
    (hafter : ∀ e ∈ entries, m.applied < e.index ∧ m.appliedTerm ≤ e.term)
    (hpass : pass x m entries = .ok m') :
  ∃ answer, turn x m entries = .ok answer
  := by
  cases entries with
  | nil => exact ⟨_, rfl⟩
  | cons entry entries =>
    rw [turn]
    by_cases hkind : entry.kind = .command
    · rw [if_pos hkind]
      have hsplit : pass x m ([entry] ++ entries) = .ok m' := hpass
      obtain ⟨m₁, hentry⟩ := exists_pass_of_append hsplit
      rw [pass_cons, applyEntry, if_pos hkind, bind_eq_ok] at hentry
      obtain ⟨m₂, hentry, -⟩ := hentry
      rw [bind_eq_ok] at hentry
      obtain ⟨cmd, hdecode, hentry⟩ := hentry
      rw [hdecode, ok_bind]
      have halone : applyCommands x m entry.pos cmd [] = .ok m₂ := hentry
      by_cases hgroup : entry.data.length ≤ Machine.maxRawGroupBytes ∧ m.applied < entry.index
          ∧ m.canGroupRaw cmd = true
      · simp only [if_pos hgroup]
        obtain ⟨used, hused, hgrouped, hcount⟩ := gather_spec m entry.data.length 1 entries
        cases hmore : (gather m entry.data.length 1 entries).1 with
        | nil =>
          rw [halone]
          exact ⟨_, rfl⟩
        | cons c more =>
          rw [hmore] at hgrouped hcount
          have hgrouped : Grouped m (entry :: used) ((entry.pos, cmd) :: c :: more) :=
            .cons ⟨hkind, decode_of_entry hdecode, rfl, hgroup.2.2⟩ hgrouped
          have hfront : ∃ m₃, pass x m (entry :: used) = .ok m₃ := by
            rw [hused] at hpass
            exact exists_pass_of_append hpass
          obtain ⟨m₃, hfront⟩ := hfront
          rw [pass_eq_applyAll hgrouped, bind_eq_ok] at hfront
          obtain ⟨⟨m₄, results⟩, hall, -⟩ := hfront
          have hsub : (entry :: used).Sublist (entry :: entries) := by
            rw [hused]
            exact sublist_append_left ..
          have hordered : Machine.Ordered ⟨m.appliedTerm, m.applied⟩ ((entry.pos, cmd) :: c :: more) :=
            ordered_of_grouped hlog hgrouped (hsub.trans hentries)
              fun e he => hafter e (hsub.subset he)
          have hlength : ((entry.pos, cmd) :: c :: more).length ≤ Machine.maxRawGroupEntries := by
            have := hcount (by decide)
            rw [length_cons]
            omega
          have hanswer := Machine.applyRawGroup_of_applyAll hm (cons_ne_nil _ _)
            hlength hordered (canGroup_of_grouped hgrouped) hall
          simp only [applyCommands, hanswer, ok_bind]
          exact ⟨_, rfl⟩
      · simp only [if_neg hgroup]
        rw [halone]
        exact ⟨_, rfl⟩
    · rw [if_neg hkind]
      exact ⟨_, rfl⟩

theorem Passed.appliedTerm_le (hlog : CommittedLog log) (hstart : start.engine.applied = none)
    {front : List CommittedEntry} (hfront : front ++ rest <+: log) (h : Passed start front m)
    {e : CommittedEntry} (he : e ∈ rest) :
  m.appliedTerm ≤ e.term
  := by
  have hpairwise := hlog.ordered.sublist hfront.sublist
  rw [Machine.appliedTerm]
  rcases h.position with hnone | ⟨e', he', hsome⟩
  · rw [hnone, hstart]
    exact UInt64.zero_le ..
  · rw [hsome]
    exact ((pairwise_append.mp hpairwise).2.2 e' he' e he).2

/-- Where a pass gets through the log, no turn fails. -/
theorem Follows.turn_ok (hlog : CommittedLog log) (hunforged : Unforged log)
    (hstart : start.Faithful) (hfresh : start.engine.applied = none) (h : Follows x start log d)
    {final : Machine} (hfinal : pass x start log = .ok final) :
  ∃ answer, Driver.turn x d.machine d.pending = .ok answer
  := by
  obtain ⟨done, ahead, hdone, hahead, hpass⟩ := h.machine
  have hfront := front_of_done hdone hahead
  have hpassed := passed_of_pass hunforged hstart (fun e he => hfront.subset he) hpass
  cases ahead with
  | nil =>
    rw [append_nil] at hpass hpassed
    have hsplit : log = done ++ (d.pending ++ log.drop d.cursor) := by
      rw [← append_assoc, hdone, take_append_drop]
    have hwhole : done ++ d.pending <+: log := by
      rw [hdone]
      exact take_prefix ..
    rw [hsplit, pass_append, hpass] at hfinal
    obtain ⟨m', hpending⟩ := exists_pass_of_append hfinal
    refine turn_of_pass hlog hpassed.faithful.settled ?_ ?_ hpending
    · exact (sublist_append_right ..).trans hwhole.sublist
    · intro e he
      exact ⟨hpassed.applied_lt hlog hfresh hwhole he, hpassed.appliedTerm_le hlog hfresh hwhole he⟩
  | cons entry ahead =>
    cases hpending : d.pending with
    | nil => exact ⟨_, rfl⟩
    | cons entry' pending =>
      rw [hpending, cons_append, cons_prefix_cons] at hahead
      obtain ⟨rfl, -⟩ := hahead
      refine ⟨_, turn_of_le (decode_of_pass hpass) ?_⟩
      exact hpassed.applied_le entry (mem_append_right _ (mem_cons_self ..))

/-- However a committed log is cut into groups and single applies, wherever the driver crashes
and wherever delivery restarts, the machine ends where one uninterrupted pass ends, with the
same rows and the same position, if no plain write of the log puts the watermark under an
unassigned column family code; and where the pass gets through, so does every turn. -/
theorem redelivery_ends_as_pass {identity : Identity}
    (hopen : Machine.opening identity = .ok start) (hlog : CommittedLog log)
    (hunforged : Unforged log) (h : Delivers x start log d) :
  (d.pending = [] → d.cursor = log.length → pass x start log = .ok d.machine)
  ∧ ∀ final, pass x start log = .ok final →
      ∃ answer, Driver.turn x d.machine d.pending = .ok answer
  := by
  have heq := Machine.opening_eq_ok hopen
  have hstart : start.Faithful := by
    rw [heq]
    exact ⟨rfl, none, rfl, rfl⟩
  have hfresh : start.engine.applied = none := by
    rw [heq]
    rfl
  have hfollows := h.follows hlog hunforged hstart hfresh
  constructor
  · intro hpending hcursor
    obtain ⟨done, ahead, hdone, hahead, hpass⟩ := hfollows.machine
    rw [hpending, hcursor, append_nil, take_length] at hdone
    rw [hpending, hcursor, nil_append, drop_length, prefix_nil] at hahead
    rwa [hdone, hahead, append_nil] at hpass
  · intro final hfinal
    exact hfollows.turn_ok hlog hunforged hstart hfresh hfinal

/-! ### Two logs -/

/-- A key of a client. -/
def sampleKey : Bytes := [0x72, 0, 0, 7, 1]

/-- The bytes of a put. -/
def samplePut (cf : UInt8) (key value : Bytes) : Bytes :=
  [1, 1, cf] ++ (be 4 key.length ++ (key ++ (be 4 value.length ++ value)))

/-- A put of a value. -/
def sampleWrite (index : UInt64) : CommittedEntry :=
  ⟨index, 1, .command, samplePut 0 sampleKey [9]⟩

/-- A put of the watermark under an unassigned column family code. -/
def sampleForgery : CommittedEntry :=
  ⟨1, 1, .command, samplePut 3 clockKey (ClockWatermark.encode ⟨5⟩)⟩

theorem decode_sampleWrite (index : UInt64) :
  (sampleWrite index).decode = .ok (.put 0 sampleKey [9])
  := rfl

theorem decode_sampleForgery :
  sampleForgery.decode = .ok (.put 3 clockKey (ClockWatermark.encode ⟨5⟩))
  := by
  have hdecode : Command.decode sampleForgery.data
      = .ok (.put 3 clockKey (ClockWatermark.encode ⟨5⟩)) := by
    decide +kernel
  rw [CommittedEntry.decode, hdecode]
  rfl

theorem applyAt_sampleWrite (x : Externals) {m : Machine} (hdisabled : m.ttlEnabled = false)
    (hm : m.Settled) {index : UInt64} (hindex : m.applied < index) :
  m.applyAt x ⟨1, index⟩ (.put 0 sampleKey [9])
    = .ok (m.after [.put .default sampleKey [9]] ⟨1, index⟩, ⟨index, .plain⟩)
  := by
  have hgroup : m.canGroupRaw (.put 0 sampleKey [9]) = true := by
    rw [canGroupRaw, if_neg (by rw [hdisabled]; exact Bool.false_ne_true)]
    rfl
  have hlt : m.applied < (⟨1, index⟩ : AppliedPosition).index := hindex
  rw [applyAt_of_canGroupRaw hgroup hlt]
  exact finish_eq_ok.mpr ⟨hm.advances hlt, rfl, rfl⟩

/-- The machine with a forged watermark. -/
def sampleForged : Machine :=
  sampleMachine.after [.put .default clockKey (ClockWatermark.encode ⟨5⟩)] ⟨1, 1⟩

theorem applyAt_sampleForgery (x : Externals) :
  sampleMachine.applyAt x ⟨1, 1⟩ (.put 3 clockKey (ClockWatermark.encode ⟨5⟩))
    = .ok (sampleForged, ⟨1, .plain⟩)
  := rfl

/-- Reopened over a forged watermark, the machine takes expiry for enabled. -/
theorem reopen_sampleForged :
  sampleForged.reopen = .ok { sampleForged with ttlEnabled := true }
  := by
  have hclock : sampleForged.engine.get .default clockKey
      = some (ClockWatermark.encode ⟨5⟩) := by
    rw [sampleForged, get_after, write_cons, write_nil, mutate_put, if_pos ⟨rfl, rfl⟩]
  have hrange : sampleForged.engine.get .default rangeKey = none := by
    rw [sampleForged, get_after, write_cons, write_nil, mutate_put,
      if_neg fun h => rangeKey_ne_clockKey h.2]
    rfl
  have hidentity : sampleForged.dataIdentity = some (.ofRange sampleRange) := rfl
  have hengine : withEngine sampleForged.engine = .ok ⟨none, sampleForged.engine, 1, true⟩ := by
    rw [withEngine, hclock, readRow, ClockWatermark.decode_encode]
    rfl
  rw [reopen, hengine, ok_bind]
  simp only [setDataGroup, fenceCurrent, rangeOf, hrange]
  rfl

theorem applyAt_sampleWrite_refused (x : Externals) :
  { sampleForged with ttlEnabled := true }.applyAt x ⟨1, 2⟩ (.put 0 sampleKey [9])
    = .ok ({ sampleForged with ttlEnabled := true }.after [] ⟨1, 2⟩,
      ⟨2, .rawTtlRejected 100 .legacyCommand⟩)
  := rfl

theorem turn_alone {x : Externals} {m m' : Machine} {cmd : Command} {result : ApplyResult}
    (hkind : entry.kind = .command) (hdecode : entry.decode = .ok cmd)
    (happly : m.applyAt x entry.pos cmd = .ok (m', result)) :
  turn x m [entry] = .ok (m', [])
  := by
  have hgather : (if entry.data.length ≤ maxRawGroupBytes ∧ m.applied < entry.index
      ∧ m.canGroupRaw cmd = true then gather m entry.data.length 1 [] else ([], []))
      = (([], []) : List (AppliedPosition × Command) × List CommittedEntry) := by
    split_ifs
    · rfl
    · rfl
  rw [turn, if_pos hkind, hdecode, ok_bind, hgather]
  simp [applyCommands, happly]

theorem applyEntry_of_applyAt {x : Externals} {m m' : Machine} {cmd : Command}
    {result : ApplyResult} (hkind : entry.kind = .command) (hdecode : entry.decode = .ok cmd)
    (happly : m.applyAt x entry.pos cmd = .ok (m', result)) :
  applyEntry x m entry = .ok m'
  := by
  simp [applyEntry, if_pos hkind, hdecode, happly]

/-- A put of the watermark under an unassigned column family code passes the guard.  A driver
that restarts after it refuses the writes that an uninterrupted pass applies. -/
theorem redelivery_of_forgery_diverges :
  ∃ (x : Externals) (d : Delivery) (final : Machine),
    opening (.ofRange sampleRange) = .ok sampleMachine
    ∧ CommittedLog [sampleForgery, sampleWrite 2]
    ∧ Delivers x sampleMachine [sampleForgery, sampleWrite 2] d
    ∧ d.pending = [] ∧ d.cursor = [sampleForgery, sampleWrite 2].length
    ∧ pass x sampleMachine [sampleForgery, sampleWrite 2] = .ok final
    ∧ final.engine.get .default sampleKey ≠ d.machine.engine.get .default sampleKey
  := by
  obtain ⟨x⟩ := nonempty_externals
  have hlog : CommittedLog [sampleForgery, sampleWrite 2] := by
    constructor
    · simp [sampleForgery, sampleWrite]
    · simp [sampleForgery, sampleWrite]
    · simp [sampleForgery, sampleWrite]
  have hfirst : turn x sampleMachine [sampleForgery] = .ok (sampleForged, []) :=
    turn_alone rfl decode_sampleForgery (applyAt_sampleForgery x)
  have hsecond : turn x { sampleForged with ttlEnabled := true } [sampleWrite 2]
      = .ok ({ sampleForged with ttlEnabled := true }.after [] ⟨1, 2⟩, []) :=
    turn_alone rfl (decode_sampleWrite 2) (applyAt_sampleWrite_refused x)
  have hcrashed : Delivers x sampleMachine [sampleForgery, sampleWrite 2] _ :=
    ((Delivers.start.take 1 rfl).turn hfirst).crash (mem_cons_self ..) reopen_sampleForged
      (show 1 ≤ _ by decide) (by simp [sampleForgery, sampleForged, Machine.after])
  have hdelivered := (hcrashed.take 1 rfl).turn hsecond
  have hpass : pass x sampleMachine [sampleForgery, sampleWrite 2]
      = .ok (sampleForged.after [.put .default sampleKey [9]] ⟨1, 2⟩) := by
    have hwrite := applyAt_sampleWrite x (m := sampleForged) rfl (settled_after _ _ _)
      (show sampleForged.applied < 2 by decide)
    rw [pass_cons, applyEntry_of_applyAt rfl decode_sampleForgery (applyAt_sampleForgery x),
      ok_bind, pass_cons, applyEntry_of_applyAt rfl (decode_sampleWrite 2) hwrite, ok_bind, pass_nil]
  refine ⟨x, _, _, rfl, hlog, hdelivered, rfl, rfl, hpass, ?_⟩
  rintro ⟨⟩

/-- A value that is written, lost with a crash and delivered again. -/
theorem redelivery_ends_as_pass_lost :
  ∃ (x : Externals) (d : Delivery), Delivers x sampleMachine [sampleWrite 1] d
    ∧ pass x sampleMachine [sampleWrite 1] = .ok d.machine
    ∧ d.machine.engine.get .default sampleKey = some [9]
  := by
  obtain ⟨x⟩ := nonempty_externals
  have hopen : opening (.ofRange sampleRange) = .ok sampleMachine := rfl
  have hlog : CommittedLog [sampleWrite 1] := by
    constructor
    · simp
    · simp [sampleWrite]
    · simp [sampleWrite]
  have hunforged : Unforged [sampleWrite 1] := by
    intro e he cmd hcmd
    rw [mem_singleton.mp he] at hcmd
    cases hcmd.symm.trans (decode_of_entry (decode_sampleWrite 1))
    exact fun h => h.1 rfl
  have hturn : turn x sampleMachine [sampleWrite 1]
      = .ok (sampleMachine.after [.put .default sampleKey [9]] ⟨1, 1⟩, []) :=
    turn_alone rfl (decode_sampleWrite 1) (applyAt_sampleWrite x rfl (settled_of_opening hopen) (by decide))
  have hcrashed : Delivers x sampleMachine [sampleWrite 1] _ :=
    ((Delivers.start.take 1 rfl).turn hturn).crash (m := sampleMachine)
      (mem_cons_of_mem _ (mem_cons_self ..)) rfl (Nat.zero_le _) (by simp)
  have hdelivered := (hcrashed.take 1 rfl).turn hturn
  refine ⟨x, _, hdelivered, (redelivery_ends_as_pass hopen hlog hunforged hdelivered).1 rfl rfl, ?_⟩
  rw [get_after, write_cons, write_nil, mutate_put, if_pos ⟨rfl, rfl⟩]

end Driver

end Kv9.Raft
