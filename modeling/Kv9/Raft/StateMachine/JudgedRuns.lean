import Kv9.Raft.StateMachine.Runs

/-!
# Runs with a judge

The runs of a state machine whose fences are judged by any judge.  They apply single entries and
groups and reopen the machine, like those of a data group, which are runs with the judge of its
range.
-/

namespace Kv9.Raft

open Codec Engine Except

namespace Machine

variable {x : Externals} {judge : Option Judge} {start m m' : Machine} {pos : AppliedPosition}
  {cmd : Command} {result : ApplyResult} {trace : List Event}

/-- The runs from a machine. -/
inductive RunBy (x : Externals) (judge : Option Judge) (start : Machine) :
    List Event → Machine → Prop where
  | start : RunBy x judge start [] start
  | apply {trace : List Event} {m m' : Machine} {pos : AppliedPosition} {cmd : Command}
      {result : ApplyResult} (hrun : RunBy x judge start trace m)
      (happly : m.applyAtBy x judge pos cmd = .ok (m', result)) :
      RunBy x judge start
        (if m.applied < pos.index then trace ++ [⟨pos, cmd, result.outcome⟩] else trace) m'
  | group {trace : List Event} {m m' : Machine} {commands : List (AppliedPosition × Command)}
      {results : List ApplyResult} (hrun : RunBy x judge start trace m)
      (happly : m.applyRawGroupBy judge commands = .ok (m', results)) :
      RunBy x judge start (trace ++ events commands results) m'
  | reopen {trace : List Event} {m m' : Machine} (hrun : RunBy x judge start trace m)
      (hreopen : m.reopen = .ok m') :
      RunBy x judge start trace m'

theorem RunBy.trans {trace' : List Event} (h : RunBy x judge start trace m)
    (h' : RunBy x judge m trace' m') :
  RunBy x judge start (trace ++ trace') m'
  := by
  induction h' with
  | start => rwa [List.append_nil]
  | @apply trace' m₁ m₂ pos cmd result _ happly ih =>
    have hstep := ih.apply happly
    split_ifs at hstep ⊢
    · rwa [List.append_assoc] at hstep
    · apply hstep
  | group _ happly ih =>
    have hstep := ih.group happly
    rwa [List.append_assoc] at hstep
  | reopen _ hreopen ih => apply ih.reopen hreopen

theorem after_of_applyAtBy (h : m.applyAtBy x judge pos cmd = .ok (m', result))
    (hindex : m.applied < pos.index) :
  m'.Settled ∧ m'.applied = pos.index ∧ m'.dataIdentity = m.dataIdentity
  := by
  obtain ⟨batch, happlied⟩ | ⟨fence, inner, -, -, -, -, -, rfl⟩ := applied_of_applyAtBy h hindex
  · use happlied.settled, happlied.applied_eq
    rw [happlied.after_eq]
    rfl
  · exact ⟨settled_after _ _ _, rfl, rfl⟩

/-- Every judged entry preserves `P`. -/
def PreservesBy (x : Externals) (judge : Option Judge) (P : List Event → Machine → Prop) : Prop :=
  ∀ {trace : List Event} {m m' : Machine} {pos : AppliedPosition} {cmd : Command}
    {result : ApplyResult}, m.Settled → P trace m → m.applied < pos.index →
    m.applyAtBy x judge pos cmd = .ok (m', result) →
    P (trace ++ [⟨pos, cmd, result.outcome⟩]) m'

/-- Every entry of a data group preserves `P`. -/
def Preserves (x : Externals) (P : List Event → Machine → Prop) : Prop :=
  ∀ {trace : List Event} {m m' : Machine} {pos : AppliedPosition} {cmd : Command}
    {outcome : ApplyOutcome} {batch : WriteBatch}, m.Settled → P trace m →
    m.applied < pos.index → Applied x m pos cmd m' outcome batch →
    P (trace ++ [⟨pos, cmd, outcome⟩]) m'

variable {P : List Event → Machine → Prop}

/-- What holds through commands one by one. -/
theorem applyAllBy_induction (happly : PreservesBy x judge P) {previous : AppliedPosition}
    {commands : List (AppliedPosition × Command)} {results : List ApplyResult} (hm : m.Settled)
    (hp : P trace m) (hprevious : m.applied ≤ previous.index) (hordered : Ordered previous commands)
    (h : m.applyAllBy x judge commands = .ok (m', results)) :
  m'.Settled ∧ P (trace ++ events commands results) m'
  := by
  induction commands generalizing m previous results trace with
  | nil =>
    cases h
    use hm
    rwa [events, List.zipWith_nil_left, List.append_nil]
  | cons c commands ih =>
    obtain ⟨pos, cmd⟩ := c
    obtain ⟨⟨hindex, -, -⟩, hordered⟩ := hordered
    simp only [applyAllBy, bind_eq_ok] at h
    obtain ⟨⟨m₁, result⟩, hat, ⟨m₂, rest⟩, hall, h⟩ := h
    cases h
    have hlt : m.applied < pos.index := lt_of_le_of_lt hprevious hindex
    obtain ⟨hsettled, happlied, -⟩ := after_of_applyAtBy hat hlt
    have hstep := ih hsettled (happly hm hp hlt hat) (le_of_eq happlied) hordered hall
    rwa [List.append_assoc] at hstep

/-- What holds at the start, and is preserved by every applied entry and every reopening, holds
after every run. -/
theorem RunBy.induction (hsettled : start.Settled) (hstart : P [] start)
    (happly : PreservesBy x judge P)
    (hreopen : ∀ {trace : List Event} {m m' : Machine}, P trace m → m.reopen = .ok m' →
      P trace m') (h : RunBy x judge start trace m) :
  m.Settled ∧ P trace m
  := by
  induction h with
  | start => exact ⟨hsettled, hstart⟩
  | @apply trace m m' pos cmd result _ hat ih =>
    split_ifs with hlt
    · use (after_of_applyAtBy hat hlt).1, happly ih.1 ih.2 hlt hat
    · rw [applyAtBy_of_le (not_lt.mp hlt)] at hat
      cases hat
      exact ih
  | group _ hgroup ih =>
    obtain ⟨batch, last, hloop, -, -⟩ := after_of_applyRawGroupBy hgroup
    have hcommands := (clientBatch_of_groupLoopBy hloop).2
    have hall := applyAllBy_of_applyRawGroupBy (x := x) ih.1 hcommands hgroup
    exact applyAllBy_induction happly ih.1 ih.2 (le_refl _) (of_groupLoopBy_eq_ok hloop) hall
  | reopen _ hopen ih => exact ⟨settled_of_reopen hopen, hreopen ih.2 hopen⟩

/-! ## Runs of a data group -/

theorem judge_of_reopen (h : m.reopen = .ok m') :
  m'.judge = m.judge
  := by
  obtain ⟨clock, -, rfl⟩ := reopen_eq_ok h
  rfl

/-- The runs of a data group are runs with the judge of its range. -/
theorem RunBy.of_run (h : Run x start trace m) :
  RunBy x start.judge start trace m ∧ m.judge = start.judge
  := by
  induction h with
  | start => exact ⟨.start, rfl⟩
  | apply _ hat ih =>
    obtain ⟨hrun, hjudge⟩ := ih
    refine ⟨hrun.apply ?_, (judge_of_applyAt hat).trans hjudge⟩
    rw [← hjudge, applyAtBy_judge, hat]
  | group _ hgroup ih =>
    obtain ⟨hrun, hjudge⟩ := ih
    rw [← applyRawGroupBy_judge, hjudge] at hgroup
    use hrun.group hgroup
    obtain ⟨batch, last, -, -, rfl⟩ := after_of_applyRawGroupBy hgroup
    rw [← hjudge]
    rfl
  | reopen _ hopen ih => exact ⟨ih.1.reopen hopen, (judge_of_reopen hopen).trans ih.2⟩

/-- What an applied entry of a data group preserves, judged entries preserve that are judged by
its range. -/
theorem Preserves.judged (happly : Preserves x P) (judge : Option Judge) :
  PreservesBy x judge fun trace m => P trace m ∧ m.judge = judge
  := by
  rintro trace m m' pos cmd result hm ⟨hp, rfl⟩ hindex h
  rw [applyAtBy_judge] at h
  obtain ⟨batch, happlied⟩ := applied_of_applyAt h hindex
  use happly hm hp hindex happlied, judge_of_applyAt h

/-- What holds through commands one by one. -/
theorem applyAll_induction (happly : Preserves x P) {previous : AppliedPosition}
    {commands : List (AppliedPosition × Command)} {results : List ApplyResult} (hm : m.Settled)
    (hp : P trace m) (hprevious : m.applied ≤ previous.index) (hordered : Ordered previous commands)
    (h : m.applyAll x commands = .ok (m', results)) :
  m'.Settled ∧ P (trace ++ events commands results) m'
  := by
  rw [← applyAllBy_judge] at h
  obtain ⟨hsettled, hp, -⟩ := applyAllBy_induction (P := fun trace m' => P trace m' ∧ m'.judge = m.judge)
    (happly.judged _) hm ⟨hp, rfl⟩ hprevious hordered h
  use hsettled, hp

/-- What holds at the start, and is preserved by every applied entry and every reopening, holds
after every run. -/
theorem Run.induction (hsettled : start.Settled) (hstart : P [] start)
    (happly : Preserves x P)
    (hreopen : ∀ {trace : List Event} {m m' : Machine}, P trace m → m.reopen = .ok m' →
      P trace m') (h : Run x start trace m) :
  m.Settled ∧ P trace m
  := by
  obtain ⟨hm, hp, -⟩ := RunBy.induction (P := fun trace m => P trace m ∧ m.judge = start.judge)
    hsettled ⟨hstart, rfl⟩ (happly.judged _)
    (fun hp hopen => ⟨hreopen hp.1 hopen, (judge_of_reopen hopen).trans hp.2⟩) (RunBy.of_run h).1
  use hm, hp

theorem Run.settled (h : Run x start trace m) (hsettled : start.Settled) :
  m.Settled
  := by
  apply (Run.induction (P := fun _ _ => True) hsettled trivial _ _ h).1
  · exact fun _ _ _ _ => trivial
  · exact fun _ _ => trivial

end Machine

end Kv9.Raft
