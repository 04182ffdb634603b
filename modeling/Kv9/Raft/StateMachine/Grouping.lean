import Kv9.Raft.StateMachine.Effects

/-!
# What is grouped

A group holds plain and fenced writes of clients' values only, at ascending positions, and is
written once, at its last position.
-/

namespace Kv9.Raft

open Codec Engine Except RawTtl

namespace Machine

variable {m : Machine} {pos : AppliedPosition} {cmd : Command}
  {commands : List (AppliedPosition × Command)}

/-- Apply commands one by one. -/
def applyAll (x : Externals) (m : Machine) :
    List (AppliedPosition × Command) → Except Error (Machine × List ApplyResult)
  | [] => .ok (m, [])
  | (pos, cmd) :: commands => do
    let (m, result) ← m.applyAt x pos cmd
    let (m, results) ← applyAll x m commands
    return (m, result :: results)

/-- The applied index is not behind the engine. -/
def Settled (m : Machine) : Prop := ∀ previous ∈ m.engine.applied, previous.index ≤ m.applied

theorem Settled.advances (h : m.Settled) (hindex : m.applied < pos.index) :
  m.Advances pos
  := fun previous hprevious => lt_of_le_of_lt (h previous hprevious) hindex

theorem settled_after (m : Machine) (batch : WriteBatch) (pos : AppliedPosition) :
  (m.after batch pos).Settled
  := by
  rintro previous ⟨⟩
  apply le_rfl

/-! ## What may be grouped -/

theorem isRawKey_of_rawKey {cf : UInt8} {key : Bytes} (h : rawKey cf key = true) :
  cf = cfCode .default ∧ isRawKey key = true
  := by
  rw [rawKey, Bool.and_eq_true, beq_iff_eq] at h
  use h.1
  cases hkey : decodeKey key with
  | error e =>
    rw [hkey] at h
    nomatch h.2
  | ok k =>
    rw [hkey] at h
    have := (Bool.and_eq_true _ _ ▸ h.2 : _ ∧ _).1
    apply isRawKey_of_decodeKey hkey (beq_iff_eq.mp this)

theorem isRawKey_rangeKey :
  isRawKey rangeKey = false
  := isRawKey_cons_eq_false (by decide) _

theorem reservedOp_of_rawKey {op : KvOp} (h : rawKey op.cf op.key = true) :
  reservedOp op = false
  := by
  obtain ⟨hcf, hkey⟩ := isRawKey_of_rawKey h
  have hne : op.key ≠ clockKey := by
    intro heq
    rw [heq] at hkey
    nomatch hkey
  have hcode : (cfCode .default == cfCode .write) = false := by decide
  rw [reservedOp, hcf, beq_eq_false_iff_ne.mpr hne]
  rfl

theorem any_reservedOp_of_rawOps {ops : List KvOp} (h : rawOps ops = true) :
  ops.any reservedOp = false
  := by
  rw [List.any_eq_false]
  intro op hop
  rw [reservedOp_of_rawKey (List.all_eq_true.mp h op hop)]
  exact Bool.false_ne_true

/-! ## Groups -/

/-- Positions that ascend from a position, in a log with terms. -/
def Ordered : AppliedPosition → List (AppliedPosition × Command) → Prop
  | _, [] => True
  | previous, (pos, _) :: commands =>
    (previous.index < pos.index ∧ pos.term ≠ 0 ∧ previous.term ≤ pos.term) ∧ Ordered pos commands

/-- The machine after a group. -/
def afterGroup (m : Machine) (batch : WriteBatch) (commands : List (AppliedPosition × Command)) :
    Machine :=
  match commands.getLast? with
  | none => m
  | some last => m.after batch last.1

theorem after_afterGroup (next batch : WriteBatch) {pos : AppliedPosition}
    (hnil : commands = [] → batch = []) :
  (m.after next pos).afterGroup batch commands
    = m.afterGroup (next ++ batch) ((pos, cmd) :: commands)
  := by
  cases commands with
  | nil =>
    rw [hnil rfl, List.append_nil]
    rfl
  | cons c commands =>
    rw [afterGroup, afterGroup, List.getLast?_cons_cons]
    cases hlast : (c :: commands).getLast? with
    | none => simp at hlast
    | some last =>
      simp [after, Rows.write_append]

theorem Ordered.index_lt {previous : AppliedPosition} {commands : List (AppliedPosition × Command)}
    (h : Ordered previous commands) :
  ∀ c ∈ commands, previous.index < c.1.index
  := by
  induction commands generalizing previous with
  | nil => nofun
  | cons c commands ih =>
    obtain ⟨hc, hrest⟩ := h
    intro c' hmem
    rcases List.mem_cons.mp hmem with rfl | hmem
    · exact hc.1
    · exact hc.1.trans (ih hrest c' hmem)

end Machine

end Kv9.Raft
