import Kv9.Engine.Wal.Stream

/-!
# What a log is for

A log is a journal: the list of the records appended to it and the checkpoint selected
last.  A call that was interrupted leaves a doubt, which the next recovery resolves one way
or the other.  Recovery answers the records of the journal after its checkpoint.

A run of the log consists of calls, each of which can be interrupted at any of its effects
on the disk, of crashes, and of recoveries, which can be interrupted as well.  The journal
explains a run if the answers of the run are answers of the journal.
-/

namespace Kv9.Engine.Wal

open Crash

/-- A call of the log. -/
inductive Call where
  | append (r : Record)
  | rotate
  | checkpoint (m : CheckpointManifest) (listing : List (UInt64 × ℕ))
  | reclaim (listing : List (UInt64 × ℕ))

namespace Call

/-- The record that a call appends. -/
def record : Call → Option Record
  | .append r => some r
  | _ => none

/-- The checkpoint that a call selects. -/
def manifest : Call → Option CheckpointManifest
  | .checkpoint m _ => some m
  | _ => none

end Call

/-- What became of a call. -/
inductive Answer where
  | done
  | refused
  | interrupted
deriving DecidableEq

/-- What is seen of a log from outside. -/
inductive Event where
  | call (c : Call) (a : Answer)
  | crash
  | recover (answer : Except WalError (Option CheckpointManifest × List Record))

/-- The record that a call may have left in the log. -/
def Event.attempted : Event → Option Record
  | .call c .done => c.record
  | .call c .interrupted => c.record
  | _ => none

/-- The record that a call has acknowledged. -/
def Event.acknowledged : Event → Option Record
  | .call c .done => c.record
  | _ => none

/-! ## Journals -/

/-- Whether a record lies after the checkpoint. -/
def afterCheckpoint (checkpoint : Option CheckpointManifest) (r : Record) : Bool :=
  match checkpoint, r.position with
  | some m, some pos => m.index < pos.index
  | _, _ => true

/-- The records of a log, its checkpoint, and the call that may or may not have happened. -/
structure Journal where
  records : List Record
  checkpoint : Option CheckpointManifest
  doubt : Option Call

namespace Journal

/-- A new journal, which goes on from a checkpoint. -/
def new (checkpoint : Option CheckpointManifest) : Journal := ⟨[], checkpoint, none⟩

/-- The journal after a call. -/
def after (j : Journal) (c : Call) : Journal :=
  { j with records := j.records ++ c.record.toList, checkpoint := c.manifest.or j.checkpoint }

/-- The records after the checkpoint. -/
def replay (j : Journal) : List Record := j.records.filter (afterCheckpoint j.checkpoint)

/-- The journal without its doubt. -/
def settled (j : Journal) : Journal := { j with doubt := none }

/-- The events of a journal. -/
inductive Step : Journal → Event → Journal → Prop
  | done {j : Journal} (c : Call) : j.doubt = none → Step j (.call c .done) (j.after c)
  | refused {j : Journal} (c : Call) : Step j (.call c .refused) j
  | interrupted {j : Journal} (c : Call) :
      j.doubt = none → Step j (.call c .interrupted) { j with doubt := some c }
  | crash {j : Journal} : Step j .crash j
  /-- Recovery finds that the interrupted call, if any, did not happen. -/
  | forget {j : Journal} :
      Step j (.recover (.ok (j.checkpoint, j.replay))) j.settled
  /-- Recovery finds that the interrupted call happened. -/
  | keep {j : Journal} {c : Call} : j.doubt = some c →
      Step j (.recover (.ok ((j.after c).checkpoint, (j.after c).replay))) (j.after c).settled

/-- The journal explains the events since the log was created. -/
inductive Explains (checkpoint : Option CheckpointManifest) : List Event → Journal → Prop
  | nil : Explains checkpoint [] (.new checkpoint)
  | snoc {es : List Event} {e : Event} {j j' : Journal} :
      Explains checkpoint es j → Step j e j' → Explains checkpoint (es ++ [e]) j'

end Journal

/-! ## Runs -/

/-- Two positions of one history: both the index and the term of the earlier one are not
above those of the later one. -/
def Ordered (cut pos : AppliedPosition) : Prop :=
  pos = cut ∨ (pos.index < cut.index ∧ pos.term ≤ cut.term)
    ∨ (cut.index < pos.index ∧ cut.term ≤ pos.term)

/-- What the caller certifies of a checkpoint: its position belongs to the history that the
records come from. -/
def Certified (past : List Event) : Call → Prop
  | .checkpoint m _ =>
    ∀ r ∈ past.filterMap Event.attempted, ∀ pos ∈ r.position, Ordered m.position pos
  | _ => True

/-- The disk, and the log if it is open. -/
structure World where
  disk : Disk
  stream : Option SegmentedWal

/-- The same outcome with another answer. -/
def Outcome.map {α β : Type} (f : α → β) (o : Outcome α) : Outcome β :=
  ⟨o.effects, o.stream, o.result.map f⟩

/-- Run a call.  It answers whether it has done what was asked. -/
def Call.run (x : Externals) (w : SegmentedWal) : Call → Outcome Bool
  | .append r => (w.append x r).map fun _ => true
  | .rotate => (w.rotate x).map fun _ => true
  | .checkpoint m listing => w.checkpointApplied x m listing
  | .reclaim listing => (w.reclaimObsolete listing).map fun _ => true

/-- What a result says of a call. -/
def Answer.of : Except WalError Bool → Answer
  | .ok true => .done
  | _ => .refused

/-- Collect the records that recovery visits. -/
def collect (visited : List Record) (r : Record) : Except WalError (List Record) :=
  .ok (visited ++ [r])

/-- Open the log on a disk.  The caller accepts the checkpoint it is shown. -/
def World.recover (x : Externals) (d : Disk) (target : UInt64) :
    List DiskOp × Except WalError (Recovered (List Record)) :=
  Wal.recover collect x (fun _ => .ok ()) d target []

/-- What recovery shows to the caller: the checkpoint and the records after it. -/
def Recovered.answer (r : Recovered (List Record)) : Option CheckpointManifest × List Record :=
  (r.stream.topology.checkpoint, r.visited)

/-- The steps of a log, given the events of its past. -/
inductive Step (x : Externals) (past : List Event) : World → Event → World → Prop
  | call {d : Disk} {w : SegmentedWal} (c : Call) : Certified past c →
      Step x past ⟨d, some w⟩ (.call c (.of (c.run x w).result))
        ⟨(c.run x w).effects.foldl Disk.apply d, some (c.run x w).stream⟩
  | interrupt {d : Disk} {w : SegmentedWal} {done : List DiskOp} (c : Call) :
      Certified past c → Cut DiskOp.Part (c.run x w).effects done →
      Step x past ⟨d, some w⟩ (.call c .interrupted) ⟨done.foldl Disk.apply d, none⟩
  | crash {d d' : Disk} {s : Option SegmentedWal} :
      d.Crashed d' → Step x past ⟨d, s⟩ .crash ⟨d', none⟩
  | recover {d : Disk} {s : Option SegmentedWal} {target : UInt64} :
      validateTarget target = .ok () →
      Step x past ⟨d, s⟩ (.recover ((World.recover x d target).2.map Recovered.answer))
        ⟨(World.recover x d target).1.foldl Disk.apply d,
          (World.recover x d target).2.toOption.map Recovered.stream⟩
  | interruptRecovery {d : Disk} {s : Option SegmentedWal} {target : UInt64}
      {done : List DiskOp} : Cut DiskOp.Part (World.recover x d target).1 done →
      Step x past ⟨d, s⟩ .crash ⟨done.foldl Disk.apply d, none⟩

/-- The runs of a log. -/
inductive Run (x : Externals) (start : World) : List Event → World → Prop
  | nil : Run x start [] start
  | snoc {es : List Event} {e : Event} {w w' : World} :
      Run x start es w → Step x es w e w' → Run x start (es ++ [e]) w'

/-! ## Facts about journals -/

namespace Journal

variable {j j' : Journal} {e : Event} {es : List Event}

theorem attempted_concat (es : List Event) (e : Event) :
  (es ++ [e]).filterMap Event.attempted
    = es.filterMap Event.attempted ++ e.attempted.toList
  := by
  cases h : e.attempted <;> simp [h]

theorem acknowledged_concat (es : List Event) (e : Event) :
  (es ++ [e]).filterMap Event.acknowledged
    = es.filterMap Event.acknowledged ++ e.acknowledged.toList
  := by
  cases h : e.acknowledged <;> simp [h]

/-- The record in doubt. -/
def pending (j : Journal) : List Record := (j.doubt.bind Call.record).toList

/-- The journal holds every acknowledged record, in order, and only records that were
attempted. -/
theorem Explains.records {checkpoint : Option CheckpointManifest} (h : Explains checkpoint es j) :
  (es.filterMap Event.acknowledged).Sublist j.records
    ∧ (j.records ++ j.pending).Sublist (es.filterMap Event.attempted)
  := by
  induction h with
  | nil => exact ⟨List.Sublist.refl _, List.Sublist.refl _⟩
  | @snoc es e j j' _ hstep ih =>
    obtain ⟨hacked, htried⟩ := ih
    have hrecords := (List.sublist_append_left j.records j.pending).trans htried
    rw [attempted_concat, acknowledged_concat]
    cases hstep with
    | done c hdoubt =>
      use hacked.append (List.Sublist.refl _)
      simp only [after, pending, hdoubt, Option.bind_none, Option.toList_none, List.append_nil]
      apply hrecords.append (List.Sublist.refl _)
    | interrupted c hdoubt =>
      use by simpa [Event.acknowledged] using hacked
      apply hrecords.append (List.Sublist.refl _)
    | forget =>
      simpa [settled, pending, Event.acknowledged, Event.attempted] using ⟨hacked, hrecords⟩
    | @keep c hdoubt =>
      rw [pending, hdoubt] at htried
      simp only [settled, after, pending, Event.acknowledged, Event.attempted,
        Option.bind_none, Option.toList_none, List.append_nil]
      use hacked.trans (List.sublist_append_left _ _), htried
    | _ => simpa [Event.acknowledged, Event.attempted] using ⟨hacked, htried⟩

/-- Recovery answers the journal that it leaves. -/
theorem Step.recover_eq {answer : Except WalError (Option CheckpointManifest × List Record)}
    (h : Step j (.recover answer) j') :
  answer = .ok (j'.checkpoint, j'.replay)
  := by
  cases h with
  | forget => rfl
  | keep hdoubt => rfl

end Journal

end Kv9.Engine.Wal
