import Kv9.Lib.Resolution
import Kv9.Meta.Scope.Classes

/-!
# Following the references of a task

A task row is about what it names and about what the tasks it refers to are about.  The
references are followed against one view, to a bounded depth and through a cache.  Where no
chain of references is longer than the bound, what a task is resolved to depends neither on the
depth at which it is met nor on what is in the cache.
-/

namespace Kv9.Meta.Scope

open Codec Except Engine

/-- A task subject with its references followed.  A set is a list, of which only the members
matter. -/
structure Resolved where
  regions : List RegionId := []
  keyspaces : List UInt64 := []
  tenants : List UInt64 := []
  nodes : List NodeId := []
  drain : Option NodeId := none
  /-- Lineage that the row states, itself or through a reference, as a child and its parent. -/
  edges : List (RegionId × RegionId) := []
  umbrella : Bool := false

/-- `MAX_REF_DEPTH`. -/
def maxRefDepth : ℕ := 4

/-- What was resolved before, and the backups of the view once they were looked for. -/
structure Resolver where
  tasks : OrderedMap TaskId (Option Resolved)
  backups : Option (List (Operation × TaskId))

/-- `Resolver::new`. -/
def Resolver.new : Resolver := ⟨∅, none⟩

/-- What a subject names itself. -/
def TaskSubject.own (s : TaskSubject) : Resolved where
  regions := s.regions
  keyspaces := s.keyspaces
  tenants := s.tenants
  nodes := s.nodes
  drain := s.drain
  edges := s.edges
  umbrella := s.umbrella

/-- Add that the regions of a creation derive from the parents. -/
def Resolved.derive (parents : List RegionId) (out : Resolved) : Option Resolved → Resolved
  | none => out
  | some child =>
    { out with
      edges := out.edges ++ child.regions.flatMap fun c => parents.map fun p => (c, p) }

/-- Add what a reference is about.  The nodes it names are its own business. -/
def Resolved.absorb (out : Resolved) : Option Resolved → Resolved
  | none => out
  | some inner =>
    { out with
      regions := out.regions ++ inner.regions
      keyspaces := out.keyspaces ++ inner.keyspaces
      tenants := out.tenants ++ inner.tenants
      edges := out.edges ++ inner.edges
      umbrella := out.umbrella || inner.umbrella }

/-- `subject_of`. -/
def subjectOf (p : Payloads) (view : MemState) (task : TaskId) :
    Except Error (Option TaskSubject) :=
  match view.get .default (taskKey task) with
  | none => .ok none
  | some bytes => do
    let row ← RowValue.decode bytes
    taskSubject p row

/-- Note a task that is the intent of a backup. -/
def noteBackup (p : Payloads) (backups : List (Operation × TaskId)) (e : ScanEntry) :
    Except Error (List (Operation × TaskId)) := do
  let row ← RowValue.decode e.2
  match ← backupIntentOperation p row with
  | none => return backups
  | some operation =>
    return (operation, ← decodeUintComponent (e.1.drop (e.1.length - 8))) :: backups

/-- The intents of the backups of a view, the latest first. -/
def backupsOf (p : Payloads) (view : MemState) : Except Error (List (Operation × TaskId)) := do
  let (start, stop) ← rowRange tasks
  (forEach view start stop).foldlM (noteBackup p) []

/-- `backup_task`. -/
def Resolver.backupTask (p : Payloads) (view : MemState) (operation : Operation) (r : Resolver) :
    Except Error (Option TaskId × Resolver) := do
  let backups ← match r.backups with
    | some backups => pure backups
    | none => backupsOf p view
  return (backups.lookup operation, { r with backups := some backups })

/-- The references of a subject, with the backup it belongs to. -/
def Resolver.refs (p : Payloads) (view : MemState) (s : TaskSubject) (r : Resolver) :
    Except Error (List TaskId × Resolver) :=
  match s.backupOperation with
  | none => .ok (s.refs, r)
  | some operation => do
    let (task, r) ← r.backupTask p view operation
    return (s.refs ++ task.toList, r)

/-- `task_depth`: what a task is resolved to, from the cache if it is there.  A task that is not
in the view is noted only where the depth is zero. -/
def Resolver.taskDepth (p : Payloads) (view : MemState)
    (resolve : TaskSubject → Resolver → Except Error (Resolved × Resolver)) (noteMissing : Bool)
    (task : TaskId) (r : Resolver) : Except Error (Option Resolved × Resolver) :=
  match r.tasks[task]? with
  | some cached => .ok (cached, r)
  | none => do
    match ← subjectOf p view task with
    | none =>
      if noteMissing then return (none, { r with tasks := r.tasks.insert task none })
      else return (none, r)
    | some subject =>
      let (resolved, r) ← resolve subject r
      return (some resolved, { r with tasks := r.tasks.insert task (some resolved) })

/-- Resolve tasks one after the other, and add what they are about. -/
def followAll (task : TaskId → Resolver → Except Error (Option Resolved × Resolver))
    (add : Resolved → Option Resolved → Resolved) :
    List TaskId → Resolved → Resolver → Except Error (Resolved × Resolver)
  | [], out, r => .ok (out, r)
  | id :: rest, out, r => do
    let (inner, r) ← task id r
    followAll task add rest (add out inner) r

/-- `resolve_depth`, with the depth that remains. -/
def Resolver.resolveDepth (p : Payloads) (view : MemState) :
    ℕ → TaskSubject → Resolver → Except Error (Resolved × Resolver)
  | 0, s, r => .ok (s.own, r)
  | n + 1, s, r => do
    let task := Resolver.taskDepth p view (resolveDepth p view n) false
    let (out, r) ← followAll task (.derive s.parents) s.childCreations s.own r
    let (refs, r) ← r.refs p view s
    followAll task .absorb refs out r

/-- `resolve`. -/
def Resolver.resolve (p : Payloads) (view : MemState) (s : TaskSubject) (r : Resolver) :
    Except Error (Resolved × Resolver) :=
  Resolver.resolveDepth p view maxRefDepth s r

/-- `task`. -/
def Resolver.task (p : Payloads) (view : MemState) (task : TaskId) (r : Resolver) :
    Except Error (Option Resolved × Resolver) :=
  Resolver.taskDepth p view (Resolver.resolveDepth p view maxRefDepth) true task r

/-! ## What the tasks of a view are resolved to -/

/-- The task rows of the view can be read. -/
structure Readable (p : Payloads) (view : MemState) : Prop where
  subject : ∀ task, ∃ s, subjectOf p view task = .ok s
  backups : ∃ backups, backupsOf p view = .ok backups

/-- The answer, or none. -/
def answerOr {α : Type} (default : α) : Except Error α → α
  | .ok a => a
  | .error _ => default

/-- The references of a subject, with the backup it belongs to. -/
def TaskSubject.allRefs (p : Payloads) (view : MemState) (s : TaskSubject) : List TaskId :=
  match s.backupOperation with
  | none => s.refs
  | some operation => s.refs ++ ((answerOr [] (backupsOf p view)).lookup operation).toList

/-- What a subject is about, from what its references are about. -/
def TaskSubject.combine (p : Payloads) (view : MemState) (s : TaskSubject)
    (f : TaskId → Option Resolved) : Resolved :=
  (s.allRefs p view).foldl (fun out i => out.absorb (f i))
    (s.childCreations.foldl (fun out i => out.derive s.parents (f i)) s.own)

/-- The tasks of a view refer to one another. -/
def resolution (p : Payloads) (view : MemState) : Resolution TaskId TaskSubject Resolved where
  item task := answerOr none (subjectOf p view task)
  refs s := s.childCreations ++ s.allRefs p view
  combine := TaskSubject.combine p view
  combine_congr s f g h := by
    have hcreations : s.childCreations.foldl (fun out i => out.derive s.parents (f i)) s.own
        = s.childCreations.foldl (fun out i => out.derive s.parents (g i)) s.own := by
      apply List.foldl_ext
      intro out i hi
      rw [h i (List.mem_append_left _ hi)]
    rw [TaskSubject.combine, TaskSubject.combine, hcreations]
    apply List.foldl_ext
    intro out i hi
    rw [h i (List.mem_append_right _ hi)]

/-- The references that start at a task of the view form chains within the bound. -/
def ChainsWithin (p : Payloads) (view : MemState) (n : ℕ) : Prop :=
  ∀ task s, (resolution p view).item task = some s → (resolution p view).Within n s

/-- What a subject is about. -/
def TaskSubject.resolved (p : Payloads) (view : MemState) (s : TaskSubject) : Resolved :=
  (resolution p view).value maxRefDepth s

/-- What a resolver holds is what the view says. -/
structure Resolver.Exact (p : Payloads) (view : MemState) (r : Resolver) : Prop where
  tasks : (resolution p view).Caches maxRefDepth (r.tasks[·]?)
  backups : ∀ backups, r.backups = some backups → backupsOf p view = .ok backups

variable {p : Payloads} {view : MemState} {r : Resolver} {s : TaskSubject}

theorem Resolver.exact_new (p : Payloads) (view : MemState) :
  Resolver.new.Exact p view
  := by
  constructor
  · intro task o ho
    nomatch (Std.ExtTreeMap.getElem?_empty.symm.trans ho : none = some o)
  · nofun

/-- Adding what a task is resolved to keeps a resolver exact. -/
theorem Resolver.Exact.insert (h : r.Exact p view) (task : TaskId) {o : Option Resolved}
    (ho : o = ((resolution p view).item task).map (TaskSubject.resolved p view)) :
  Resolver.Exact p view { r with tasks := r.tasks.insert task o }
  := by
  constructor
  · intro task' o' ho'
    simp only [OrderedMap.getElem?_insert] at ho'
    split_ifs at ho' with htask
    · cases ho'
      rw [ho, htask]
      rfl
    · apply h.tasks task' o' ho'
  · apply h.backups

/-- A subject without references is about what it names itself. -/
theorem TaskSubject.combine_none (p : Payloads) (view : MemState) (s : TaskSubject) :
  s.combine p view (fun _ => none) = s.own
  := by
  simp [combine, Resolved.absorb, Resolved.derive]

/-- The references are found, and the backups are those of the view. -/
theorem Resolver.Exact.refs (h : r.Exact p view) (hview : Readable p view) (s : TaskSubject) :
  ∃ r', r.refs p view s = .ok (s.allRefs p view, r') ∧ r'.Exact p view
  := by
  rw [Resolver.refs, TaskSubject.allRefs]
  cases s.backupOperation with
  | none => exact ⟨r, rfl, h⟩
  | some operation =>
    obtain ⟨backups, hbackups⟩ := hview.backups
    have hexact : Resolver.Exact p view { r with backups := some backups } := by
      use h.tasks
      rintro _ ⟨⟩
      exact hbackups
    refine ⟨_, ?_, hexact⟩
    cases hknown : r.backups with
    | none => simp only [Resolver.backupTask, hknown, hbackups, ok_bind, pure_eq_ok, answerOr]
    | some backups' =>
      cases hbackups.symm.trans (h.backups backups' hknown)
      simp [Resolver.backupTask, hknown, hbackups, answerOr]

/-- A task is resolved to what it is about, if its subject is. -/
theorem Resolver.Exact.taskDepth (h : r.Exact p view) (hview : Readable p view)
    {resolve : TaskSubject → Resolver → Except Error (Resolved × Resolver)} {task : TaskId}
    (hresolve : ∀ s, (resolution p view).item task = some s →
      ∃ r', resolve s r = .ok (s.resolved p view, r') ∧ r'.Exact p view)
    (noteMissing : Bool) :
  ∃ r', Resolver.taskDepth p view resolve noteMissing task r
      = .ok (((resolution p view).item task).map (TaskSubject.resolved p view), r')
    ∧ r'.Exact p view
  := by
  rw [Resolver.taskDepth]
  cases hcached : r.tasks[task]? with
  | some cached =>
    use r
    rw [h.tasks task cached hcached]
    exact ⟨rfl, h⟩
  | none =>
    obtain ⟨o, ho⟩ := hview.subject task
    have hitem : (resolution p view).item task = o := by
      simp [resolution, ho, answerOr]
    rw [hitem] at hresolve ⊢
    simp only [ho, ok_bind]
    cases o with
    | none =>
      cases noteMissing with
      | false => exact ⟨r, rfl, h⟩
      | true => exact ⟨_, rfl, h.insert task (by rw [hitem]; rfl)⟩
    | some s =>
      obtain ⟨r', hr', hexact⟩ := hresolve s rfl
      simp only [hr', ok_bind, pure_eq_ok, Option.map_some]
      exact ⟨_, rfl, hexact.insert task (by rw [hitem]; rfl)⟩

/-- A loop through tasks adds what each is about. -/
theorem Resolver.Exact.followAll
    {task : TaskId → Resolver → Except Error (Option Resolved × Resolver)}
    {f : TaskId → Option Resolved} {ids : List TaskId}
    (htask : ∀ id ∈ ids, ∀ r : Resolver, r.Exact p view →
      ∃ r', task id r = .ok (f id, r') ∧ r'.Exact p view)
    (add : Resolved → Option Resolved → Resolved) (out : Resolved) (h : r.Exact p view) :
  ∃ r', Scope.followAll task add ids out r = .ok (ids.foldl (fun out i => add out (f i)) out, r')
    ∧ r'.Exact p view
  := by
  induction ids generalizing out r with
  | nil => exact ⟨r, rfl, h⟩
  | cons id ids ih =>
    obtain ⟨r', hr', hexact⟩ := htask id List.mem_cons_self r h
    rw [Scope.followAll, hr']
    apply ih (fun id' hid' => htask id' (List.mem_cons_of_mem id hid')) _ hexact

/-- A subject whose chains are within the depth that remains is resolved to what it is about. -/
theorem Resolver.Exact.resolveDepth (hview : Readable p view) {n : ℕ} (hn : n ≤ maxRefDepth)
    (hs : (resolution p view).Within n s) (h : r.Exact p view) :
  ∃ r', Resolver.resolveDepth p view n s r = .ok (s.resolved p view, r') ∧ r'.Exact p view
  := by
  induction n generalizing s r with
  | zero =>
    have hown : s.resolved p view = s.own := by
      rw [TaskSubject.resolved, Resolution.value_of_within hs hn]
      apply TaskSubject.combine_none
    use r
    rw [hown]
    exact ⟨rfl, h⟩
  | succ n ih =>
    have htask : ∀ id ∈ s.childCreations ++ s.allRefs p view, ∀ r : Resolver, r.Exact p view →
        ∃ r', Resolver.taskDepth p view (Resolver.resolveDepth p view n) false id r
            = .ok (((resolution p view).item id).map (TaskSubject.resolved p view), r')
          ∧ r'.Exact p view := by
      intro id hid r hr
      apply hr.taskDepth hview
      intro t ht
      apply ih (Nat.le_of_succ_le hn) (hs id hid t ht) hr
    obtain ⟨r₁, hr₁, h₁⟩ := Resolver.Exact.followAll
      (fun id hid => htask id (List.mem_append_left _ hid)) (.derive s.parents) s.own h
    obtain ⟨r₂, hr₂, h₂⟩ := h₁.refs hview s
    obtain ⟨r₃, hr₃, h₃⟩ := Resolver.Exact.followAll
      (fun id hid => htask id (List.mem_append_right _ hid)) .absorb
      (s.childCreations.foldl (fun out i => out.derive s.parents
        (((resolution p view).item i).map (TaskSubject.resolved p view))) s.own) h₂
    use r₃
    rw [Resolver.resolveDepth, hr₁]
    simp only [hr₂, ok_bind, hr₃]
    refine ⟨?_, h₃⟩
    rw [TaskSubject.resolved, Resolution.value_eq_combine hs hn]
    rfl

/-- A task is resolved to what it is about. -/
theorem Resolver.Exact.task (h : r.Exact p view) (hview : Readable p view)
    (hchains : ChainsWithin p view maxRefDepth) (task : TaskId) :
  ∃ r', r.task p view task
      = .ok (((resolution p view).item task).map (TaskSubject.resolved p view), r')
    ∧ r'.Exact p view
  := by
  apply h.taskDepth hview
  intro s hs
  apply h.resolveDepth hview le_rfl (hchains task s hs)

end Kv9.Meta.Scope
