import Kv9.Engine.Wal.Topology
import Kv9.Raft.Encoding
import Kv9.Raft.StateMachine.Effects

/-!
# What a proposal reserves

Before data is proposed, a leader reserves what the proposal can add to the logs: the record
of the Raft log, the record of the engine log and, if that log is rotated, a new segment and a
topology.  The reservation is linear in the length of the command.
-/

namespace Kv9.Raft

open Codec Engine Except List Machine RawTtl Wal

/-! ## Reservations -/

/-- The bytes to reserve for a command of some length. -/
def proposalBytes (encoded : ℕ) : Except Error ℕ := do
  let layout := maxTopologyBytes + maxMutations * (64 + 64) + 4096
  failIf (2 ^ 64 ≤ encoded * 4 ∨ 2 ^ 64 ≤ encoded * 4 + layout)
    (.raft "proposal log reservation overflow")
  return encoded * 4 + layout

/-- The commands that write data. -/
def Command.requiresWriteCapacity : Command → Bool
  | .put _ _ _ | .write _ | .fenced _ _ => true
  | .rawTtl command => !command.action.isEnable
  | _ => false

/-! ## Records of the Raft log -/

/-- The wire form of an entry.  Next to its data there are a term and an index of at most ten
bytes, a length of at most ten, and the tags of these three. -/
structure EntryWire where
  encode : AppliedPosition → Bytes → Bytes
  length_encode_le : ∀ pos data, (encode pos data).length ≤ data.length + 33

/-- The checksum of a record. -/
def fnv1a (bytes : Bytes) : UInt32 :=
  bytes.foldl (fun hash b => (hash ^^^ b.toUInt32) * 0x01000193) 0x811c9dc5

/-- The bound on the payload of a record. -/
def maxLogRecord : ℕ := 64 * 1024 * 1024

/-- The record of an entry. -/
def logRecord (payload : Bytes) : Bytes :=
  let body := 3 :: payload
  be32 (UInt32.ofNat body.length) ++ (be32 (fnv1a body) ++ body)

theorem length_logRecord (payload : Bytes) :
  (logRecord payload).length = 9 + payload.length
  := by
  rw [logRecord, length_append, length_append, length_be32, length_be32, length_cons]
  omega

/-! ## Records of the engine log -/

/-- The bytes of the mutations of a batch. -/
def rowBytes (batch : WriteBatch) : ℕ := (batch.map mutationSize).sum

theorem length_encodeBatch (batch : WriteBatch) :
  (encodeBatch batch).length = 4 + rowBytes batch
  := by
  simp only [encodeBatch, length_append, length_le, length_flatMap, length_encodeMutation]
  rfl

theorem rowBytes_pair (m m' : Mutation) :
  rowBytes [m, m'] = mutationSize m + mutationSize m'
  := rfl

theorem rowBytes_append (batch batch' : WriteBatch) :
  rowBytes (batch ++ batch') = rowBytes batch + rowBytes batch'
  := by
  rw [rowBytes, map_append, sum_append]
  rfl

theorem rowBytes_lowerOps (ops : List KvOp) :
  rowBytes (lowerOps ops) = (ops.flatMap KvOp.encode).length
  := by
  rw [rowBytes, lowerOps, map_map, length_flatMap]
  congr 1
  apply map_congr_left
  intro op _
  cases op
  all_goals
    simp only [Function.comp, KvOp.lower, KvOp.encode, mutationSize, length_append, length_putBytes,
      length_singleton]
    omega

variable {keyspace : KeyspaceId} {expiry : Option ExpiryRecord} {batch : WriteBatch}

theorem length_encodeKey {key raw : Bytes} (h : encodeKey .raw keyspace key = .ok raw) :
  raw.length = 4 + key.length
  := by
  obtain ⟨-, rfl⟩ := encodeKey_eq_ok.mp h
  rw [length_cons, length_append, length_be]
  omega

/-- A key is written twice, and a record of expiry once. -/
theorem rowBytes_lowerTtl {mutation : RawTtlMutation}
    (h : lowerTtl keyspace expiry mutation = .ok batch) :
  rowBytes batch ≤ 3 * mutation.size + 128
  := by
  cases mutation
  all_goals
    rw [lowerTtl, bind_eq_ok] at h
    obtain ⟨raw, hraw, h⟩ := h
    cases h
    have hlength := length_encodeKey hraw
  case put key value =>
    cases expiry with
    | none =>
      simp only [rowBytes_pair, mutationSize, RawTtlMutation.size]
      omega
    | some record =>
      simp only [rowBytes_pair, mutationSize, RawTtlMutation.size, length_encode_record]
      omega
  case delete key =>
    simp only [rowBytes_pair, mutationSize, RawTtlMutation.size]
    omega

theorem rowBytes_lowerTtls {mutations : List RawTtlMutation}
    (h : lowerTtls keyspace expiry mutations = .ok batch) :
  rowBytes batch ≤ 3 * (mutations.map RawTtlMutation.size).sum + 128 * mutations.length
  := by
  induction mutations generalizing batch with
  | nil =>
    cases h
    rfl
  | cons mutation mutations ih =>
    simp only [lowerTtls, bind_eq_ok] at h
    obtain ⟨first, hfirst, rest, hrest, h⟩ := h
    cases h
    have hone := rowBytes_lowerTtl hfirst
    have hothers := ih hrest
    rw [rowBytes_append, map_cons, sum_cons, length_cons]
    omega

theorem rowBytes_cleanupAll {engine : Store} {clock : ClockWatermark}
    {candidates : List (Bytes × ExpiryRecord)}
    (h : cleanupAll engine keyspace clock candidates = .ok batch) :
  rowBytes batch ≤ 3 * (candidates.map fun c => 4 + 64 + c.1.length).sum
  := by
  induction candidates generalizing batch with
  | nil =>
    cases h
    rfl
  | cons c candidates ih =>
    simp only [cleanupAll, cleanupOne, bind_eq_ok] at h
    obtain ⟨first, ⟨raw, hraw, current, -, hfirst⟩, rest, hrest, h⟩ := h
    cases h
    cases hfirst
    have hlength := length_encodeKey hraw
    have hothers := ih hrest
    rw [rowBytes_append, map_cons, sum_cons]
    split_ifs
    · simp only [rowBytes_pair, mutationSize]
      omega
    · change 0 + _ ≤ _
      omega

/-! ## The reservation suffices -/

variable {x : Externals} {m m' : Machine} {pos : AppliedPosition} {cmd : Command}

theorem rowBytes_ttlEffect {command : RawTtlCommand} {clock clock' : ClockWatermark}
    (henc : command.action.Encodable)
    (h : ttlEffect m.engine command clock pos = .ok (clock', batch)) :
  rowBytes batch ≤ 3 * command.action.size + 128 * maxMutations
  := by
  rw [ttlEffect] at h
  cases haction : command.action with
  | write plan mutations =>
    simp only [haction, bind_eq_ok] at h
    obtain ⟨expiry, -, written, hwritten, h⟩ := h
    cases h
    rw [haction] at henc
    have hrows := rowBytes_lowerTtls hwritten
    have hcount : mutations.length ≤ maxMutations := henc.2.2
    rw [RawTtlAction.size]
    omega
  | cleanup candidates =>
    simp only [haction, bind_eq_ok] at h
    obtain ⟨written, hwritten, h⟩ := h
    cases h
    have hrows := rowBytes_cleanupAll hwritten
    rw [RawTtlAction.size]
    omega
  | _ =>
    rw [haction] at h
    cases h
    apply Nat.zero_le

theorem length_topology_le {t : Topology} {topology : Bytes} (h : t.encode x = .ok topology) :
  topology.length ≤ maxTopologyBytes
  := by
  simp only [Topology.encode, bind_eq_ok, failIf_eq_ok] at h
  obtain ⟨_, -, _, -, _, hsize, h⟩ := h
  cases h
  apply not_lt.mp hsize

theorem length_legacyOps_le {ops : List KvOp} (h : legacyOps cmd = some ops) :
  (ops.flatMap KvOp.encode).length ≤ cmd.encode.length
  := by
  cases cmd with
  | fenced fence inner =>
    cases h
    simp only [Command.encode, Command.encodePayload, FencedInner.encode, FencedInner.ops, putOps,
      length_append]
    omega
  | put | catalogTxn | write =>
    cases h
    simp only [Command.encode, Command.encodePayload, putOps, flatMap_cons, flatMap_nil,
      KvOp.encode, length_append, length_nil]
    omega
  | _ => cases h

/-- What a command writes is at most three times its length, next to the records of expiry and
the row of the clock. -/
theorem rowBytes_effect {outcome : ApplyOutcome} (hdata : cmd.requiresWriteCapacity = true)
    (henc : cmd.Encodable) (h : Effect x m pos cmd batch outcome) :
  rowBytes batch ≤ 3 * cmd.encode.length + 128 * maxMutations + 50
  := by
  cases h with
  | idle => apply Nat.zero_le
  | lowered hops =>
    have := length_legacyOps_le hops
    rw [rowBytes_lowerOps]
    omega
  | manifest hcmd => rcases hcmd with rfl | rfl <;> cases hdata
  | ttl _ _ _ _ _ _ _ _ heffect =>
    have hrows := rowBytes_ttlEffect (encodable_of_validate henc).1 heffect
    have hclock : ∀ clock : ClockWatermark,
        rowBytes [.put .default clockKey clock.encode] = 50 := by
      have : clockKey.length = 24 := by decide +kernel
      simp only [rowBytes, map_cons, map_nil, sum_cons, sum_nil, mutationSize, length_encode_clock]
      omega
    rw [length_encode_rawTtl]
    split_ifs
    · rw [rowBytes_append, hclock]
      omega
    · omega
  | _ => cases hdata

end Kv9.Raft
