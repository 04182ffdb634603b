import Kv9.Raft.StateMachine.JudgedRuns

/-!
# Which rows an effect changes

The records of the store are none of the keys of clients, and no two kinds of records share a
key.  A command on expiring values changes the value and the record of a key together: both
are put, or the record is removed with the value, or neither is touched.
-/

namespace Kv9.Raft

open Codec Engine Except RawTtl List

namespace Machine

variable {rows : Rows} {keyspace : KeyspaceId} {expiry : Option ExpiryRecord} {key : Bytes}
  {batch : WriteBatch}

/-! ## Reserved keys -/

theorem isRawKey_compactionConfirmedKey :
  isRawKey compactionConfirmedKey = false
  := isRawKey_cons_eq_false (by decide) _

theorem isRawKey_manifestPairKey (region : UInt64) :
  isRawKey (manifestPairKey region) = false
  := isRawKey_cons_eq_false (by decide) _

theorem isRawKey_manifestGenKey (region generation : UInt64) :
  isRawKey (manifestGenKey region generation) = false
  := isRawKey_cons_eq_false (by decide) _

theorem rangeKey_ne_clockKey :
  rangeKey ≠ clockKey
  := by
  decide +kernel

theorem rangeKey_ne_compactionConfirmedKey :
  rangeKey ≠ compactionConfirmedKey
  := by
  decide +kernel

theorem clockKey_ne_compactionConfirmedKey :
  clockKey ≠ compactionConfirmedKey
  := by
  decide +kernel

variable {b : UInt8} {mutation : RawTtlMutation} {candidates : List (Bytes × ExpiryRecord)}

/-- The keys of manifests start with a zero byte, those of the other records do not. -/
theorem cons_ne_manifestPairKey (hb : b ≠ 0) (rest : Bytes) (region : UInt64) :
  b :: rest ≠ manifestPairKey region
  := by
  intro h
  exact hb (head_eq_of_cons_eq h)

theorem cons_ne_manifestGenKey (hb : b ≠ 0) (rest : Bytes) (region generation : UInt64) :
  b :: rest ≠ manifestGenKey region generation
  := by
  intro h
  exact hb (head_eq_of_cons_eq h)

/-- What a range owns are keys of clients. -/
theorem isRawKey_of_ownsOp {r : DataRange} {op : KvOp} (h : ownsOp r op = true) :
  isRawKey op.key = true
  := by
  rw [ownsOp, Bool.and_eq_true] at h
  cases hkey : decodeKey op.key with
  | error e =>
    rw [hkey] at h
    nomatch h.2
  | ok k =>
    have howned := h.2
    simp only [hkey, Bool.and_eq_true, beq_iff_eq] at howned
    exact isRawKey_of_decodeKey hkey howned.1.1

/-! ## Puts and deletes of expiring values -/

theorem lowerTtl_eq_ok (h : lowerTtl keyspace expiry mutation = .ok batch) :
  ∃ key, encodeKey .raw keyspace mutation.key = .ok key
    ∧ ∀ m ∈ batch, m.key = key ∧ (m.cf = .default ∨ m.cf = .write)
  := by
  cases mutation with
  | put userKey value =>
    rw [lowerTtl, bind_eq_ok] at h
    obtain ⟨key, hkey, h⟩ := h
    cases h
    use key, hkey
    cases expiry <;> simp [Mutation.key, Mutation.cf]
  | delete userKey =>
    rw [lowerTtl, bind_eq_ok] at h
    obtain ⟨key, hkey, h⟩ := h
    cases h
    use key, hkey
    simp [Mutation.key, Mutation.cf]

variable {mutations : List RawTtlMutation} {m : Mutation}

/-- The mutations of an action are on the keys it names. -/
theorem mem_lowerTtls (h : lowerTtls keyspace expiry mutations = .ok batch) (hm : m ∈ batch) :
  (m.cf = .default ∨ m.cf = .write)
    ∧ ∃ mutation ∈ mutations, encodeKey .raw keyspace mutation.key = .ok m.key
  := by
  induction mutations generalizing batch with
  | nil =>
    cases h
    nomatch hm
  | cons mutation mutations ih =>
    simp only [lowerTtls, bind_eq_ok] at h
    obtain ⟨front, hfront, rest, hrest, h⟩ := h
    cases h
    rcases mem_append.mp hm with hm | hm
    · obtain ⟨key, hkey, hall⟩ := lowerTtl_eq_ok hfront
      obtain ⟨rfl, hcf⟩ := hall m hm
      use hcf, mutation, mem_cons_self .., hkey
    · obtain ⟨hcf, mutation', hmem, hkey⟩ := ih hrest hm
      use hcf, mutation', mem_cons_of_mem _ hmem, hkey

/-- The last mutation of a list that names a key. -/
def LastOn (keyspace : KeyspaceId) (key : Bytes) (mutations : List RawTtlMutation)
    (mutation : RawTtlMutation) : Prop :=
  ∃ front rest, mutations = front ++ mutation :: rest
    ∧ encodeKey .raw keyspace mutation.key = .ok key
    ∧ ∀ later ∈ rest, encodeKey .raw keyspace later.key ≠ .ok key

theorem LastOn.cons (h : LastOn keyspace key mutations mutation) (first : RawTtlMutation) :
  LastOn keyspace key (first :: mutations) mutation
  := by
  obtain ⟨front, rest, rfl, hkey, hrest⟩ := h
  use first :: front, rest, rfl, hkey, hrest

/-- What puts and deletes leave at a key: what was there, if none of them names it; else the
value and the record of the last put, or nothing after a delete. -/
theorem write_lowerTtls (h : lowerTtls keyspace expiry mutations = .ok batch) (rows : Rows)
    (key : Bytes) :
  ((∀ mutation ∈ mutations, encodeKey .raw keyspace mutation.key ≠ .ok key)
      ∧ ∀ cf, rows.write batch cf key = rows cf key)
    ∨ (∃ userKey value, LastOn keyspace key mutations (.put userKey value)
      ∧ rows.write batch .default key = some value
      ∧ rows.write batch .write key = expiry.map ExpiryRecord.encode)
    ∨ (∃ userKey, LastOn keyspace key mutations (.delete userKey)
      ∧ rows.write batch .default key = none ∧ rows.write batch .write key = none)
  := by
  induction mutations generalizing batch rows with
  | nil =>
    cases h
    exact .inl ⟨nofun, fun _ => rfl⟩
  | cons mutation mutations ih =>
    simp only [lowerTtls, bind_eq_ok] at h
    obtain ⟨front, hfront, rest, hrest, h⟩ := h
    cases h
    simp only [Rows.write_append]
    rcases ih hrest (rows.write front) with ⟨hnone, hrows⟩ | ⟨userKey, value, hlast, hrows⟩
      | ⟨userKey, hlast, hrows⟩
    · simp only [hrows]
      obtain ⟨key', hkey', hall⟩ := lowerTtl_eq_ok hfront
      by_cases heq : key' = key
      · subst heq
        right
        cases mutation with
        | put userKey value =>
          left
          rw [lowerTtl, bind_eq_ok] at hfront
          obtain ⟨_, hkey, hfront⟩ := hfront
          cases hkey.symm.trans hkey'
          cases hfront
          use userKey, value, ⟨[], mutations, rfl, hkey', hnone⟩
          cases expiry with
          | none => simp [Rows.mutate_put, Rows.mutate_delete]
          | some record => simp [Rows.mutate_put]
        | delete userKey =>
          right
          rw [lowerTtl, bind_eq_ok] at hfront
          obtain ⟨_, hkey, hfront⟩ := hfront
          cases hkey.symm.trans hkey'
          cases hfront
          use userKey, ⟨[], mutations, rfl, hkey', hnone⟩
          simp [Rows.mutate_delete]
      · left
        constructor
        · intro mutation' hmem
          rcases mem_cons.mp hmem with rfl | hmem
          · rw [hkey']
            exact fun h => heq (Except.ok.inj h)
          · exact hnone mutation' hmem
        · intro cf
          apply Rows.write_of_forall_ne
          rintro m hm ⟨-, rfl⟩
          exact heq (hall m hm).1.symm
    · exact .inr (.inl ⟨userKey, value, hlast.cons mutation, hrows⟩)
    · exact .inr (.inr ⟨userKey, hlast.cons mutation, hrows⟩)

/-! ## Cleanups -/

variable {engine : Store} {clock : ClockWatermark}

theorem cleanupOne_eq_ok {candidate : Bytes × ExpiryRecord}
    (h : cleanupOne engine keyspace clock candidate = .ok batch) :
  ∃ key, encodeKey .raw keyspace candidate.1 = .ok key
    ∧ (batch = [] ∨ (batch = [.delete .default key, .delete .write key]
      ∧ readRow ExpiryRecord.decode (engine.get .write key) = .ok (some candidate.2)
      ∧ candidate.2.expiredAt clock = true))
  := by
  simp only [cleanupOne, bind_eq_ok] at h
  obtain ⟨key, hkey, current, hcurrent, h⟩ := h
  use key, hkey
  split_ifs at h with hpermits
  · cases h
    rw [ExpiryRecord.permitsCleanup, Bool.and_eq_true, beq_iff_eq] at hpermits
    rw [hpermits.1] at hcurrent
    exact .inr ⟨rfl, hcurrent, hpermits.2⟩
  · cases h
    exact .inl rfl

/-- A cleanup changes only keys whose current record it names. -/
theorem mem_cleanupAll
    (h : cleanupAll engine keyspace clock candidates = .ok batch) (hm : m ∈ batch) :
  (m.cf = .default ∨ m.cf = .write)
    ∧ ∃ c ∈ candidates, encodeKey .raw keyspace c.1 = .ok m.key
      ∧ readRow ExpiryRecord.decode (engine.get .write m.key) = .ok (some c.2)
  := by
  induction candidates generalizing batch with
  | nil =>
    cases h
    nomatch hm
  | cons candidate candidates ih =>
    simp only [cleanupAll, bind_eq_ok] at h
    obtain ⟨front, hfront, rest, hrest, h⟩ := h
    cases h
    rcases mem_append.mp hm with hm | hm
    · obtain ⟨key, hkey, hempty | ⟨hdeletes, hcurrent, -⟩⟩ := cleanupOne_eq_ok hfront
      · rw [hempty] at hm
        nomatch hm
      · rw [hdeletes] at hm
        have hmkey : m.key = key ∧ (m.cf = .default ∨ m.cf = .write) := by
          rcases mem_cons.mp hm with rfl | hm
          · use rfl, .inl rfl
          · rw [mem_singleton.mp hm]
            use rfl, .inr rfl
        rw [hmkey.1]
        use hmkey.2, candidate, mem_cons_self .., hkey, hcurrent
    · obtain ⟨hcf, c, hc, hkey, hcurrent⟩ := ih hrest hm
      use hcf, c, mem_cons_of_mem _ hc, hkey, hcurrent

/-- A cleanup leaves a key alone, or removes its value and its record. -/
theorem write_cleanupAll
    (h : cleanupAll engine keyspace clock candidates = .ok batch) (rows : Rows) (key : Bytes) :
  (∀ cf, rows.write batch cf key = rows cf key)
    ∨ (rows.write batch .default key = none ∧ rows.write batch .write key = none)
  := by
  induction candidates generalizing batch rows with
  | nil =>
    cases h
    exact .inl fun _ => rfl
  | cons candidate candidates ih =>
    simp only [cleanupAll, bind_eq_ok] at h
    obtain ⟨front, hfront, rest, hrest, h⟩ := h
    cases h
    simp only [Rows.write_append]
    rcases ih hrest (rows.write front) with hrows | hrows
    · simp only [hrows]
      obtain ⟨key', -, rfl | ⟨rfl, -, -⟩⟩ := cleanupOne_eq_ok hfront
      · exact .inl fun _ => rfl
      · by_cases heq : key = key'
        · right
          simp [Rows.mutate_delete, heq]
        · left
          simp [Rows.mutate_delete, heq]
    · exact .inr hrows

/-! ## Commands on expiring values -/

variable {command : RawTtlCommand} {clock' : ClockWatermark} {pos : AppliedPosition}

section

variable (h : ttlEffect engine command clock pos = .ok (clock', batch))
include h

/-- A command on expiring values changes only values and records of keys it names. -/
theorem mem_ttlEffect (hm : m ∈ batch) :
  (m.cf = .default ∨ m.cf = .write)
    ∧ ∃ userKey ∈ command.keys, encodeKey .raw command.keyspace userKey = .ok m.key
  := by
  rw [ttlEffect] at h
  split at h
  · cases h
    nomatch hm
  · cases h
    nomatch hm
  · rename_i plan mutations haction
    simp only [bind_eq_ok] at h
    obtain ⟨expiry, -, _, hbatch, h⟩ := h
    cases h
    obtain ⟨hcf, mutation, hmem, hkey⟩ := mem_lowerTtls hbatch hm
    refine ⟨hcf, mutation.key, ?_, hkey⟩
    rw [RawTtlCommand.keys, haction]
    apply mem_map_of_mem hmem
  · rename_i candidates haction
    simp only [bind_eq_ok] at h
    obtain ⟨_, hbatch, h⟩ := h
    cases h
    obtain ⟨hcf, c, hc, hkey, -⟩ := mem_cleanupAll hbatch hm
    refine ⟨hcf, c.1, ?_, hkey⟩
    rw [RawTtlCommand.keys, haction]
    apply mem_map_of_mem hc

/-- The watermark does not decrease. -/
theorem le_of_ttlEffect :
  clock.unixMs ≤ clock'.unixMs
  := by
  rw [ttlEffect] at h
  split at h
  · cases h
    apply ClockWatermark.le_merge
  · cases h
    apply ClockWatermark.le_merge
  · simp only [bind_eq_ok] at h
    obtain ⟨expiry, -, _, -, h⟩ := h
    cases h
    apply ClockWatermark.le_merge
  · simp only [bind_eq_ok] at h
    obtain ⟨_, -, h⟩ := h
    cases h
    apply le_rfl

theorem isRawKey_of_mem_ttlEffect (hm : m ∈ batch) :
  isRawKey m.key = true
  := by
  obtain ⟨-, _, -, hkey⟩ := mem_ttlEffect h hm
  apply isRawKey_of_encodeKey hkey

end

end Machine

end Kv9.Raft
