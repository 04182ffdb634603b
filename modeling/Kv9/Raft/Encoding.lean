import Kv9.Raft.Command

/-!
# The wire format of commands

A command is written as a version, a tag and the fields of the tag; byte strings and lists carry
their lengths in four bytes.  A command within the limits of the encoder is read back from its
encoding, and from nothing shorter or longer: the reader consumes the same bytes whatever follows
them, and refuses bytes that are left.
-/

namespace Kv9.Raft

open Codec Except RawTtl List

/-! ## Encoding -/

/-- Write a byte string with its length. -/
def putBytes (bytes : Bytes) : Bytes := be32 (UInt32.ofNat bytes.length) ++ bytes

/-- Write an operation. -/
def KvOp.encode : KvOp → Bytes
  | .put cf key value => [1] ++ ([cf] ++ (putBytes key ++ putBytes value))
  | .delete cf key => [2] ++ ([cf] ++ putBytes key)

/-- Write a list of operations. -/
def putOps (ops : List KvOp) : Bytes := be32 (UInt32.ofNat ops.length) ++ ops.flatMap KvOp.encode

/-- Write a fence. -/
def RegionFence.encode (fence : RegionFence) : Bytes :=
  be64 fence.regionId ++ (be64 fence.confVer ++ be64 fence.version)

/-- Write what a fence wraps. -/
def FencedInner.encode : FencedInner → Bytes
  | .write ops => [5] ++ putOps ops

/-- Write a manifest change. -/
def ManifestChangePayload.encode (p : ManifestChangePayload) : Bytes :=
  be64 p.region ++ (putBytes p.changeId ++ (be64 p.expectedGeneration ++ (putBytes p.changeset
    ++ (be64 p.watermarkTerm ++ be64 p.watermarkIndex))))

/-- Write the time of a write. -/
def encodePlan (plan : ExpiryPlan) : Bytes :=
  planMagic ++ (be64 plan.observed.unixMs ++
    match plan.expiresAtMs with
    | some deadline => [1] ++ be64 deadline
    | none => [0] ++ be64 0)

/-- Write a mutation of an expiring value. -/
def RawTtlMutation.encode : RawTtlMutation → Bytes
  | .put key value => [1] ++ (putBytes key ++ putBytes value)
  | .delete key => [2] ++ putBytes key

/-- Write a candidate of a cleanup. -/
def encodeCandidate (candidate : Bytes × ExpiryRecord) : Bytes :=
  putBytes candidate.1 ++ candidate.2.encode

/-- Write an action. -/
def RawTtlAction.encode : RawTtlAction → Bytes
  | .enable observed => [1] ++ observed.encode
  | .observe observed => [2] ++ observed.encode
  | .write plan mutations =>
    [3] ++ (encodePlan plan ++ (be32 (UInt32.ofNat mutations.length)
      ++ mutations.flatMap RawTtlMutation.encode))
  | .cleanup candidates =>
    [4] ++ (be32 (UInt32.ofNat candidates.length) ++ candidates.flatMap encodeCandidate)

/-- Write a command on expiring values. -/
def RawTtlCommand.encodeInto (command : RawTtlCommand) : Bytes :=
  command.root.bytes ++ (command.creation.bytes ++ (command.fence.encode
    ++ (be32 command.keyspace ++ command.action.encode)))

/-- The digest a range command expects, or nothing. -/
def expectedBytes : Option RootDigest → Bytes
  | some digest => digest.bytes
  | none => []

/-- Write the tag of a command and its fields. -/
def Command.encodePayload : Command → Bytes
  | .rawTtl command => [10] ++ command.encodeInto
  | .put cf key value => [1] ++ ([cf] ++ (putBytes key ++ putBytes value))
  | .catalogTxn ops => [2] ++ putOps ops
  | .write ops => [5] ++ putOps ops
  | .confChange add node => [3] ++ ([if add then 1 else 0] ++ be64 node)
  | .noop => [4]
  | .dataRange expected next => [8] ++ (putBytes (expectedBytes expected) ++ putBytes next.encode)
  | .manifestChange p => [7] ++ p.encode
  | .largeManifestChange p => [14] ++ p.encode
  | .fenced fence inner => [6] ++ (fence.encode ++ inner.encode)
  | .compactionConfirmed region floor => [9] ++ (be64 region ++ (be64 floor.term ++ be64 floor.index))

/-- Write a command. -/
def Command.encode (cmd : Command) : Bytes := [entryVersion] ++ cmd.encodePayload

/-! ### Limits -/

/-- A byte string whose length can be written. -/
def Fits (bytes : Bytes) : Prop := bytes.length < 2 ^ 32

/-- An operation whose byte strings can be written. -/
def KvOp.Encodable : KvOp → Prop
  | .put _ key value => Fits key ∧ Fits value
  | .delete _ key => Fits key

instance (bytes : Bytes) : Decidable (Fits bytes) := inferInstanceAs (Decidable (_ < _))

instance : DecidablePred KvOp.Encodable
  | .put _ _ _ => inferInstanceAs (Decidable (_ ∧ _))
  | .delete _ _ => inferInstanceAs (Decidable (Fits _))

/-- Operations whose number and whose byte strings can be written. -/
def OpsEncodable (ops : List KvOp) : Prop := ops.length < 2 ^ 32 ∧ ∀ op ∈ ops, op.Encodable

instance (ops : List KvOp) : Decidable (OpsEncodable ops) := inferInstanceAs (Decidable (_ ∧ _))

/-- The commands within the limits of the encoder. -/
def Command.Encodable : Command → Prop
  | .rawTtl command => command.validate = .ok ()
  | .dataRange _ next => next.validate = .ok ()
  | .put _ key value => Fits key ∧ Fits value
  | .catalogTxn ops => OpsEncodable ops
  | .write ops => OpsEncodable ops
  | .manifestChange p => Fits p.changeId ∧ Fits p.changeset
  | .largeManifestChange p => Fits p.changeId ∧ Fits p.changeset
  | .fenced _ inner => OpsEncodable inner.ops
  | _ => True

/-! ## Reading back -/

variable {n size : ℕ} {bytes : Bytes} {command : RawTtlCommand} {cmd : Command}

theorem toNat_ofNat_length (h : n < 2 ^ 32) :
  (UInt32.ofNat n).toNat = n
  := UInt32.toNat_ofNat_of_lt h

theorem reads_readBytes (h : Fits bytes) :
  Reads readBytes (putBytes bytes) bytes
  := by
  apply (reads_takeBe32 truncated _).bind
  apply reads_take
  rw [toNat_ofNat_length h]

theorem reads_readOp (ctx : String) {op : KvOp} (h : op.Encodable) :
  Reads (readOp ctx) op.encode op
  := by
  cases op with
  | put cf key value =>
    apply (reads_takeByte truncated 1).bind
    apply (reads_takeByte truncated cf).bind
    apply (reads_readBytes h.1).bind
    apply (reads_readBytes h.2).map
  | delete cf key =>
    apply (reads_readBytes h).map

theorem reads_readOps (ctx : String) {ops : List KvOp} (h : OpsEncodable ops) :
  Reads (readOps ctx) (putOps ops) ops
  := by
  apply (reads_takeBe32 truncated _).bind
  rw [toNat_ofNat_length h.1]
  apply reads_times
  intro op hop
  apply reads_readOp ctx (h.2 op hop)

theorem reads_readFence (fence : RegionFence) :
  Reads readFence fence.encode fence
  := by
  apply (reads_takeBe64 truncated fence.regionId).bind
  apply (reads_takeBe64 truncated fence.confVer).bind
  apply (reads_takeBe64 truncated fence.version).map

theorem reads_readInner {inner : FencedInner} (h : OpsEncodable inner.ops) :
  Reads readInner inner.encode inner
  := by
  cases inner with
  | write ops =>
    apply (reads_readOps _ h).map

theorem reads_readManifestChange {p : ManifestChangePayload} (hid : Fits p.changeId)
    (hchangeset : Fits p.changeset) :
  Reads readManifestChange p.encode p
  := by
  apply (reads_takeBe64 truncated p.region).bind
  apply (reads_readBytes hid).bind
  apply (reads_takeBe64 truncated p.expectedGeneration).bind
  apply (reads_readBytes hchangeset).bind
  apply (reads_takeBe64 truncated p.watermarkTerm).bind
  apply (reads_takeBe64 truncated p.watermarkIndex).map

theorem fits_expectedBytes (expected : Option RootDigest) :
  Fits (expectedBytes expected)
  := by
  cases expected with
  | none => apply Nat.two_pow_pos
  | some digest =>
    rw [Fits, expectedBytes, digest.length_bytes]
    decide

theorem expectedDigest_expectedBytes (expected : Option RootDigest) :
  expectedDigest (expectedBytes expected) = .ok expected
  := by
  cases expected with
  | none => rfl
  | some digest =>
    have hne : digest.bytes ≠ [] := by
      intro hnil
      have := digest.length_bytes
      rw [hnil] at this
      nomatch this
    rw [expectedDigest, expectedBytes, if_neg hne, dif_pos]

theorem fits_encode_of_validate {r : DataRange} (h : r.validate = .ok ()) :
  Fits r.encode
  := by
  obtain ⟨hstart, hstop⟩ := DataRange.length_bounds_of_validate h
  rw [Fits, DataRange.length_encode]
  rw [maxBound] at hstart hstop
  omega

theorem reads_readDataRange (expected : Option RootDigest) {next : DataRange}
    (h : next.validate = .ok ()) :
  Reads readDataRange (putBytes (expectedBytes expected) ++ putBytes next.encode)
    (.dataRange expected next)
  := by
  apply (reads_readBytes (fits_expectedBytes expected)).bind
  rw [← nil_append (putBytes next.encode)]
  apply (reads_lift (expectedDigest_expectedBytes expected)).bind
  rw [← append_nil (putBytes next.encode)]
  apply (reads_readBytes (fits_encode_of_validate h)).bind
  apply (reads_lift (DataRange.decode_encode h)).map

/-! ### Commands on expiring values -/

theorem length_planMagic :
  planMagic.length = 8
  := by
  decide +kernel

theorem reads_readPlan {plan : ExpiryPlan} (h : validPlan plan = .ok ()) :
  Reads readPlan (encodePlan plan) plan
  := by
  rw [validPlan, failIf_eq_ok] at h
  push Not at h
  apply (reads_take truncated length_planMagic).bind
  apply (reads_guardOr _ rfl).bind
  apply (reads_takeBe64 truncated plan.observed.unixMs).bind
  obtain ⟨observed, expiresAtMs⟩ := plan
  cases expiresAtMs with
  | none =>
    apply reads_pure
  | some deadline =>
    apply (reads_takeByte truncated 1).bind
    apply (reads_takeBe64 truncated deadline).bind
    rw [if_neg (fun h => absurd h.1 (by decide)), if_pos ⟨rfl, h deadline rfl⟩]
    apply reads_pure

theorem reads_boundedCount (hpos : n ≠ 0) (hle : n ≤ maxMutations) :
  Reads boundedCount (be32 (UInt32.ofNat n)) n
  := by
  have hnat : (UInt32.ofNat n).toNat = n := by
    apply toNat_ofNat_length
    rw [maxMutations] at hle
    omega
  apply (reads_takeBe32 truncated _).bind
  have hguard : 0 < (UInt32.ofNat n).toNat ∧ (UInt32.ofNat n).toNat ≤ maxMutations := by
    omega
  apply (reads_guardOr _ hguard).bind
  rw [hnat]
  apply reads_pure

theorem reads_readTtlMutation {mutation : RawTtlMutation} (h : mutation.size < 2 ^ 32) :
  Reads readTtlMutation mutation.encode mutation
  := by
  cases mutation with
  | put key value =>
    rw [RawTtlMutation.size] at h
    have hkey : Fits key := by rw [Fits]; omega
    have hvalue : Fits value := by rw [Fits]; omega
    apply (reads_takeByte truncated 1).bind
    apply (reads_readBytes hkey).bind
    apply (reads_readBytes hvalue).map
  | delete key =>
    rw [RawTtlMutation.size] at h
    have hkey : Fits key := by rw [Fits]; omega
    apply (reads_readBytes hkey).map

theorem length_encode_record (record : ExpiryRecord) :
  record.encode.length = 64
  := by
  have := ExpiryRecord.length_magic
  have := record.creation.length_bytes
  simp only [ExpiryRecord.encode, length_append, length_be64]
  omega

theorem length_encode_clock (clock : ClockWatermark) :
  clock.encode.length = 16
  := by
  rw [ClockWatermark.encode, length_append, ClockWatermark.length_magic, length_be64]

theorem reads_readCandidate {candidate : Bytes × ExpiryRecord} (h : Fits candidate.1) :
  Reads readCandidate (encodeCandidate candidate) candidate
  := by
  apply (reads_readBytes h).bind
  rw [← append_nil candidate.2.encode]
  apply (reads_take truncated (length_encode_record candidate.2)).bind
  apply (reads_lift (ExpiryRecord.decode_encode candidate.2)).map

/-- An action whose plan and whose numbers can be written. -/
def RawTtlAction.Encodable : RawTtlAction → Prop
  | .enable _ | .observe _ => True
  | .write plan mutations =>
    validPlan plan = .ok () ∧ mutations ≠ [] ∧ mutations.length ≤ maxMutations
  | .cleanup candidates => candidates ≠ [] ∧ candidates.length ≤ maxMutations

theorem encodable_of_validate (h : command.validate = .ok ()) :
  command.action.Encodable ∧ 95 + command.action.size ≤ maxCommandBytes
  := by
  simp only [RawTtlCommand.validate, bind_eq_ok] at h
  obtain ⟨_, -, h⟩ := h
  cases haction : command.action with
  | write plan mutations =>
    simp only [haction, bind_eq_ok, failIf_eq_ok, not_lt] at h
    obtain ⟨_, hcount, _, hplan, hsize⟩ := h
    push Not at hcount
    use ⟨hplan, hcount⟩, hsize
  | cleanup candidates =>
    simp only [haction, bind_eq_ok, failIf_eq_ok, not_lt] at h
    obtain ⟨_, hcount, hsize⟩ := h
    push Not at hcount
    use hcount, hsize
  | _ =>
    simp only [haction, ok_bind, failIf_eq_ok, not_lt] at h
    use trivial, h

theorem reads_readAction {action : RawTtlAction} (h : action.Encodable)
    (hsize : action.size < 2 ^ 32) :
  Reads readAction action.encode action
  := by
  cases action with
  | enable observed =>
    apply (reads_takeByte truncated 1).bind
    rw [← append_nil observed.encode]
    apply (reads_take truncated (length_encode_clock observed)).bind
    apply (reads_lift (ClockWatermark.decode_encode observed)).map
  | observe observed =>
    apply (reads_takeByte truncated 2).bind
    rw [← append_nil observed.encode]
    apply (reads_take truncated (length_encode_clock observed)).bind
    apply (reads_lift (ClockWatermark.decode_encode observed)).map
  | write plan mutations =>
    obtain ⟨hplan, hne, hcount⟩ := h
    apply (reads_takeByte truncated 3).bind
    apply (reads_readPlan hplan).bind
    apply (reads_boundedCount (length_pos_iff.mpr hne).ne' hcount).bind
    apply (reads_times _).map
    intro mutation hmutation
    apply reads_readTtlMutation
    have := single_le_sum (by simp) _ (mem_map_of_mem (f := RawTtlMutation.size) hmutation)
    rw [RawTtlAction.size] at hsize
    omega
  | cleanup candidates =>
    obtain ⟨hne, hcount⟩ := h
    apply (reads_takeByte truncated 4).bind
    apply (reads_boundedCount (length_pos_iff.mpr hne).ne' hcount).bind
    apply (reads_times _).map
    intro candidate hcandidate
    apply reads_readCandidate
    have := single_le_sum (by simp) _
      (mem_map_of_mem (f := fun c : Bytes × ExpiryRecord => 4 + 64 + c.1.length) hcandidate)
    rw [RawTtlAction.size] at hsize
    rw [Fits]
    omega

theorem reads_readRawTtl (h : command.validate = .ok ()) :
  Reads readRawTtl command.encodeInto command
  := by
  obtain ⟨haction, hsize⟩ := encodable_of_validate h
  have hlt : command.action.size < 2 ^ 32 := by
    rw [maxCommandBytes] at hsize
    omega
  apply (reads_take truncated command.root.length_bytes).bind
  apply (reads_take truncated command.creation.length_bytes).bind
  apply (reads_readFence command.fence).bind
  apply (reads_takeBe32 truncated command.keyspace).bind
  rw [← append_nil command.action.encode]
  apply (reads_readAction haction hlt).bind
  rw [dif_pos ⟨command.root.length_bytes, command.creation.length_bytes⟩]
  apply (reads_lift h).map

theorem length_putBytes (bytes : Bytes) :
  (putBytes bytes).length = 4 + bytes.length
  := by
  rw [putBytes, length_append, length_be32]

theorem length_encodePlan (plan : ExpiryPlan) :
  (encodePlan plan).length = 25
  := by
  rw [encodePlan, length_append, length_append, length_planMagic, length_be64]
  cases plan.expiresAtMs <;> rw [length_append, length_be64, length_singleton]

theorem length_encode_mutation (mutation : RawTtlMutation) :
  mutation.encode.length = mutation.size
  := by
  cases mutation
  all_goals
    simp only [RawTtlMutation.encode, RawTtlMutation.size, length_append, length_putBytes,
      length_singleton]
    omega

theorem length_encodeCandidate (candidate : Bytes × ExpiryRecord) :
  (encodeCandidate candidate).length = 4 + 64 + candidate.1.length
  := by
  rw [encodeCandidate, length_append, length_putBytes, length_encode_record]
  omega

theorem length_encode_action (action : RawTtlAction) :
  action.encode.length = 1 + action.size
  := by
  cases action with
  | write plan mutations =>
    have hsum : (mutations.map fun m => m.encode.length) = mutations.map RawTtlMutation.size :=
      map_congr_left fun m _ => length_encode_mutation m
    simp only [RawTtlAction.encode, RawTtlAction.size, length_append, length_encodePlan,
      length_be32, length_singleton, length_flatMap, hsum]
    omega
  | cleanup candidates =>
    have hsum : (candidates.map fun c => (encodeCandidate c).length)
        = candidates.map fun c => 4 + 64 + c.1.length :=
      map_congr_left fun c _ => length_encodeCandidate c
    simp only [RawTtlAction.encode, RawTtlAction.size, length_append, length_be32,
      length_singleton, length_flatMap, hsum]
  | _ =>
    rw [RawTtlAction.encode, length_append, length_encode_clock]
    rfl

/-- The size that is checked is the size of the encoding. -/
theorem length_encode_rawTtl (command : RawTtlCommand) :
  (Command.rawTtl command).encode.length = 95 + command.action.size
  := by
  have := command.root.length_bytes
  have := command.creation.length_bytes
  simp only [Command.encode, Command.encodePayload, RawTtlCommand.encodeInto, RegionFence.encode,
    length_append, length_singleton, length_be64, length_be32, length_encode_action]
  omega

/-! ### Entries -/

/-- A command is read from its encoding, whatever follows, if its size is admitted. -/
theorem reads_readCommand (h : cmd.Encodable)
    (hsize : ∀ command, cmd = .rawTtl command → size ≤ maxCommandBytes) :
  Reads (readCommand size) cmd.encode cmd
  := by
  apply (reads_takeByte truncated entryVersion).bind
  cases cmd with
  | rawTtl command =>
    apply (reads_takeByte truncated 10).bind
    apply (reads_guardOr _ (hsize command rfl)).bind
    apply (reads_readRawTtl h).map
  | dataRange expected next =>
    apply reads_readDataRange expected h
  | put cf key value =>
    apply (reads_takeByte truncated 1).bind
    apply (reads_takeByte truncated cf).bind
    apply (reads_readBytes h.1).bind
    apply (reads_readBytes h.2).map
  | catalogTxn ops =>
    apply (reads_readOps _ h).map
  | write ops =>
    apply (reads_readOps _ h).map
  | confChange add node =>
    have hadd : ((if add then (1 : UInt8) else 0) != 0) = add := by
      cases add with
      | true => rfl
      | false => rfl
    apply (reads_takeByte truncated 3).bind
    apply (reads_takeByte truncated _).bind
    rw [hadd]
    apply (reads_takeBe64 truncated node).map
  | noop =>
    apply reads_pure
  | manifestChange p =>
    apply (reads_readManifestChange h.1 h.2).map
  | largeManifestChange p =>
    apply (reads_readManifestChange h.1 h.2).map
  | fenced fence inner =>
    apply (reads_takeByte truncated 6).bind
    apply (reads_readFence fence).bind
    apply (reads_readInner h).map
  | compactionConfirmed region floor =>
    apply (reads_takeByte truncated 9).bind
    apply (reads_takeBe64 truncated region).bind
    apply (reads_takeBe64 truncated floor.term).bind
    apply (reads_takeBe64 truncated floor.index).map

/-! ## Nothing shorter, nothing longer -/

instance extends_readBytes : Fact (Extends readBytes) := extends_bind

instance extends_readOp (ctx : String) : Fact (Extends (readOp ctx)) := extends_bind

instance extends_readOps (ctx : String) : Fact (Extends (readOps ctx)) := extends_bind

instance extends_readFence : Fact (Extends readFence) := extends_bind

instance extends_readInner : Fact (Extends readInner) := extends_bind

instance extends_readManifestChange : Fact (Extends readManifestChange) := extends_bind

instance extends_readDataRange : Fact (Extends readDataRange) := extends_bind

instance extends_readPlan : Fact (Extends readPlan) := extends_bind

instance extends_boundedCount : Fact (Extends boundedCount) := extends_bind

instance extends_readTtlMutation : Fact (Extends readTtlMutation) := extends_bind

instance extends_readCandidate : Fact (Extends readCandidate) := extends_bind

instance extends_readAction : Fact (Extends readAction) := extends_bind

instance extends_readRawTtl : Fact (Extends readRawTtl) := extends_bind

instance extends_readPayload (size : ℕ) (tag : UInt8) : Fact (Extends (readPayload size tag)) := by
  rw [readPayload.eq_def]
  split <;> infer_instance

instance extends_readCommand (size : ℕ) : Fact (Extends (readCommand size)) := extends_bind

theorem decode_eq_ok :
  Command.decode bytes = .ok cmd ↔ readCommand bytes.length bytes = .ok (cmd, [])
  := by
  simp only [Command.decode, bind_eq_ok, failIf_eq_ok, not_not]
  constructor
  · rintro ⟨⟨command, rest⟩, hread, _, rfl, h⟩
    cases h
    apply hread
  · intro hread
    exact ⟨(cmd, []), hread, (), rfl, rfl⟩

/-- A command on expiring values is refused by the size of its entry before it is read. -/
theorem readCommand_oversized (h : maxCommandBytes < size) (rest : Bytes) :
  readCommand size (entryVersion :: 10 :: rest)
    = .error (.raft "Raw TTL command exceeds byte budget")
  := by
  have hguard : guardOr (size ≤ maxCommandBytes)
      (.raft "Raw TTL command exceeds byte budget" : Error) rest = .error _ :=
    if_neg (not_le.mpr h)
  change (guardOr (size ≤ maxCommandBytes) (.raft "Raw TTL command exceeds byte budget" : Error) rest
    >>= fun _ => _) = _
  rw [hguard]
  rfl

/-- A command within the limits of the encoder is decoded from its encoding, and nothing is
decoded from a proper front part of it or from more than it. -/
theorem encoding_is_exact {cmd : Command} (h : cmd.Encodable) :
  Command.decode cmd.encode = .ok cmd
    ∧ (∀ front more, cmd.encode = front ++ more → more ≠ [] →
      ∀ other, Command.decode front ≠ .ok other)
    ∧ ∀ more, more ≠ [] → ∀ other, Command.decode (cmd.encode ++ more) ≠ .ok other
  := by
  have hsize : ∀ command, cmd = .rawTtl command → cmd.encode.length ≤ maxCommandBytes := by
    rintro command rfl
    rw [length_encode_rawTtl]
    apply (encodable_of_validate h).2
  refine ⟨?_, ?_, ?_⟩
  · rw [decode_eq_ok]
    apply (reads_readCommand h hsize).run
  · intro front more hfront hmore other hdecode
    have hle : front.length ≤ cmd.encode.length := by
      rw [hfront, length_append]
      omega
    have hreads : Reads (readCommand front.length) (front ++ more) cmd := by
      rw [← hfront]
      apply reads_readCommand h fun command hcmd => le_trans hle (hsize command hcmd)
    rw [decode_eq_ok] at hdecode
    apply hmore
    apply (extends_readCommand front.length).out.eq_nil_of_reads hreads hdecode
  · intro more hmore other hdecode
    rw [decode_eq_ok] at hdecode
    by_cases hadmitted : ∀ command, cmd = .rawTtl command →
        (cmd.encode ++ more).length ≤ maxCommandBytes
    · rw [reads_readCommand h hadmitted] at hdecode
      exact hmore (Prod.mk.inj (Except.ok.inj hdecode)).2
    · push Not at hadmitted
      obtain ⟨command, rfl, hlarge⟩ := hadmitted
      have hrefused := readCommand_oversized hlarge (command.encodeInto ++ more)
      nomatch hdecode.symm.trans hrefused

/-- A fenced write of one key. -/
theorem encoding_is_exact_fenced :
  let cmd : Command := .fenced ⟨7, 1, 1⟩ (.write [.put 0 [1] [2], .delete 2 [3]])
  Command.decode cmd.encode = .ok cmd ∧ ∀ other, Command.decode (cmd.encode ++ [0]) ≠ .ok other
  := by
  intro cmd
  have hcmd : cmd.Encodable := by
    change OpsEncodable _
    decide
  obtain ⟨hdecode, -, hlonger⟩ := encoding_is_exact hcmd
  use hdecode, hlonger [0] nofun

/-- The plan of a write that a leader resolves can be proposed: it passes the checks and is read
as it was written, at no time before the watermark.  It has expired when it is observed only if
it was to last no time. -/
theorem resolved_plan_is_read_back {ttlSecs : Option UInt64} {sample : ClockSample}
    {committed : ClockWatermark} {plan : ExpiryPlan}
    (h : ExpiryPlan.resolve ttlSecs sample committed = .ok plan) (rest : Bytes) :
  validPlan plan = .ok () ∧ readPlan (encodePlan plan ++ rest) = .ok (plan, rest)
    ∧ committed.unixMs ≤ plan.observed.unixMs
    ∧ ∀ deadline ∈ plan.expiresAtMs, deadline = plan.observed.unixMs → ttlSecs = some 0
  := by
  obtain ⟨hle, hdeadline⟩ := ExpiryPlan.resolve_eq_ok h
  have hvalid : validPlan plan = .ok () := by
    rw [validPlan, failIf_eq_ok]
    rintro ⟨deadline, hmem, hlt⟩
    apply not_le_of_gt hlt (hdeadline deadline hmem).1
  use hvalid, reads_readPlan hvalid rest, hle, fun deadline hmem => (hdeadline deadline hmem).2

theorem resolved_plan_is_read_back_seconds :
  readPlan (encodePlan ⟨⟨11⟩, some 5012⟩ ++ [7]) = .ok (⟨⟨11⟩, some 5012⟩, [7])
  := by
  have h : ExpiryPlan.resolve (some 5) ⟨10, 12, by decide⟩ ⟨11⟩ = .ok ⟨⟨11⟩, some 5012⟩ := rfl
  apply (resolved_plan_is_read_back h [7]).2.1

end Kv9.Raft
