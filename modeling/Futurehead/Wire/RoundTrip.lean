import Futurehead.Wire.Message

/-!
# Framing and round trip of messages

The receiver knows from the header how many bytes follow, and what it reads from them is the
message that was sent, with two exceptions: the time of a telemetry message is cut to
milliseconds, and a request that holds a pair of zeros is refused.
-/

namespace Futurehead

open Wire List MessageHeader

/-! ## Fields -/

@[simp] theorem MessageType.ofCode_code (type : MessageType) : ofCode type.code = some type := by
  cases type <;> rfl

@[simp] theorem Endpoint.deserialize_serialize (e : Endpoint) (rest : Bytes) :
    deserialize (e.serialize ++ rest) = some (e, rest) := by
  simp only [deserialize, serialize, append_assoc, Format.read_write_bind]
  rfl

theorem Endpoint.length_serialize (e : Endpoint) : e.serialize.length = 18 := by
  simp only [serialize, length_append, Format.length_write]
  rfl

/-- What is left of a timestamp. -/
def TelemetryData.received (data : TelemetryData) : TelemetryData :=
  { data with timestamp := data.timestamp.sdiv 1000000 * 1000000 }

@[simp] theorem TelemetryData.deserialize_serialize (data : TelemetryData) (rest : Bytes) :
    deserialize (data.serialize ++ rest) = some (data.received, rest) := by
  simp only [deserialize, serialize, serializeWithoutSignature, append_assoc,
    Format.read_write_bind]
  rfl

theorem TelemetryData.length_serialize (data : TelemetryData) :
    data.serialize.length = telemetryDataSize := by
  simp only [serialize, serializeWithoutSignature, length_append, Format.length_write]
  rfl

@[simp] theorem Message.readPair_writePair (pair : BlockHash × Root) (rest : Bytes) :
    readPair (writePair pair ++ rest) = some (pair, rest) := by
  simp only [readPair, writePair, append_assoc, Format.read_write_bind]
  rfl

theorem MessageHeader.nonzeroPairs_length {pairs : List (BlockHash × Root)} (hne : pairs ≠ []) :
    nonzeroPairs pairs.length pairs = if (0, 0) ∈ pairs then none else some pairs := by
  unfold nonzeroPairs
  by_cases hzero : (0, 0) ∈ pairs
  · have hlt : (pairs.filter fun pair => pair.1 ≠ 0 || pair.2 ≠ 0).length < pairs.length :=
      length_filter_lt_length_iff_exists.2 ⟨(0, 0), hzero, by simp⟩
    rw [if_pos hzero, if_pos (.inr hlt.ne)]
  · have hall : pairs.filter (fun pair => pair.1 ≠ 0 || pair.2 ≠ 0) = pairs := by
      refine filter_eq_self.2 fun pair hmem => ?_
      by_contra hpair
      simp only [ne_eq, Bool.or_eq_true, decide_eq_true_eq, not_or, not_not] at hpair
      have hpair : pair = (0, 0) := Prod.ext hpair.1 hpair.2
      exact hzero (hpair ▸ hmem)
    simp only [hall, if_neg hzero, hne, ne_eq, not_true_eq_false, or_self, if_false]

theorem Message.length_writePair (pair : BlockHash × Root) : (writePair pair).length = 64 := by
  simp only [writePair, length_append, Format.length_write]
  rfl

@[simp] theorem Message.readCount_writeCount (count : BitVec 32) (rest : Bytes) :
    readCount (writeCount count ++ rest) = some (count, rest) := by
  have hzeros : readMany u8.read 3 ([0, 0, 0] ++ rest) = some (⟨[0, 0, 0], rfl⟩, rest) :=
    readMany_flatMap u8.read_write ⟨[0, 0, 0], rfl⟩ rest
  simp only [readCount, writeCount, append_assoc, bind, StateT.bind, Format.read_write,
    Option.bind_some, hzeros]
  rfl

theorem Message.length_writeCount (count : BitVec 32) : (writeCount count).length = 8 := by
  simp only [writeCount, length_append, Format.length_write]
  rfl

/-! ## Votes -/

namespace Vote

variable {digest : Bytes → BlockHash} {type : Nat}

theorem takes_readBlock : (type : BlockType) → Takes (readBlock type) type.size
  | .send => u256.takes_read.bind fun _ => u256.takes_read.bind fun _ =>
    u128.takes_read.bind fun _ => u512.takes_read.bind fun _ => u64.takes_read.bind fun _ => .pure _
  | .receive => u256.takes_read.bind fun _ => u256.takes_read.bind fun _ =>
    u512.takes_read.bind fun _ => u64.takes_read.bind fun _ => .pure _
  | BlockType.open => u256.takes_read.bind fun _ => u256.takes_read.bind fun _ =>
    u256.takes_read.bind fun _ => u512.takes_read.bind fun _ => u64.takes_read.bind fun _ => .pure _
  | .change => u256.takes_read.bind fun _ => u256.takes_read.bind fun _ =>
    u512.takes_read.bind fun _ => u64.takes_read.bind fun _ => .pure _
  | .state => u256.takes_read.bind fun _ => u256.takes_read.bind fun _ =>
    u256.takes_read.bind fun _ => u128.takes_read.bind fun _ => u256.takes_read.bind fun _ =>
    u512.takes_read.bind fun _ => u64Big.takes_read.bind fun _ => .pure _

theorem length_serialize (v : Vote) (size : Nat)
    (h : ∀ x ∈ v.blocks, (serializeBlock digest type x).length = size) :
    (v.serialize digest type).length = 32 + 64 + 8 + v.blocks.length * size := by
  have hbs : (v.blocks.flatMap (serializeBlock digest type)).length =
      v.blocks.length * size := by
    rw [length_flatMap, map_eq_map_iff.2 h, map_const', sum_replicate_nat]
  simp only [serialize, length_append, Format.length_write, hbs]
  rfl

theorem deserialize_serialize {v : Vote} (size : Nat) (htakes : Takes (deserializeBlock type) size)
    (hsize : 0 < size) (hbs : v.blocks ≠ [])
    (h : ∀ x ∈ v.blocks, ∀ rest,
      deserializeBlock type (serializeBlock digest type x ++ rest) = some (x, rest)) :
    deserialize type (v.serialize digest type) = some (v, []) := by
  simp only [deserialize, serialize, append_assoc, Format.read_write_bind]
  simp only [bind, StateT.bind, readAll_flatMap htakes hsize h, Option.bind_some, if_neg hbs]
  rfl

theorem deserialize_hashes {v : Vote} {hashes : List BlockHash} (hv : v.blocks = hashes.map .hash)
    (hne : hashes ≠ []) : deserialize notABlock (v.serialize digest notABlock) = some (v, []) := by
  refine deserialize_serialize 32 ?_ (by decide) (by simpa [hv] using hne) ?_
  · exact u256.takes_read.map _
  · intro x hx rest
    rw [hv] at hx
    obtain ⟨h, -, rfl⟩ := mem_map.1 hx
    simp only [deserializeBlock, serializeBlock, if_pos, map_eq_pure_bind, Format.read_write_bind]
    rfl

theorem code_ne_notABlock (type : BlockType) : type.code ≠ notABlock := by
  cases type <;> decide

theorem deserialize_block {v : Vote} {b : Block} (hv : v.blocks = [.block b]) :
    deserialize b.hashables.type.code (v.serialize digest b.hashables.type.code) =
      some (v, []) := by
  have hcode := code_ne_notABlock b.hashables.type
  refine deserialize_serialize b.hashables.type.size ?_ ?_ (by simp [hv]) ?_
  · simp only [deserializeBlock, if_neg hcode, Futurehead.deserializeBlock, BlockType.ofCode_code]
    exact (takes_readBlock _).map _
  · cases b.hashables.type <;> decide
  · intro x hx rest
    rw [hv, mem_singleton] at hx
    subst hx
    simp only [deserializeBlock, serializeBlock, if_neg hcode, map_eq_pure_bind, bind, StateT.bind,
      deserializeBlock_serialize]
    rfl

end Vote

/-! ## Headers -/

namespace MessageHeader

variable (protocol : Protocol) (header : MessageHeader)

/-- The header as the receiver has it: only the lowest version was not in the one that was sent. -/
def received (useEpoch2MinVersion : Bool) : MessageHeader :=
  { header with versionMin := protocol.protocolVersionMin useEpoch2MinVersion }

theorem deserialize_serialize (useEpoch2MinVersion : Bool) (rest : Bytes) :
    deserialize protocol (header.serialize protocol useEpoch2MinVersion ++ rest) =
      some (header.received protocol useEpoch2MinVersion, rest) := by
  simp only [deserialize, serialize, append_assoc, Format.read_write_bind]
  simp only [ne_eq, not_true_eq_false, if_false]
  simp only [Format.read_write_bind]
  rfl

variable {header} in
theorem readPayload_eq (type : MessageType) (h : header.type = type.code) (uniquing : Uniquing) :
    readPayload uniquing header = readAs uniquing header type := by
  rw [readPayload, h, MessageType.ofCode_code]

variable {header} in
theorem payloadLengthBytes_eq (type : MessageType) (h : header.type = type.code) :
    header.payloadLengthBytes = header.lengthAs type := by
  rw [payloadLengthBytes, h, MessageType.ofCode_code, Option.map_some, Option.getD_some]

theorem blockType_blockTypeSet (type : MessageType) (block : BlockType) :
    ((new protocol type).blockTypeSet block.code).blockType = block.code := by
  have hall : (((0 &&& ~~~0x0f00#16 ||| BitVec.ofNat 16 (block.code <<< 8)) &&& 0x0f00) >>> 8).toNat =
      block.code := by
    cases block <;> decide
  exact hall

theorem blockType_countGet {count : Nat} (h : count < 16) (type : MessageType) :
    (((new protocol type).blockTypeSet notABlock).countSet count).blockType = notABlock ∧
      (((new protocol type).blockTypeSet notABlock).countSet count).countGet = count := by
  have hall : ∀ count < 16,
      (((((0 &&& ~~~0x0f00#16) ||| BitVec.ofNat 16 (1 <<< 8)) &&& ~~~0xf000#16) |||
        BitVec.ofNat 16 (count <<< 12)) &&& 0x0f00) >>> 8 = 1 ∧
      ((((((0 &&& ~~~0x0f00#16) ||| BitVec.ofNat 16 (1 <<< 8)) &&& ~~~0xf000#16) |||
        BitVec.ofNat 16 (count <<< 12)) &&& 0xf000) >>> 12).toNat = count := by decide
  exact ⟨congrArg BitVec.toNat (hall count h).1, (hall count h).2⟩

end MessageHeader

/-! ## Messages -/

/-- What the receiver has instead of the fields that were sent; nothing if it refuses them. -/
def Payload.received : Payload → Option Payload
  | .confirmReq block rootsHashes =>
    if (0, 0) ∈ rootsHashes then none else some (.confirmReq block rootsHashes)
  | .telemetryAck data => some (.telemetryAck data.received)
  | payload => some payload

/-- What the sender writes behind the header: as long as the receiver expects, and read as
`received` says. -/
structure Message.Sent (digest : Bytes → BlockHash) (m : Message) (bytes : Bytes) : Prop where
  serialize : m.serializePayload digest = some bytes
  length : bytes.length = m.header.payloadLengthBytes
  read : m.header.readPayload .null bytes = m.payload.received.map (·, [])

namespace Message

variable {protocol : Protocol} {digest : Bytes → BlockHash}

theorem sent_keepalive (peers : List.Vector Endpoint 8) :
    Sent digest (keepalive protocol peers) (peers.toList.flatMap Endpoint.serialize) where
  serialize := rfl
  length := by
    rw [length_flatMap, map_eq_map_iff.2 fun e _ => e.length_serialize, map_const',
      sum_replicate_nat, peers.toList_length, keepalive,
      payloadLengthBytes_eq .keepalive rfl, MessageHeader.lengthAs]
  read := by
    have h := readMany_flatMap Endpoint.deserialize_serialize peers []
    rw [append_nil] at h
    rw [readPayload_eq .keepalive rfl]
    simp only [MessageHeader.readAs, readKeepalive, map_eq_pure_bind, bind, StateT.bind, h]
    rfl

theorem deserializeBlock_eq (b : Block) :
    deserializeBlock b.hashables.type.code b.serialize = some (b, []) := by
  simpa using deserializeBlock_serialize b []

theorem blockSize_code (type : BlockType) : blockSize type.code = type.size := by
  rw [blockSize, BlockType.ofCode_code, Option.map_some, Option.getD_some]

theorem code_ne_invalid (type : BlockType) : type.code ≠ 0 := by
  cases type <;> decide

theorem sent_publish (b : Block) : Sent digest (publish protocol b) b.serialize where
  serialize := rfl
  length := by
    rw [b.length_serialize, publish, payloadLengthBytes_eq .publish rfl,
      MessageHeader.lengthAs, blockType_blockTypeSet, blockSize_code]
  read := by
    rw [readPayload_eq .publish rfl]
    simp only [MessageHeader.readAs, publish, readPublish,
      blockType_blockTypeSet, bind, StateT.bind, deserializeBlock_eq]
    rfl

theorem sent_confirmReqBlock (b : Block) :
    Sent digest (confirmReqBlock protocol b) b.serialize := by
  have htype := blockType_blockTypeSet protocol .confirmReq b.hashables.type
  have hcode := Vote.code_ne_notABlock b.hashables.type
  constructor
  case serialize =>
    simp only [serializePayload, confirmReqBlock, htype, if_neg hcode, Option.map_some]
  case length =>
    rw [b.length_serialize, confirmReqBlock,
      payloadLengthBytes_eq .confirmReq rfl, MessageHeader.lengthAs, htype,
      confirmReqSize, if_pos ⟨code_ne_invalid _, hcode⟩, blockSize_code]
  case read =>
    rw [readPayload_eq .confirmReq rfl, MessageHeader.readAs,
      readConfirmReq, confirmReqBlock, htype, if_neg hcode]
    simp only [bind, StateT.bind, deserializeBlock_eq]
    rfl

theorem sent_confirmReqHashes {rootsHashes : List (BlockHash × Root)}
    (hpos : 1 ≤ rootsHashes.length) (hle : rootsHashes.length ≤ 15) :
    Sent digest (confirmReqHashes protocol rootsHashes) (rootsHashes.flatMap writePair) := by
  obtain ⟨htype, hcnt⟩ := blockType_countGet protocol
    (Nat.lt_succ_of_le hle) .confirmReq
  constructor
  case serialize => simp only [serializePayload, confirmReqHashes, htype, if_pos]
  case length =>
    rw [length_flatMap, map_eq_map_iff.2 fun pair _ => length_writePair pair,
      map_const', sum_replicate_nat, confirmReqHashes,
      payloadLengthBytes_eq .confirmReq rfl, MessageHeader.lengthAs, htype,
      hcnt, confirmReqSize, if_neg (by simp), if_pos rfl]
  case read =>
    have h : readMany readPair rootsHashes.length (rootsHashes.flatMap writePair) =
        some (⟨rootsHashes, rfl⟩, []) := by
      simpa using readMany_flatMap readPair_writePair ⟨rootsHashes, rfl⟩ []
    have hkeep := nonzeroPairs_length (ne_nil_of_length_pos hpos)
    rw [readPayload_eq .confirmReq rfl, MessageHeader.readAs,
      readConfirmReq, confirmReqHashes, htype, hcnt, if_pos rfl]
    simp only [bind, StateT.bind, h, Option.bind_some, List.Vector.toList_mk, hkeep,
      Payload.received]
    split <;> rfl

theorem sent_confirmAckBlock (acc : Account) (sig : Signature) (sequence : BitVec 64)
    (b : Block) : Sent digest (confirmAck protocol ⟨acc, sig, sequence, [.block b]⟩)
      (Vote.serialize digest b.hashables.type.code ⟨acc, sig, sequence, [.block b]⟩) := by
  have htype := blockType_blockTypeSet protocol .confirmAck b.hashables.type
  have hcode := Vote.code_ne_notABlock b.hashables.type
  constructor
  case serialize => simp only [serializePayload, confirmAck, htype]
  case length =>
    rw [Vote.length_serialize _ b.hashables.type.size (by
        simp [Vote.serializeBlock, hcode, b.length_serialize]),
      confirmAck, payloadLengthBytes_eq .confirmAck rfl,
      MessageHeader.lengthAs, htype, confirmAckSize, if_pos ⟨code_ne_invalid _, hcode⟩,
      blockSize_code, length_singleton, Nat.one_mul]
  case read =>
    rw [readPayload_eq .confirmAck rfl, MessageHeader.readAs, readConfirmAck]
    simp only [confirmAck, htype, bind, StateT.bind, Vote.deserialize_block]
    rfl

theorem sent_confirmAckHashes (acc : Account) (sig : Signature) (sequence : BitVec 64)
    {hashes : List BlockHash} (hpos : 1 ≤ hashes.length) (hle : hashes.length ≤ 12) :
    Sent digest (confirmAck protocol ⟨acc, sig, sequence, hashes.map .hash⟩)
      (Vote.serialize digest notABlock ⟨acc, sig, sequence, hashes.map .hash⟩) := by
  have hne := ne_nil_of_length_pos hpos
  have hheader : (confirmAck protocol ⟨acc, sig, sequence, hashes.map .hash⟩).header =
      ((MessageHeader.new protocol .confirmAck).blockTypeSet notABlock).countSet hashes.length := by
    cases hashes with
    | nil => exact absurd rfl hne
    | cons h hashes => simp [confirmAck]
  obtain ⟨htype, hcnt⟩ := blockType_countGet protocol
    (Nat.lt_of_le_of_lt hle (by decide)) .confirmAck
  constructor
  case serialize =>
    simp only [serializePayload, hheader, htype]
    rfl
  case length =>
    rw [Vote.length_serialize _ 32 (by
        simp [Vote.serializeBlock, u256, Format.word, length_bytesLE]),
      hheader, payloadLengthBytes_eq .confirmAck rfl,
      MessageHeader.lengthAs, htype, hcnt, confirmAckSize, if_neg (by simp), if_pos rfl,
      length_map]
  case read =>
    have h : Vote.deserialize notABlock
        (Vote.serialize digest notABlock ⟨acc, sig, sequence, hashes.map .hash⟩) =
          some (⟨acc, sig, sequence, hashes.map .hash⟩, []) :=
      Vote.deserialize_hashes rfl hne
    rw [hheader, readPayload_eq .confirmAck rfl, MessageHeader.readAs, readConfirmAck, htype]
    simp only [bind, StateT.bind, h]
    rfl

theorem sent_bulkPull (start : Uint256) (last : BlockHash) (count : Option (BitVec 32)) :
    Sent digest (bulkPull protocol start last count)
      (u256.write start ++ u256.write last ++ (count.map writeCount).getD []) := by
  have hflag : (bulkPull protocol start last count).header.extensions.getLsbD 0 = count.isSome := by
    cases count <;> simp [bulkPull, MessageHeader.new, MessageHeader.flagSet]
  have htype : (bulkPull protocol start last count).header.type = MessageType.bulkPull.code := by
    cases count <;> rfl
  constructor
  case serialize =>
    simp only [serializePayload, hflag]
    cases count <;> rfl
  case length =>
    rw [payloadLengthBytes_eq .bulkPull htype, MessageHeader.lengthAs,
      bulkPullIsCountPresent, MessageHeader.is, htype, hflag]
    cases count <;>
      simp [length_writeCount, u256, Format.word, length_bytesLE]
  case read =>
    rw [readPayload_eq .bulkPull htype, MessageHeader.readAs, readBulkPull, hflag, append_assoc]
    simp only [Format.read_write_bind]
    cases count with
    | none => rfl
    | some count =>
      have hcnt : readCount (writeCount count) = some (count, []) := by
        simpa using readCount_writeCount count []
      simp only [Option.isSome_some, if_true, Option.map_some, Option.getD_some, bind, StateT.bind,
        hcnt]
      rfl

theorem sent_nodeIdHandshake (query : Option Uint256) (response : Option (Account × Signature)) :
    Sent digest (nodeIdHandshake protocol query response)
      ((query.map u256.write).getD [] ++
        (response.map fun (acc, sig) =>
          u256.write acc ++ u512.write sig).getD []) := by
  have htype : (nodeIdHandshake protocol query response).header.type =
      MessageType.nodeIdHandshake.code := by
    cases query <;> cases response <;> rfl
  have hquery : (nodeIdHandshake protocol query response).header.nodeIdHandshakeIsQuery =
      query.isSome := by
    rw [nodeIdHandshakeIsQuery, MessageHeader.is, htype]
    cases query <;> cases response <;> simp [nodeIdHandshake, MessageHeader.new, MessageHeader.flagSet]
  have hresp : (nodeIdHandshake protocol query response).header.nodeIdHandshakeIsResponse =
      response.isSome := by
    rw [nodeIdHandshakeIsResponse, MessageHeader.is, htype]
    cases query <;> cases response <;> simp [nodeIdHandshake, MessageHeader.new, MessageHeader.flagSet]
  constructor
  case serialize => rfl
  case length =>
    rw [payloadLengthBytes_eq .nodeIdHandshake htype, MessageHeader.lengthAs, hquery, hresp]
    cases query <;> cases response <;> simp [u256, u512, Format.word, length_bytesLE]
  case read =>
    rw [readPayload_eq .nodeIdHandshake htype, MessageHeader.readAs,
      readNodeIdHandshake, hquery, hresp]
    cases query <;> cases response <;>
      simp [bind, StateT.bind, StateT.map, Functor.map, Reader.pure_apply, nodeIdHandshake,
        Payload.received]

theorem sent_frontierReq (start : Account) (age count : BitVec 32) :
    Sent digest (frontierReq protocol start age count)
      (u256.write start ++ u32.write age ++ u32.write count) where
  serialize := rfl
  length := by
    rw [payloadLengthBytes_eq .frontierReq rfl]
    simp only [length_append, Format.length_write]
    rfl
  read := by
    rw [readPayload_eq .frontierReq rfl, MessageHeader.readAs, readFrontierReq]
    simp only [append_assoc, Format.read_write_bind, Format.read_write_nil_bind]
    rfl

theorem sent_bulkPullAccount (acc : Account) (minimumAmount : Amount) (flags : BitVec 8) :
    Sent digest (bulkPullAccount protocol acc minimumAmount flags)
      (u256.write acc ++ u128.write minimumAmount ++ u8.write flags) where
  serialize := rfl
  length := by
    rw [payloadLengthBytes_eq .bulkPullAccount rfl]
    simp only [length_append, Format.length_write]
    rfl
  read := by
    rw [readPayload_eq .bulkPullAccount rfl, MessageHeader.readAs, readBulkPullAccount]
    simp only [append_assoc, Format.read_write_bind, Format.read_write_nil_bind]
    rfl

theorem sent_bulkPush : Sent digest (bulkPush protocol) [] where
  serialize := rfl
  length := by
    rw [payloadLengthBytes_eq .bulkPush rfl]
    rfl
  read := by
    rw [readPayload_eq .bulkPush rfl]
    rfl

theorem sent_telemetryReq : Sent digest (telemetryReq protocol) [] where
  serialize := rfl
  length := by
    rw [payloadLengthBytes_eq .telemetryReq rfl]
    rfl
  read := by
    rw [readPayload_eq .telemetryReq rfl]
    rfl

theorem sent_telemetryAckEmpty : Sent digest (telemetryAckEmpty protocol) [] := by
  have hsize : (telemetryAckEmpty protocol).header.telemetrySize = 0 := by
    simp [telemetryAckEmpty, telemetrySize, MessageHeader.new]
  constructor
  case serialize =>
    simp only [serializePayload, hsize, if_true]
    rfl
  case length =>
    rw [payloadLengthBytes_eq .telemetryAck rfl, MessageHeader.lengthAs, hsize, length_nil]
  case read =>
    rw [readPayload_eq .telemetryAck rfl, MessageHeader.readAs, readTelemetryAck, if_pos hsize]
    rfl

theorem sent_telemetryAck (data : TelemetryData) :
    Sent digest (telemetryAck protocol data) data.serialize := by
  have hsize : (telemetryAck protocol data).header.telemetrySize = telemetryDataSize := by
    simp [telemetryAck, telemetrySize, MessageHeader.new, telemetryDataSize]
  have hne : (telemetryAck protocol data).header.telemetrySize ≠ 0 := by
    rw [hsize]
    decide
  constructor
  case serialize =>
    simp only [serializePayload, hne, if_false]
    rfl
  case length =>
    rw [payloadLengthBytes_eq .telemetryAck rfl, MessageHeader.lengthAs, hsize,
      data.length_serialize]
  case read =>
    have hread : TelemetryData.deserialize data.serialize = some (data.received, []) := by
      simpa using data.deserialize_serialize []
    rw [readPayload_eq .telemetryAck rfl, MessageHeader.readAs, readTelemetryAck, if_neg hne]
    simp only [map_eq_pure_bind, bind, StateT.bind, hread]
    rfl

theorem Constructible.sent {m : Message} (h : Constructible protocol m) :
    ∃ bytes, Sent digest m bytes := by
  cases h with
  | keepalive peers => exact ⟨_, sent_keepalive peers⟩
  | publish b => exact ⟨_, sent_publish b⟩
  | confirmReqBlock b => exact ⟨_, sent_confirmReqBlock b⟩
  | confirmReqHashes _ hpos hle => exact ⟨_, sent_confirmReqHashes hpos hle⟩
  | confirmAckBlock acc sig sequence b =>
    exact ⟨_, sent_confirmAckBlock acc sig sequence b⟩
  | confirmAckHashes acc sig sequence _ hpos hle =>
    exact ⟨_, sent_confirmAckHashes acc sig sequence hpos hle⟩
  | bulkPull start last count => exact ⟨_, sent_bulkPull start last count⟩
  | bulkPush => exact ⟨_, sent_bulkPush⟩
  | frontierReq start age count => exact ⟨_, sent_frontierReq start age count⟩
  | nodeIdHandshake query response => exact ⟨_, sent_nodeIdHandshake query response⟩
  | bulkPullAccount acc minimumAmount flags =>
    exact ⟨_, sent_bulkPullAccount acc minimumAmount flags⟩
  | telemetryReq => exact ⟨_, sent_telemetryReq⟩
  | telemetryAckEmpty => exact ⟨_, sent_telemetryAckEmpty⟩
  | telemetryAck data => exact ⟨_, sent_telemetryAck data⟩

/-! ## Round trip -/

theorem toInt_sdiv_mul (timestamp : BitVec 64) :
    (timestamp.sdiv 1000000 * 1000000).toInt = timestamp.toInt.tdiv 1000000 * 1000000 := by
  have hle := natAbs_tdiv_million timestamp
  rw [BitVec.toInt_mul, toInt_sdiv_million, show (1000000 : BitVec 64).toInt = 1000000 by decide]
  exact Int.bmod_eq_of_le (by omega) (by omega)

theorem received_eq_self (data : TelemetryData) :
    data.received = data ↔ (1000000 : Int) ∣ data.timestamp.toInt := by
  have htime : data.received = data ↔
      data.timestamp.sdiv 1000000 * 1000000 = data.timestamp := by
    simp [TelemetryData.received, TelemetryData.ext_iff]
  rw [htime, ← BitVec.toInt_inj, toInt_sdiv_mul]
  refine ⟨fun h => ?_, Int.tdiv_mul_cancel⟩
  rw [← h]
  exact Dvd.intro_left _ rfl

section

variable (protocol digest) (useEpoch2MinVersion : Bool) (m : Message)

/-- The receiver of the message reads `header` and has `payload` left. -/
def Arrives (header : MessageHeader) (payload : Bytes) : Prop :=
  ∃ bytes, m.toBytes protocol digest useEpoch2MinVersion = some bytes ∧
    MessageHeader.deserialize protocol bytes = some (header, payload)

/-- What is written after the header is as long as the receiver computes from the header that it
has read. -/
def Framed : Prop :=
  ∃ header payload, Arrives protocol digest useEpoch2MinVersion m header payload ∧
    payload.length = header.payloadLengthBytes

/-- What is written after the header is read as the message, to its last byte. -/
def ReadsBack : Prop :=
  ∃ header payload, Arrives protocol digest useEpoch2MinVersion m header payload ∧
    header.readPayload .null payload = some (m.payload, [])

end

/-- The receiver takes the fields as they are: no pair of zeros is asked for, and the time of the
telemetry data is a whole number of milliseconds. -/
def Transmissible (m : Message) : Prop :=
  match m.payload with
  | .confirmReq _ rootsHashes => (0, 0) ∉ rootsHashes
  | .telemetryAck data => (1000000 : Int) ∣ data.timestamp.toInt
  | _ => True

theorem received_eq_iff (m : Message) : m.payload.received = some m.payload ↔ m.Transmissible := by
  unfold Payload.received Transmissible
  cases m.payload with
  | confirmReq block rootsHashes => simp
  | telemetryAck data => simp [received_eq_self]
  | _ => simp

namespace Sent

variable {m : Message} {payload : Bytes} (hsent : Sent digest m payload) (useEpoch2MinVersion : Bool)
include hsent

theorem arrives_iff {header : MessageHeader} {rest : Bytes} :
    Arrives protocol digest useEpoch2MinVersion m header rest ↔
      m.header.received protocol useEpoch2MinVersion = header ∧ payload = rest := by
  have hbytes : m.toBytes protocol digest useEpoch2MinVersion =
      some (m.header.serialize protocol useEpoch2MinVersion ++ payload) := by
    rw [toBytes, hsent.serialize, Option.map_some]
  have hheader := m.header.deserialize_serialize protocol useEpoch2MinVersion payload
  constructor
  · rintro ⟨bytes, hb, hd⟩
    cases hbytes.symm.trans hb
    cases hheader.symm.trans hd
    exact ⟨rfl, rfl⟩
  · rintro ⟨rfl, rfl⟩
    exact ⟨_, hbytes, hheader⟩

-- The receiver's header differs only in a field that neither the length nor the reader uses.
theorem framed : Framed protocol digest useEpoch2MinVersion m :=
  ⟨_, payload, (hsent.arrives_iff _).2 ⟨rfl, rfl⟩, hsent.length⟩

theorem readsBack_iff : ReadsBack protocol digest useEpoch2MinVersion m ↔ m.Transmissible := by
  have hread : (m.header.received protocol useEpoch2MinVersion).readPayload .null payload =
      m.payload.received.map (·, []) := hsent.read
  rw [← received_eq_iff]
  constructor
  · rintro ⟨header, rest, harrives, hr⟩
    obtain ⟨rfl, rfl⟩ := (hsent.arrives_iff _).1 harrives
    rw [hread, Option.map_eq_some_iff] at hr
    obtain ⟨received, hreceived, heq⟩ := hr
    rw [hreceived, (Prod.mk.inj heq).1]
  · intro hreceived
    refine ⟨_, payload, (hsent.arrives_iff _).2 ⟨rfl, rfl⟩, ?_⟩
    rw [hread, hreceived, Option.map_some]

end Sent

/-- Every message is as long as its header says. It is read back exactly if it is transmissible. -/
theorem roundTrips_iff {m : Message} (h : Constructible protocol m) (useEpoch2MinVersion : Bool) :
    Framed protocol digest useEpoch2MinVersion m ∧
      (ReadsBack protocol digest useEpoch2MinVersion m ↔ m.Transmissible) := by
  obtain ⟨payload, hsent⟩ := h.sent
  exact ⟨hsent.framed useEpoch2MinVersion, hsent.readsBack_iff useEpoch2MinVersion⟩

end Message

open Sample

/-- Telemetry data of a whole millisecond come back. -/
theorem Message.roundTrips_telemetry :
    ReadsBack protocol digest true
      (telemetryAck protocol { blockCount := 7, timestamp := 100000000 }) :=
  (roundTrips_iff (.telemetryAck _) true).2.2 ⟨100, by decide⟩

/-- A request for a pair of zeros is refused, and the time of telemetry data loses what is less
than a millisecond. -/
theorem Message.roundTrips_fails :
    (Constructible protocol (confirmReqHashes protocol [(0, 0)]) ∧
      ¬ ReadsBack protocol digest true (confirmReqHashes protocol [(0, 0)])) ∧
    Constructible protocol (telemetryAck protocol { timestamp := 1 }) ∧
      ¬ ReadsBack protocol digest true (telemetryAck protocol { timestamp := 1 }) := by
  refine ⟨⟨.confirmReqHashes _ (by decide) (by decide), fun h => ?_⟩, .telemetryAck _, fun h => ?_⟩
  · exact ((sent_confirmReqHashes (by decide) (by decide)).readsBack_iff true).1 h (by simp)
  · have hdvd : (1000000 : Int) ∣ (1 : BitVec 64).toInt :=
      ((sent_telemetryAck _).readsBack_iff true).1 h
    exact absurd hdvd (by decide)

end Futurehead
