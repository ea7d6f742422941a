import Futurehead.Wire.Vote

/-!
# Messages (`futurehead/node/common`)

The header, what each message writes behind it, the length that the receiver computes from the
header, and what it reads. A message is its header with a `Payload`.

The header of a message that was built here has the version of this node; what the sender writes for
the lowest version depends on whether it has seen an epoch 2 block.
-/

namespace Futurehead

open Wire

/-! ## Header -/

inductive MessageType where
  | keepalive
  | publish
  | confirmReq
  | confirmAck
  | bulkPull
  | bulkPush
  | frontierReq
  | nodeIdHandshake
  | bulkPullAccount
  | telemetryReq
  | telemetryAck
  deriving DecidableEq

def MessageType.code : MessageType → BitVec 8
  | .keepalive => 0x02
  | .publish => 0x03
  | .confirmReq => 0x04
  | .confirmAck => 0x05
  | .bulkPull => 0x06
  | .bulkPush => 0x07
  | .frontierReq => 0x08
  | .nodeIdHandshake => 0x0a
  | .bulkPullAccount => 0x0b
  | .telemetryReq => 0x0c
  | .telemetryAck => 0x0d

/-- No type for `invalid`, `not_a_type` and the numbers that are not used. -/
def MessageType.ofCode (code : BitVec 8) : Option MessageType :=
  [MessageType.keepalive, .publish, .confirmReq, .confirmAck, .bulkPull, .bulkPush, .frontierReq,
    .nodeIdHandshake, .bulkPullAccount, .telemetryReq, .telemetryAck].find? (·.code == code)

/-- `network_params.header_magic_number` and `protocol_constants`. -/
structure Protocol where
  headerMagicNumber : BitVec 16
  protocolVersion : BitVec 8
  /-- `protocol_version_min`: higher once epoch 2 has started. -/
  protocolVersionMin : Bool → BitVec 8

/-- `message_header`. The type is the number that was read. -/
structure MessageHeader where
  versionMax : BitVec 8
  versionUsing : BitVec 8
  versionMin : BitVec 8
  type : BitVec 8
  extensions : BitVec 16
  deriving DecidableEq

namespace MessageHeader

variable (protocol : Protocol) (header : MessageHeader)

/-- The constructor for a message of this node. -/
def new (type : MessageType) : MessageHeader where
  versionMax := protocol.protocolVersion
  versionUsing := protocol.protocolVersion
  versionMin := 255
  type := type.code
  extensions := 0

def serialize (useEpoch2MinVersion : Bool) : Bytes :=
  u16.write protocol.headerMagicNumber ++ u8.write header.versionMax ++
    u8.write header.versionUsing ++ u8.write (protocol.protocolVersionMin useEpoch2MinVersion) ++
    u8.write header.type ++ u16.write header.extensions

def deserialize : Reader MessageHeader := do
  let magicNumber ← u16.read
  if magicNumber ≠ protocol.headerMagicNumber then failure
  let versionMax ← u8.read
  let versionUsing ← u8.read
  let versionMin ← u8.read
  let type ← u8.read
  let extensions ← u16.read
  return ⟨versionMax, versionUsing, versionMin, type, extensions⟩

/-- `message_header::block_type`, as a number. -/
def blockType : Nat := ((header.extensions &&& 0x0f00) >>> 8).toNat

def blockTypeSet (type : Nat) : MessageHeader :=
  { header with extensions := (header.extensions &&& ~~~0x0f00#16) ||| BitVec.ofNat 16 (type <<< 8) }

def countGet : Nat := ((header.extensions &&& 0xf000) >>> 12).toNat

def countSet (count : Nat) : MessageHeader :=
  { header with
    extensions := (header.extensions &&& ~~~0xf000#16) ||| BitVec.ofNat 16 (count <<< 12) }

/-- `extensions.set`. -/
def flagSet (flag : Nat) : MessageHeader :=
  { header with extensions := header.extensions ||| (1 <<< flag) }

def is (type : MessageType) : Bool := header.type == type.code

def bulkPullIsCountPresent : Bool := header.is .bulkPull && header.extensions.getLsbD 0

def nodeIdHandshakeIsQuery : Bool := header.is .nodeIdHandshake && header.extensions.getLsbD 0

def nodeIdHandshakeIsResponse : Bool := header.is .nodeIdHandshake && header.extensions.getLsbD 1

/-- `telemetry_ack::size`. -/
def telemetrySize : Nat := (header.extensions &&& 0x07ff).toNat

end MessageHeader

def notABlock : Nat := 1

/-- `block::size` for a type number. -/
def blockSize (type : Nat) : Nat := ((BlockType.ofCode type).map BlockType.size).getD 0

/-- `confirm_req::size`. -/
def confirmReqSize (type count : Nat) : Nat :=
  if type ≠ 0 ∧ type ≠ notABlock then blockSize type
  else if type = notABlock then count * (32 + 32) else 0

/-- `confirm_ack::size`. -/
def confirmAckSize (type count : Nat) : Nat :=
  32 + 64 + 8 + if type ≠ 0 ∧ type ≠ notABlock then blockSize type
    else if type = notABlock then count * 32 else 0

/-- `telemetry_data::size`. -/
def telemetryDataSize : Nat :=
  64 + 32 + 8 + 8 + 8 + 8 + 8 + 4 + 1 + 8 + 32 + 1 + 1 + 1 + 1 + 1 + 8 + 8

def MessageHeader.lengthAs (header : MessageHeader) : MessageType → Nat
  | .bulkPull => 32 + 32 + if header.bulkPullIsCountPresent then 8 else 0
  | .bulkPush | .telemetryReq => 0
  | .frontierReq => 32 + 4 + 4
  | .bulkPullAccount => 32 + 16 + 1
  | .keepalive => 8 * (16 + 2)
  | .publish => blockSize header.blockType
  | .confirmAck => confirmAckSize header.blockType header.countGet
  | .confirmReq => confirmReqSize header.blockType header.countGet
  | .nodeIdHandshake =>
    (if header.nodeIdHandshakeIsQuery then 32 else 0) +
      if header.nodeIdHandshakeIsResponse then 32 + 64 else 0
  | .telemetryAck => header.telemetrySize

def MessageHeader.payloadLengthBytes (header : MessageHeader) : Nat :=
  ((MessageType.ofCode header.type).map header.lengthAs).getD 0

/-! ## Fields -/

/-- `futurehead::endpoint` with an IPv6 address. -/
structure Endpoint where
  address : BitVec 128
  port : BitVec 16
  deriving DecidableEq

namespace Endpoint

def serialize (e : Endpoint) : Bytes := u128.write e.address ++ u16.write e.port

def deserialize : Reader Endpoint := do
  let address ← u128.read
  let port ← u16.read
  return ⟨address, port⟩

end Endpoint

/-- `telemetry_data`. The timestamp is a time point of `system_clock`: nanoseconds, signed. -/
@[ext] structure TelemetryData where
  signature : Signature := 0
  nodeId : Account := 0
  blockCount : BitVec 64 := 0
  cementedCount : BitVec 64 := 0
  uncheckedCount : BitVec 64 := 0
  accountCount : BitVec 64 := 0
  bandwidthCap : BitVec 64 := 0
  uptime : BitVec 64 := 0
  peerCount : BitVec 32 := 0
  protocolVersion : BitVec 8 := 0
  genesisBlock : BlockHash := 0
  majorVersion : BitVec 8 := 0
  minorVersion : BitVec 8 := 0
  patchVersion : BitVec 8 := 0
  preReleaseVersion : BitVec 8 := 0
  maker : BitVec 8 := 0
  timestamp : BitVec 64 := 0
  activeDifficulty : BitVec 64 := 0
  deriving DecidableEq

namespace TelemetryData

variable (data : TelemetryData)

/-- What the signature covers. The timestamp is cut to milliseconds. -/
def serializeWithoutSignature : Bytes :=
  u256.write data.nodeId ++ u64Big.write data.blockCount ++ u64Big.write data.cementedCount ++
    u64Big.write data.uncheckedCount ++ u64Big.write data.accountCount ++
    u64Big.write data.bandwidthCap ++ u32Big.write data.peerCount ++
    u8.write data.protocolVersion ++ u64Big.write data.uptime ++ u256.write data.genesisBlock ++
    u8.write data.majorVersion ++ u8.write data.minorVersion ++ u8.write data.patchVersion ++
    u8.write data.preReleaseVersion ++ u8.write data.maker ++
    u64Big.write (data.timestamp.sdiv 1000000) ++ u64Big.write data.activeDifficulty

def serialize : Bytes := u512.write data.signature ++ data.serializeWithoutSignature

def deserialize : Reader TelemetryData := do
  let signature ← u512.read
  let nodeId ← u256.read
  let blockCount ← u64Big.read
  let cementedCount ← u64Big.read
  let uncheckedCount ← u64Big.read
  let accountCount ← u64Big.read
  let bandwidthCap ← u64Big.read
  let peerCount ← u32Big.read
  let protocolVersion ← u8.read
  let uptime ← u64Big.read
  let genesisBlock ← u256.read
  let majorVersion ← u8.read
  let minorVersion ← u8.read
  let patchVersion ← u8.read
  let preReleaseVersion ← u8.read
  let maker ← u8.read
  let milliseconds ← u64Big.read
  let activeDifficulty ← u64Big.read
  return {
    signature, nodeId, blockCount, cementedCount, uncheckedCount, accountCount, bandwidthCap
    uptime, peerCount, protocolVersion, genesisBlock, majorVersion, minorVersion, patchVersion
    preReleaseVersion, maker, activeDifficulty, timestamp := milliseconds * 1000000 }

end TelemetryData

theorem natAbs_tdiv_million (timestamp : BitVec 64) :
    (timestamp.toInt.tdiv 1000000).natAbs * 1000000 ≤ 2 ^ 63 := by
  have hlo := timestamp.le_toInt
  have hhi := timestamp.toInt_lt
  have hdiv : (timestamp.toInt.tdiv 1000000).natAbs = timestamp.toInt.natAbs / 1000000 :=
    Int.natAbs_tdiv _ _
  omega

theorem toInt_sdiv_million (timestamp : BitVec 64) :
    (timestamp.sdiv 1000000).toInt = timestamp.toInt.tdiv 1000000 := by
  have hle := natAbs_tdiv_million timestamp
  rw [BitVec.toInt_sdiv, show (1000000 : BitVec 64).toInt = 1000000 by decide]
  exact Int.bmod_eq_of_le (by omega) (by omega)

namespace Vote

variable (digest : Bytes → BlockHash) (type : Nat)

/-- `vote::serialize` with a block type. -/
def serializeBlock : VoteBlock → Bytes
  | .hash h => u256.write h
  | .block b => if type = notABlock then u256.write (digest b.hashables.hashBytes) else b.serialize

def serialize (v : Vote) : Bytes :=
  u256.write v.account ++ u512.write v.signature ++ u64.write v.sequence ++
    v.blocks.flatMap (serializeBlock digest type)

def deserializeBlock : Reader VoteBlock :=
  if type = notABlock then VoteBlock.hash <$> u256.read
  else VoteBlock.block <$> Futurehead.deserializeBlock type

/-- The constructor that reads a vote with blocks of one type. -/
def deserialize : Reader Vote := do
  let account ← u256.read
  let signature ← u512.read
  let sequence ← u64.read
  let blocks ← readAll (deserializeBlock type)
  if blocks = [] then failure
  return ⟨account, signature, sequence, blocks⟩

end Vote

/-! ## Messages -/

inductive Payload where
  | keepalive (peers : List.Vector Endpoint 8)
  | publish (block : Block)
  | confirmReq (block : Option Block) (rootsHashes : List (BlockHash × Root))
  | confirmAck (vote : Vote)
  | bulkPull (start : Uint256) (last : BlockHash) (count : BitVec 32)
  | bulkPush
  | frontierReq (start : Account) (age count : BitVec 32)
  | nodeIdHandshake (query : Option Uint256) (response : Option (Account × Signature))
  | bulkPullAccount (account : Account) (minimumAmount : Amount) (flags : BitVec 8)
  | telemetryReq
  | telemetryAck (data : TelemetryData)
  deriving DecidableEq

structure Message where
  header : MessageHeader
  payload : Payload
  deriving DecidableEq

namespace Message

/-- The pair of a hash and a root in a `confirm_req`. -/
def writePair (pair : BlockHash × Root) : Bytes := u256.write pair.1 ++ u256.write pair.2

def readPair : Reader (BlockHash × Root) := do
  let hash ← u256.read
  let root ← u256.read
  return (hash, root)

/-- The extended parameters of a `bulk_pull`: eight bytes, with the count in the second to fifth. -/
def writeCount (count : BitVec 32) : Bytes := u8.write 0 ++ u32.write count ++ [0, 0, 0]

def readCount : Reader (BitVec 32) := do
  let front ← u8.read
  let count ← u32.read
  let _ ← readMany u8.read 3
  if front ≠ 0 then failure
  return count

/-- `serialize` of each message, without the header. Nothing for a null pointer. -/
def serializePayload (digest : Bytes → BlockHash) (m : Message) : Option Bytes :=
  match m.payload with
  | .keepalive peers => some (peers.toList.flatMap Endpoint.serialize)
  | .publish block => some block.serialize
  | .confirmReq block rootsHashes =>
    if m.header.blockType = notABlock then some (rootsHashes.flatMap writePair)
    else block.map Block.serialize
  | .confirmAck vote => some (vote.serialize digest m.header.blockType)
  | .bulkPull start last count =>
    some (u256.write start ++ u256.write last ++
      if m.header.extensions.getLsbD 0 then writeCount count else [])
  | .bulkPush | .telemetryReq => some []
  | .frontierReq start age count => some (u256.write start ++ u32.write age ++ u32.write count)
  | .nodeIdHandshake query response =>
    some ((query.map u256.write).getD [] ++
      (response.map fun (account, signature) => u256.write account ++ u512.write signature).getD [])
  | .bulkPullAccount account minimumAmount flags =>
    some (u256.write account ++ u128.write minimumAmount ++ u8.write flags)
  | .telemetryAck data => some (if m.header.telemetrySize = 0 then [] else data.serialize)

def toBytes (protocol : Protocol) (digest : Bytes → BlockHash) (useEpoch2MinVersion : Bool)
    (m : Message) : Option Bytes :=
  (m.serializePayload digest).map (m.header.serialize protocol useEpoch2MinVersion ++ ·)

end Message

/-- What the uniquers answer while one message is read. -/
structure Uniquing where
  block : Block → Block
  vote : Vote → Vote

def Uniquing.null : Uniquing := ⟨id, id⟩

namespace MessageHeader

variable (uniquing : Uniquing) (header : MessageHeader)

def readKeepalive : Reader Payload := Payload.keepalive <$> readMany Endpoint.deserialize 8

def readPublish : Reader Payload := do
  let block ← deserializeBlock header.blockType
  return .publish (uniquing.block block)

/-- Pairs of zeros are dropped, and then the count is not met. -/
def nonzeroPairs (count : Nat) (pairs : List (BlockHash × Root)) :
    Option (List (BlockHash × Root)) :=
  let rootsHashes := pairs.filter fun pair => pair.1 ≠ 0 || pair.2 ≠ 0
  if rootsHashes = [] ∨ rootsHashes.length ≠ count then none else some rootsHashes

def readConfirmReq : Reader Payload :=
  if header.blockType = notABlock then do
    let pairs ← readMany Message.readPair header.countGet
    let rootsHashes ← StateT.lift (nonzeroPairs header.countGet pairs.toList)
    return .confirmReq none rootsHashes
  else do
    let block ← deserializeBlock header.blockType
    return .confirmReq (some (uniquing.block block)) []

def readConfirmAck : Reader Payload := do
  let vote ← Vote.deserialize header.blockType
  return .confirmAck (uniquing.vote vote)

def readBulkPull : Reader Payload := do
  let start ← u256.read
  let last ← u256.read
  let count ← if header.extensions.getLsbD 0 then Message.readCount else pure 0
  return .bulkPull start last count

def readFrontierReq : Reader Payload := do
  let start ← u256.read
  let age ← u32.read
  let count ← u32.read
  return .frontierReq start age count

def readNodeIdHandshake : Reader Payload := do
  let query ← if header.nodeIdHandshakeIsQuery then some <$> u256.read else pure none
  let response ←
    if header.nodeIdHandshakeIsResponse then do
      let account ← u256.read
      let signature ← u512.read
      pure (some (account, signature))
    else pure none
  return .nodeIdHandshake query response

def readBulkPullAccount : Reader Payload := do
  let account ← u256.read
  let minimumAmount ← u128.read
  let flags ← u8.read
  return .bulkPullAccount account minimumAmount flags

def readTelemetryAck : Reader Payload :=
  if header.telemetrySize = 0 then pure (.telemetryAck { })
  else Payload.telemetryAck <$> TelemetryData.deserialize

/-- `deserialize` of each message. -/
def readAs : MessageType → Reader Payload
  | .keepalive => readKeepalive
  | .publish => readPublish uniquing header
  | .confirmReq => readConfirmReq uniquing header
  | .confirmAck => readConfirmAck uniquing header
  | .bulkPull => readBulkPull header
  | .bulkPush => pure .bulkPush
  | .frontierReq => readFrontierReq
  | .nodeIdHandshake => readNodeIdHandshake header
  | .bulkPullAccount => readBulkPullAccount
  | .telemetryReq => pure .telemetryReq
  | .telemetryAck => readTelemetryAck header

/-- The type in the header says which message is read. -/
def readPayload : Reader Payload :=
  match MessageType.ofCode header.type with
  | some type => readAs uniquing header type
  | none => failure

end MessageHeader

/-! ## Constructors -/

namespace Message

variable (protocol : Protocol)

def keepalive (peers : List.Vector Endpoint 8) : Message := ⟨.new protocol .keepalive, .keepalive peers⟩

def publish (block : Block) : Message :=
  ⟨(MessageHeader.new protocol .publish).blockTypeSet block.hashables.type.code, .publish block⟩

def confirmReqBlock (block : Block) : Message :=
  ⟨(MessageHeader.new protocol .confirmReq).blockTypeSet block.hashables.type.code,
    .confirmReq (some block) []⟩

def confirmReqHashes (rootsHashes : List (BlockHash × Root)) : Message :=
  ⟨((MessageHeader.new protocol .confirmReq).blockTypeSet notABlock).countSet rootsHashes.length,
    .confirmReq none rootsHashes⟩

/-- The first block of the vote decides the type. -/
def confirmAck (vote : Vote) : Message :=
  let header := MessageHeader.new protocol .confirmAck
  ⟨match vote.blocks with
    | .block b :: _ => header.blockTypeSet b.hashables.type.code
    | blocks => (header.blockTypeSet notABlock).countSet blocks.length,
    .confirmAck vote⟩

/-- A new `bulk_pull` after `set_count_present`. -/
def bulkPull (start : Uint256) (last : BlockHash) (count : Option (BitVec 32)) : Message :=
  let header := MessageHeader.new protocol .bulkPull
  ⟨if count.isSome then header.flagSet 0 else header, .bulkPull start last (count.getD 0)⟩

def bulkPush : Message := ⟨.new protocol .bulkPush, .bulkPush⟩

def frontierReq (start : Account) (age count : BitVec 32) : Message :=
  ⟨.new protocol .frontierReq, .frontierReq start age count⟩

def nodeIdHandshake (query : Option Uint256) (response : Option (Account × Signature)) : Message :=
  let header := MessageHeader.new protocol .nodeIdHandshake
  let header := if query.isSome then header.flagSet 0 else header
  ⟨if response.isSome then header.flagSet 1 else header, .nodeIdHandshake query response⟩

def bulkPullAccount (account : Account) (minimumAmount : Amount) (flags : BitVec 8) : Message :=
  ⟨.new protocol .bulkPullAccount, .bulkPullAccount account minimumAmount flags⟩

def telemetryReq : Message := ⟨.new protocol .telemetryReq, .telemetryReq⟩

/-- The default constructor, which has no payload. -/
def telemetryAckEmpty : Message := ⟨.new protocol .telemetryAck, .telemetryAck { }⟩

def telemetryAck (data : TelemetryData) : Message :=
  let header := MessageHeader.new protocol .telemetryAck
  ⟨{ header with
      extensions := (header.extensions &&& ~~~0x07ff#16) ||| BitVec.ofNat 16 telemetryDataSize },
    .telemetryAck data⟩

/-- The messages that the constructors build, within the sizes that they assert. -/
inductive Constructible : Message → Prop
  | keepalive peers : Constructible (keepalive protocol peers)
  | publish block : Constructible (publish protocol block)
  | confirmReqBlock block : Constructible (confirmReqBlock protocol block)
  | confirmReqHashes rootsHashes : 1 ≤ rootsHashes.length → rootsHashes.length ≤ 15 →
    Constructible (confirmReqHashes protocol rootsHashes)
  | confirmAckBlock account signature sequence block :
    Constructible (confirmAck protocol ⟨account, signature, sequence, [.block block]⟩)
  | confirmAckHashes account signature sequence (hashes : List BlockHash) :
    1 ≤ hashes.length → hashes.length ≤ 12 →
    Constructible (confirmAck protocol ⟨account, signature, sequence, hashes.map .hash⟩)
  | bulkPull start last count : Constructible (bulkPull protocol start last count)
  | bulkPush : Constructible (bulkPush protocol)
  | frontierReq start age count : Constructible (frontierReq protocol start age count)
  | nodeIdHandshake query response : Constructible (nodeIdHandshake protocol query response)
  | bulkPullAccount account minimumAmount flags :
    Constructible (bulkPullAccount protocol account minimumAmount flags)
  | telemetryReq : Constructible (telemetryReq protocol)
  | telemetryAckEmpty : Constructible (telemetryAckEmpty protocol)
  | telemetryAck data : Constructible (telemetryAck protocol data)

end Message

namespace Sample

def protocol : Protocol where
  headerMagicNumber := 0x4352
  protocolVersion := 0x12
  protocolVersionMin := fun useEpoch2MinVersion => if useEpoch2MinVersion then 0x12 else 0x11

end Sample

end Futurehead
