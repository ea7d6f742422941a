import Futurehead.Wire.Message

/-!
# The message parser (`message_parser` of `futurehead/node/common`)

`deserialize_buffer` gets one datagram. It ends with a status, and calls the visitor for a message
that it accepts.
-/

namespace Futurehead

inductive ParseStatus where
  | success
  | insufficientWork
  | invalidHeader
  | invalidMessageType
  | invalidKeepaliveMessage
  | invalidPublishMessage
  | invalidConfirmReqMessage
  | invalidConfirmAckMessage
  | invalidNodeIdHandshakeMessage
  | invalidTelemetryReqMessage
  | invalidTelemetryAckMessage
  | outdatedVersion
  | invalidMagic
  | invalidNetwork
  | duplicatePublishMessage
  deriving DecidableEq

/-- The status of the parser after a datagram, and the calls of the visitor. -/
structure Parsed where
  status : ParseStatus := .success
  visits : List Message := []
  deriving DecidableEq

namespace Parsed

def visit (m : Message) : Parsed := { visits := [m] }

def reject (status : ParseStatus) : Parsed := { status }

/-- Exactly one visit if the status is `success`, and otherwise none. -/
def Settled (parsed : Parsed) : Prop :=
  (parsed.status = .success ↔ parsed.visits.length = 1) ∧
    (parsed.status ≠ .success → parsed.visits = [])

instance (parsed : Parsed) : Decidable parsed.Settled := inferInstanceAs (Decidable (_ ∧ _))

theorem settled_visit (m : Message) : (visit m).Settled := by
  simp [Settled, visit]

theorem settled_reject {status : ParseStatus} (h : status ≠ .success) :
    (reject status).Settled := by
  simp [Settled, reject, h]

end Parsed

/-- The blocks of a message whose work is checked. -/
def Payload.blocks : Payload → List Block
  | .publish block => [block]
  | .confirmReq block _ => block.toList
  | .confirmAck vote => vote.blocks.filterMap fun
    | .block b => some b
    | .hash _ => none
  | _ => []

/-- `message_parser`, with what its collaborators answer while it reads one datagram. -/
structure MessageParser where
  protocol : Protocol
  useEpoch2MinVersion : Bool
  /-- `publish_filter.apply`: true for a message that was seen before. -/
  publishFilterApply : Bytes → Bool
  uniquing : Uniquing
  /-- `work_validate_entry`: true if the work does not reach the threshold. -/
  workValidateEntry : Block → Bool

namespace MessageParser

open Parsed

variable (parser : MessageParser) (header : MessageHeader) (stream : Bytes)

def maxSafeUdpMessageSize : Nat := 508

/-- A message that ends with the stream is visited, if each block in it has enough work. -/
def deserializeExactly (invalid : ParseStatus) (read : Reader Payload) : Parsed :=
  match read stream with
  | some (payload, []) =>
    if payload.blocks.any parser.workValidateEntry then reject .insufficientWork
    else visit ⟨header, payload⟩
  | _ => reject invalid

def deserializeKeepalive : Parsed :=
  parser.deserializeExactly header stream .invalidKeepaliveMessage MessageHeader.readKeepalive

def deserializePublish : Parsed :=
  parser.deserializeExactly header stream .invalidPublishMessage
    (header.readPublish parser.uniquing)

def deserializeConfirmReq : Parsed :=
  parser.deserializeExactly header stream .invalidConfirmReqMessage
    (header.readConfirmReq parser.uniquing)

def deserializeConfirmAck : Parsed :=
  parser.deserializeExactly header stream .invalidConfirmAckMessage
    (header.readConfirmAck parser.uniquing)

def deserializeNodeIdHandshake : Parsed :=
  parser.deserializeExactly header stream .invalidNodeIdHandshakeMessage header.readNodeIdHandshake

def deserializeTelemetryReq : Parsed :=
  parser.deserializeExactly header stream .invalidTelemetryReqMessage (pure .telemetryReq)

/-- What follows the telemetry data is not looked at. -/
def deserializeTelemetryAck : Parsed :=
  match header.readTelemetryAck stream with
  | some (payload, _) => visit ⟨header, payload⟩
  | none => reject .invalidTelemetryAckMessage

/-- The switch on the type, after the version has been checked. -/
def dispatch : Parsed :=
  if header.versionUsing < parser.protocol.protocolVersionMin parser.useEpoch2MinVersion then
    reject .outdatedVersion
  else match MessageType.ofCode header.type with
    | some .keepalive => parser.deserializeKeepalive header stream
    | some .publish =>
      if parser.publishFilterApply stream then reject .duplicatePublishMessage
      else parser.deserializePublish header stream
    | some .confirmReq => parser.deserializeConfirmReq header stream
    | some .confirmAck => parser.deserializeConfirmAck header stream
    | some .nodeIdHandshake => parser.deserializeNodeIdHandshake header stream
    | some .telemetryReq => parser.deserializeTelemetryReq header stream
    | some .telemetryAck => deserializeTelemetryAck header stream
    | _ => reject .invalidMessageType

/-- `deserialize_buffer`. The status is `success` before anything is read. -/
def deserializeBuffer (buffer : Bytes) : Parsed :=
  if buffer.length ≤ maxSafeUdpMessageSize then
    match MessageHeader.deserialize parser.protocol buffer with
    | some (header, stream) => parser.dispatch header stream
    | none => reject .invalidHeader
  else { }

/-! ## Outcome -/

theorem deserializeExactly_settled {invalid : ParseStatus} (h : invalid ≠ .success)
    (read : Reader Payload) : (parser.deserializeExactly header stream invalid read).Settled := by
  unfold deserializeExactly
  split
  · split
    · exact settled_reject (by decide)
    · exact settled_visit _
  · exact settled_reject h

theorem dispatch_settled : (parser.dispatch header stream).Settled := by
  unfold dispatch
  split
  · exact settled_reject (by decide)
  cases MessageType.ofCode header.type with
  | none => exact settled_reject (by decide)
  | some type =>
    cases type with
    | publish =>
      dsimp only
      split
      · exact settled_reject (by decide)
      · exact deserializeExactly_settled parser header stream (by decide) _
    | telemetryAck =>
      dsimp only [deserializeTelemetryAck]
      split
      · exact settled_visit _
      · exact settled_reject (by decide)
    | bulkPull | bulkPush | frontierReq | bulkPullAccount => exact settled_reject (by decide)
    | _ => exact deserializeExactly_settled parser header stream (by decide) _

/-- A datagram that is too long is not looked at, but the status says `success`. -/
theorem deserializeBuffer_settled_iff (buffer : Bytes) :
    (parser.deserializeBuffer buffer).Settled ↔ buffer.length ≤ maxSafeUdpMessageSize := by
  unfold deserializeBuffer
  by_cases h : buffer.length ≤ maxSafeUdpMessageSize
  · rw [if_pos h]
    refine ⟨fun _ => h, fun _ => ?_⟩
    split
    · exact dispatch_settled parser _ _
    · exact settled_reject (by decide)
  · rw [if_neg h]
    exact ⟨fun hsettled => absurd hsettled (by decide), fun hle => absurd hle h⟩

end MessageParser

namespace Sample

/-- A parser that has seen no message and finds the work of every block sufficient. -/
def parser : MessageParser where
  protocol := protocol
  useEpoch2MinVersion := true
  publishFilterApply := fun _ => false
  uniquing := .null
  workValidateEntry := fun _ => false

end Sample

/-- 509 bytes, of which the first eight are the header of a telemetry request. -/
theorem deserializeBuffer_unsettled :
    let buffer := (MessageHeader.new Sample.protocol .telemetryReq).serialize Sample.protocol true ++
      List.replicate 501 0
    buffer.length = 509 ∧ (Sample.parser.deserializeBuffer buffer).status = .success ∧
      (Sample.parser.deserializeBuffer buffer).visits = [] := by
  decide +kernel

end Futurehead
