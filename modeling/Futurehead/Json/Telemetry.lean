import Futurehead.Json.Block
import Futurehead.Wire.Message

/-!
# Telemetry as JSON (`telemetry_data::serialize_json`, `telemetry_data::deserialize_json`)

The reader goes through a `jsonconfig`, which keeps the first error that a field raises. A missing
field keeps the value that is there. The id of the node is written with the marker `node`, and read
by the decoder of accounts, which knows no marker but its own.
-/

namespace Futurehead

open Option BitVec

/-! ## Numbers (`boost::lexical_cast`) -/

def splitSign : Text → Bool × Text
  | '-' :: digits => (true, digits)
  | '+' :: digits => (false, digits)
  | digits => (false, digits)

def readDecimal (digits : Text) : Option Nat :=
  if digits ≠ [] ∧ digits.all Char.isDigit then some (Nat.ofDigitChars 10 digits 0) else none

/-- `try_lexical_convert` to an unsigned number. A minus sign negates it. -/
def lexicalUnsigned (width : Nat) (text : Text) : Option (BitVec width) := do
  let (minus, digits) := splitSign text
  let number ← readDecimal digits
  if 2 ^ width ≤ number then none
  else some (if minus then -BitVec.ofNat width number else BitVec.ofNat width number)

/-- The reading of a `uint8_t`, by way of an `int64_t`. -/
def lexicalUint8 (text : Text) : Option (BitVec 8) := do
  let (minus, digits) := splitSign text
  let number ← readDecimal digits
  if 2 ^ 63 ≤ number ∧ ¬ (minus ∧ number = 2 ^ 63) then none
  else if minus ∧ number ≠ 0 ∨ 255 < number then none
  else some (BitVec.ofNat 8 number)

def putUnsigned {width : Nat} (x : BitVec width) : Text := Nat.toDigits 10 x.toNat

def putSigned {width : Nat} (x : BitVec width) : Text :=
  if x.toInt < 0 then '-' :: Nat.toDigits 10 x.toInt.natAbs else Nat.toDigits 10 x.toInt.natAbs

/-! ## The configuration (`jsonconfig`) -/

/-- A computation with the error of a `jsonconfig`. No result means an exception, or a number that
was never assigned. -/
abbrev ConfigM := StateT (Option String) Option

/-- `conditionally_set_error`: the first error remains. -/
def conditionallySetError (message : String) : ConfigM Unit := modify fun error => error.or (some message)

/-- `get_config`. The target keeps its value if there is no such field. -/
def getConfig {α : Type} (convert : Text → Option α) (typeDesc : String) (tree : JsonTree)
    (key : String) (target : α) : ConfigM α :=
  match tree.lookup key with
  | none => pure target
  | some text =>
    match convert text with
    | some x => pure x
    | none => do
      conditionallySetError (key ++ " is not " ++ typeDesc)
      pure target

def getUint64 (tree : JsonTree) (key : String) (target : BitVec 64) : ConfigM (BitVec 64) :=
  getConfig (lexicalUnsigned 64) "a 64-bit unsigned integer" tree key target

def getUint32 (tree : JsonTree) (key : String) (target : BitVec 32) : ConfigM (BitVec 32) :=
  getConfig (lexicalUnsigned 32) "a 32-bit unsigned integer" tree key target

def getUint8 (tree : JsonTree) (key : String) (target : BitVec 8) : ConfigM (BitVec 8) :=
  getConfig lexicalUint8 "an integer between 0 and 255" tree key target

def getString (tree : JsonTree) (key : String) : ConfigM Text :=
  getConfig some "a string" tree key []

/-- A field that is decoded only if there was no error before. -/
def decodeUnlessError {α : Type} (decoded : Reading α) (message : String) (target : α) :
    ConfigM α := do
  if (← get).isSome then pure target
  else
    match decoded with
    | .ok x => pure x
    | .error .error => do
      set (some message)
      pure target
    | .error .exception => failure

/-! ## The code -/

namespace TelemetryData

section

variable (blake2b5 : Account → BitVec 40)

def serializeJson (data : TelemetryData) (ignoreIdentificationMetrics : Bool) : JsonTree :=
  [("block_count", putUnsigned data.blockCount), ("cemented_count", putUnsigned data.cementedCount),
    ("unchecked_count", putUnsigned data.uncheckedCount),
    ("account_count", putUnsigned data.accountCount),
    ("bandwidth_cap", putUnsigned data.bandwidthCap), ("peer_count", putUnsigned data.peerCount),
    ("protocol_version", putUnsigned data.protocolVersion), ("uptime", putUnsigned data.uptime),
    ("genesis_block", encodeHex data.genesisBlock),
    ("major_version", putUnsigned data.majorVersion),
    ("minor_version", putUnsigned data.minorVersion),
    ("patch_version", putUnsigned data.patchVersion),
    ("pre_release_version", putUnsigned data.preReleaseVersion), ("maker", putUnsigned data.maker),
    ("timestamp", putSigned (data.timestamp.sdiv 1000000)),
    ("active_difficulty", toStringHex data.activeDifficulty)] ++
  if ignoreIdentificationMetrics then []
  else [("node_id", toNodeId blake2b5 data.nodeId), ("signature", encodeHexSignature data.signature)]

/-- The last field is read without a look at the error. -/
def readDifficulty (text : Text) (target : BitVec 64) : ConfigM (BitVec 64) :=
  if text = [] ∨ 16 < text.length then pure target
  else
    match extractHex text with
    | some (number, _) => pure number
    | none => failure

/-- The part of `deserialize_json` for the fields that do not identify the node. -/
def deserializeFields (old : TelemetryData) (tree : JsonTree) : ConfigM TelemetryData := do
  let blockCount ← getUint64 tree "block_count" old.blockCount
  let cementedCount ← getUint64 tree "cemented_count" old.cementedCount
  let uncheckedCount ← getUint64 tree "unchecked_count" old.uncheckedCount
  let accountCount ← getUint64 tree "account_count" old.accountCount
  let bandwidthCap ← getUint64 tree "bandwidth_cap" old.bandwidthCap
  let peerCount ← getUint32 tree "peer_count" old.peerCount
  let protocolVersion ← getUint8 tree "protocol_version" old.protocolVersion
  let uptime ← getUint64 tree "uptime" old.uptime
  let genesisBlockL ← getString tree "genesis_block"
  let genesisBlock ← decodeUnlessError (readHex genesisBlockL) "Could not deserialize genesis block"
    old.genesisBlock
  let majorVersion ← getUint8 tree "major_version" old.majorVersion
  let minorVersion ← getUint8 tree "minor_version" old.minorVersion
  let patchVersion ← getUint8 tree "patch_version" old.patchVersion
  let preReleaseVersion ← getUint8 tree "pre_release_version" old.preReleaseVersion
  let maker ← getUint8 tree "maker" old.maker
  let milliseconds ← getUint64 tree "timestamp" 0
  let difficultyL ← getString tree "active_difficulty"
  let activeDifficulty ← readDifficulty difficultyL old.activeDifficulty
  return { old with
    blockCount, cementedCount, uncheckedCount, accountCount, bandwidthCap, uptime, peerCount
    protocolVersion, genesisBlock, majorVersion, minorVersion, patchVersion, preReleaseVersion
    maker, activeDifficulty, timestamp := milliseconds * 1000000 }

/-- `deserialize_json`, on the data that is there before. The state is the error. -/
def deserializeJson (old : TelemetryData) (tree : JsonTree) (ignoreIdentificationMetrics : Bool) :
    ConfigM TelemetryData :=
  if ignoreIdentificationMetrics then old.deserializeFields tree
  else do
    let signatureL ← getString tree "signature"
    let signature ← decodeUnlessError (decodeHexSignature signatureL)
      "Could not deserialize signature" old.signature
    let nodeIdL ← getString tree "node_id"
    let nodeId ← decodeUnlessError (readOption (decodeNodeId blake2b5 nodeIdL))
      "Could not deserialize node id" old.nodeId
    { old with signature, nodeId }.deserializeFields tree

end

end TelemetryData

/-! ## Numbers read back -/

section

variable {width n : Nat}

theorem splitSign_toDigits (n : Nat) : splitSign (Nat.toDigits 10 n) = (false, Nat.toDigits 10 n) := by
  obtain ⟨c, rest, hcons, hc⟩ := (isNumeral_toDigits n).head
  rw [hcons]
  unfold splitSign
  split
  · rename_i h
    cases h
    exact absurd hc (by decide)
  · rename_i h
    cases h
    exact absurd hc (by decide)
  · rfl

theorem readDecimal_toDigits (n : Nat) : readDecimal (Nat.toDigits 10 n) = some n := by
  have hnum := isNumeral_toDigits n
  rw [readDecimal, if_pos ⟨hnum.1, List.all_eq_true.2 hnum.2⟩]
  exact congrArg some (numeralValue_toDigits n)

theorem lexicalUnsigned_putUnsigned (x : BitVec width) :
    lexicalUnsigned width (putUnsigned x) = some x := by
  rw [lexicalUnsigned, putUnsigned, splitSign_toDigits]
  simp [readDecimal_toDigits, x.isLt]

theorem lexicalUint8_putUnsigned (x : BitVec 8) : lexicalUint8 (putUnsigned x) = some x := by
  have hlt := x.isLt
  rw [lexicalUint8, putUnsigned, splitSign_toDigits]
  simp [readDecimal_toDigits]
  omega

theorem lexicalUnsigned_putSigned (x : BitVec width) :
    lexicalUnsigned width (putSigned x) = some x := by
  have habs : x.toInt.natAbs < 2 ^ width := by
    have hlt := x.isLt
    rw [toInt_eq_toNat_cond]
    split <;> omega
  have hx := ofInt_toInt (x := x)
  by_cases hneg : x.toInt < 0
  · have hint : x.toInt = -(x.toInt.natAbs : Int) := by omega
    rw [hint, ofInt_neg, ofInt_natCast] at hx
    rw [putSigned, if_pos hneg]
    simp [lexicalUnsigned, splitSign, readDecimal_toDigits, habs, hx]
  · have hint : x.toInt = (x.toInt.natAbs : Int) := by omega
    rw [hint, ofInt_natCast] at hx
    rw [putSigned, if_neg hneg, lexicalUnsigned, splitSign_toDigits]
    simp [readDecimal_toDigits, habs, hx]

end

/-! ## Fields read back -/

section

variable {α : Type} {convert : Text → Option α} {typeDesc key message : String} {tree : JsonTree}
  {text : Text} {x target : α} {error : Option String}

theorem getConfig_run (hlk : tree.lookup key = some text) (hconvert : convert text = some x) :
    (getConfig convert typeDesc tree key target).run error = some (x, error) := by
  simp only [getConfig, hlk, hconvert]
  rfl

theorem decodeUnlessError_none (decoded : Reading α) (h : decoded = .ok x) :
    (decodeUnlessError decoded message target).run none = some (x, none) := by
  subst h
  rfl

theorem decodeUnlessError_error :
    (decodeUnlessError (.error .error) message target).run none = some (target, some message) := rfl

end

namespace TelemetryData

variable {blake2b5 : Account → BitVec 40} {data old : TelemetryData}

theorem readDifficulty_run (x target : BitVec 64) (error : Option String) :
    (readDifficulty (toStringHex x) target).run error = some (x, error) := by
  have hlen := toStringHex_length x
  have hne : toStringHex x ≠ [] := by
    intro h
    rw [h] at hlen
    cases hlen
  rw [readDifficulty, if_neg (by simp [hne, hlen]), extractHex_toStringHex]
  rfl

/-- The fields that identify no node, as the reader finds them in a tree. -/
structure StoredIn (data : TelemetryData) (tree : JsonTree) : Prop where
  blockCount : tree.lookup "block_count" = some (putUnsigned data.blockCount)
  cementedCount : tree.lookup "cemented_count" = some (putUnsigned data.cementedCount)
  uncheckedCount : tree.lookup "unchecked_count" = some (putUnsigned data.uncheckedCount)
  accountCount : tree.lookup "account_count" = some (putUnsigned data.accountCount)
  bandwidthCap : tree.lookup "bandwidth_cap" = some (putUnsigned data.bandwidthCap)
  peerCount : tree.lookup "peer_count" = some (putUnsigned data.peerCount)
  protocolVersion : tree.lookup "protocol_version" = some (putUnsigned data.protocolVersion)
  uptime : tree.lookup "uptime" = some (putUnsigned data.uptime)
  genesisBlock : tree.lookup "genesis_block" = some (encodeHex data.genesisBlock)
  majorVersion : tree.lookup "major_version" = some (putUnsigned data.majorVersion)
  minorVersion : tree.lookup "minor_version" = some (putUnsigned data.minorVersion)
  patchVersion : tree.lookup "patch_version" = some (putUnsigned data.patchVersion)
  preReleaseVersion : tree.lookup "pre_release_version" = some (putUnsigned data.preReleaseVersion)
  maker : tree.lookup "maker" = some (putUnsigned data.maker)
  timestamp : tree.lookup "timestamp" = some (putSigned (data.timestamp.sdiv 1000000))
  activeDifficulty : tree.lookup "active_difficulty" = some (toStringHex data.activeDifficulty)

theorem storedIn_serializeJson (data : TelemetryData) (ignore : Bool) :
    data.StoredIn (data.serializeJson blake2b5 ignore) := by
  constructor <;> rfl

theorem lookup_identification (data : TelemetryData) :
    (data.serializeJson blake2b5 false).lookup "node_id" = some (toNodeId blake2b5 data.nodeId) ∧
      (data.serializeJson blake2b5 false).lookup "signature" =
        some (encodeHexSignature data.signature) :=
  ⟨rfl, rfl⟩

theorem StoredIn.deserializeFields_run {tree : JsonTree} (h : data.StoredIn tree)
    (old : TelemetryData) (error : Option String) :
    (old.deserializeFields tree).run error =
      some ({ data with
        signature := old.signature
        nodeId := old.nodeId
        genesisBlock := if error.isSome then old.genesisBlock else data.genesisBlock
        timestamp := data.timestamp.sdiv 1000000 * 1000000 }, error) := by
  have hgen : (decodeUnlessError (readHex (encodeHex data.genesisBlock))
      "Could not deserialize genesis block" old.genesisBlock).run error =
        some (if error.isSome then old.genesisBlock else data.genesisBlock, error) := by
    cases error with
    | none => exact decodeUnlessError_none _ (readHex_encodeHex _)
    | some first => rfl
  simp only [deserializeFields, getUint64, getUint32, getUint8, getString, StateT.run_bind,
    StateT.run_pure, bind_eq_bind, pure_def, bind_some,
    getConfig_run h.blockCount (lexicalUnsigned_putUnsigned _),
    getConfig_run h.cementedCount (lexicalUnsigned_putUnsigned _),
    getConfig_run h.uncheckedCount (lexicalUnsigned_putUnsigned _),
    getConfig_run h.accountCount (lexicalUnsigned_putUnsigned _),
    getConfig_run h.bandwidthCap (lexicalUnsigned_putUnsigned _),
    getConfig_run h.peerCount (lexicalUnsigned_putUnsigned _),
    getConfig_run h.protocolVersion (lexicalUint8_putUnsigned _),
    getConfig_run h.uptime (lexicalUnsigned_putUnsigned _), getConfig_run h.genesisBlock rfl, hgen,
    getConfig_run h.majorVersion (lexicalUint8_putUnsigned _),
    getConfig_run h.minorVersion (lexicalUint8_putUnsigned _),
    getConfig_run h.patchVersion (lexicalUint8_putUnsigned _),
    getConfig_run h.preReleaseVersion (lexicalUint8_putUnsigned _),
    getConfig_run h.maker (lexicalUint8_putUnsigned _),
    getConfig_run h.timestamp (lexicalUnsigned_putSigned _),
    getConfig_run h.activeDifficulty rfl, readDifficulty_run]

theorem decodeNodeId_toNodeId (key : Account) :
    decodeNodeId blake2b5 (toNodeId blake2b5 key) = none :=
  decodeAccount_eq_none (by simp [toNodeId])

theorem deserializeJson_identified (data old : TelemetryData) :
    (old.deserializeJson blake2b5 (data.serializeJson blake2b5 false) false).run none =
      some ({ data with
        nodeId := old.nodeId
        genesisBlock := old.genesisBlock
        timestamp := data.timestamp.sdiv 1000000 * 1000000 },
        some "Could not deserialize node id") := by
  have hst := @storedIn_serializeJson blake2b5 data false
  obtain ⟨hnodeId, hsignature⟩ := @lookup_identification blake2b5 data
  generalize data.serializeJson blake2b5 false = tree at hst hnodeId hsignature
  simp only [deserializeJson, getString, Bool.false_eq_true, if_false, StateT.run_bind,
    bind_eq_bind, bind_some, getConfig_run hsignature rfl,
    decodeUnlessError_none _ (decodeHexSignature_encode _), getConfig_run hnodeId rfl,
    decodeNodeId_toNodeId, readOption, decodeUnlessError_error, hst.deserializeFields_run]
  rfl

/-- No id of a node that was written is read back, and the reader reports an error for all telemetry
data that was written with the identifying fields. -/
theorem node_id_unread (blake2b5 : Account → BitVec 40) :
    (∀ key, decodeNodeId blake2b5 (toNodeId blake2b5 key) = none) ∧
    ∀ data old : TelemetryData, ∃ read,
      (old.deserializeJson blake2b5 (data.serializeJson blake2b5 false) false).run none =
        some (read, some "Could not deserialize node id") :=
  ⟨decodeNodeId_toNodeId, fun data old => ⟨_, deserializeJson_identified data old⟩⟩

/-- The key one, and telemetry data of a node with that id. -/
theorem node_id_one_unread :
    decodeNodeId (fun _ => 0) (toNodeId (fun _ => 0) 1) = none ∧
    ((({} : TelemetryData).deserializeJson (fun _ => 0)
      (({ nodeId := 1, blockCount := 7 } : TelemetryData).serializeJson (fun _ => 0) false) false).run
        none).map (·.2) = some (some "Could not deserialize node id") :=
  ⟨decodeNodeId_toNodeId 1, by rw [deserializeJson_identified]; rfl⟩

end TelemetryData

end Futurehead
