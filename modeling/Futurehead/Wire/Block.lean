import Mathlib.Data.Set.Function
import Futurehead.Base.Bytes
import Futurehead.Store

/-!
# Blocks as bytes (`futurehead/lib/blocks`)

What `block::hash` gives to `blake2b`, what `block::serialize` writes, and `deserialize_block`.
-/

namespace Futurehead

/-! ## Fields -/

namespace Wire

def u8 : Format (BitVec 8) := .wordLE 8 1 (by decide)

/-- Integers are written as they are in memory, which is little endian. -/
def u16 : Format (BitVec 16) := .wordLE 16 2 (by decide)

def u32 : Format (BitVec 32) := .wordLE 32 4 (by decide)

def u64 : Format (BitVec 64) := .wordLE 64 8 (by decide)

/-- The integers that go through `native_to_big` and `big_to_native_inplace`. -/
def u32Big : Format (BitVec 32) := .word 32 4 (by decide)

def u64Big : Format (BitVec 64) := .word 64 8 (by decide)

/-- The bytes of the wide unions are in big-endian order. -/
def u128 : Format Amount := .word 128 16 (by decide)

def u256 : Format Uint256 := .word 256 32 (by decide)

def u512 : Format Signature := .word 512 64 (by decide)

end Wire

/-! ## Hashing -/

def HashInput.bytes : HashInput → Bytes
  | .u256 x => Wire.u256.write x
  | .u128 x => Wire.u128.write x

namespace Hashables

variable {h h' : Hashables}

/-- The bytes that `blake2b` gets: one update after the other, with nothing in between. -/
def hashBytes (h : Hashables) : Bytes := h.hashInput.flatMap HashInput.bytes

theorem length_hashBytes (h : Hashables) : h.hashBytes.length =
    match h.type with
    | .send => 80
    | .receive | .change => 64
    | BlockType.open => 96
    | .state => 176 := by
  cases h <;> simp [hashBytes, hashInput, HashInput.bytes, type, Wire.u256, Wire.u128,
    Format.word, length_bytesLE]

theorem hashBytes_eq : h.hashBytes = h'.hashBytes ↔ h.hashInput = h'.hashInput := by
  refine ⟨fun heq => ?_, fun heq => by unfold hashBytes; rw [heq]⟩
  have hlen := congrArg List.length heq
  rw [length_hashBytes, length_hashBytes] at hlen
  cases h <;> cases h' <;> simp [type] at hlen <;>
    simpa [hashBytes, hashInput, HashInput.bytes, Format.write_append_inj, Format.write_inj]
      using heq

/-- A receive block and a change block with the same two words. -/
inductive Twins : Hashables → Hashables → Prop
  | receiveChange (previous : BlockHash) (word : Uint256) :
      Twins (receiveBlock previous word) (changeBlock previous word)
  | changeReceive (previous : BlockHash) (word : Uint256) :
      Twins (changeBlock previous word) (receiveBlock previous word)

theorem hashInput_eq_iff : h.hashInput = h'.hashInput ↔ h = h' ∨ Twins h h' := by
  refine ⟨fun heq => ?_, ?_⟩
  · cases h <;> cases h' <;> simp [hashInput] at heq
    case receiveBlock.changeBlock =>
      obtain ⟨rfl, rfl⟩ := heq
      exact .inr (.receiveChange _ _)
    case changeBlock.receiveBlock =>
      obtain ⟨rfl, rfl⟩ := heq
      exact .inr (.changeReceive _ _)
    all_goals simp [heq]
  · rintro (rfl | hr | hc) <;> rfl

theorem Twins.ne (ht : Twins h h') : h ≠ h' := by
  cases ht <;> simp

end Hashables

/-- Two blocks with the same hash have the same type and the same hashed fields, unless they are
twins. `inputs` is what was hashed, on which `blake2b` has no collisions. -/
theorem block_identity {p : Params} {digest : Bytes → BlockHash}
    (hblake : ∀ input, p.blake2b input = digest (input.flatMap HashInput.bytes))
    {inputs : Set Bytes} (hinj : Set.InjOn digest inputs) {b b' : Block}
    (hb : b.hashables.hashBytes ∈ inputs) (hb' : b'.hashables.hashBytes ∈ inputs) :
    (p.hash b = p.hash b' → b.hashables = b'.hashables) ↔ ¬ b.hashables.Twins b'.hashables := by
  have hhash : p.hash b = p.hash b' ↔ b.hashables.hashInput = b'.hashables.hashInput := by
    unfold Params.hash
    rw [hblake, hblake, ← Hashables.hashBytes_eq]
    exact hinj.eq_iff hb hb'
  rw [hhash, Hashables.hashInput_eq_iff]
  constructor
  · intro h ht
    exact ht.ne (h (.inr ht))
  · rintro hno (heq | ht)
    · exact heq
    · exact absurd ht hno

namespace Sample

/-- A digest that keeps the blocks below apart. -/
def digest (bytes : Bytes) : BlockHash := BitVec.ofNat 256 (natLE bytes % (2 ^ 255 - 19))

def byteParams : Params where
  genesisAccount := 1
  genesisSignature := 0
  genesisWork := 0
  epochV2Signer := 2
  publishThresholds := ⟨0, 0, 0⟩
  blake2b := fun input => digest (input.flatMap HashInput.bytes)
  validateMessage := fun _ _ _ => false
  workValue := fun _ _ => 0

def wordsReceive : Block := ⟨.receiveBlock 11 12, 5, 6⟩

def wordsSend : Block := ⟨.sendBlock 11 12 13, 7, 8⟩

/-- The receive block again, as a change block, with its signature and its work. -/
def wordsChange : Block := ⟨.changeBlock 11 12, 5, 6⟩

end Sample

open Sample

theorem block_identity_send_receive :
    ¬ wordsSend.hashables.Twins wordsReceive.hashables ∧
    (byteParams.hash wordsSend = byteParams.hash wordsReceive →
      wordsSend.hashables = wordsReceive.hashables) := by
  have hinj : Set.InjOn digest
      {wordsSend.hashables.hashBytes, wordsReceive.hashables.hashBytes} :=
    Set.injOn_pair.2 fun h => absurd h (by decide +kernel)
  exact ⟨nofun, (block_identity (fun _ => rfl) hinj (by simp) (by simp)).2 nofun⟩

/-- A change block and a receive block share hash, signature and work. -/
theorem block_identity_fails :
    Set.InjOn digest
      {wordsChange.hashables.hashBytes, wordsReceive.hashables.hashBytes} ∧
    (∀ input, byteParams.blake2b input = digest (input.flatMap HashInput.bytes)) ∧
    byteParams.hash wordsChange = byteParams.hash wordsReceive ∧
    wordsChange.signature = wordsReceive.signature ∧
    wordsChange.work = wordsReceive.work ∧
    wordsChange.hashables.root = wordsReceive.hashables.root ∧
    wordsChange.hashables.type ≠ wordsReceive.hashables.type :=
  ⟨Set.injOn_pair.2 fun _ => rfl, fun _ => rfl, rfl, rfl, rfl, rfl, by decide⟩

/-! ## Serialization -/

def BlockType.code : BlockType → Nat
  | .send => 2
  | .receive => 3
  | BlockType.open => 4
  | .change => 5
  | .state => 6

/-- The type with a number; 0 is `invalid`, 1 is `not_a_block`, and some numbers are unused. -/
def BlockType.ofCode : Nat → Option BlockType
  | 2 => some .send
  | 3 => some .receive
  | 4 => some BlockType.open
  | 5 => some .change
  | 6 => some .state
  | _ => none

def BlockType.size : BlockType → Nat
  | .send => 32 + 32 + 16 + 64 + 8
  | .receive => 32 + 32 + 64 + 8
  | BlockType.open => 32 + 32 + 32 + 64 + 8
  | .change => 32 + 32 + 64 + 8
  | .state => 32 + 32 + 32 + 16 + 32 + 64 + 8

open Wire

/-- `block::serialize`. Only the state block turns its work around. -/
def Block.serialize (b : Block) : Bytes :=
  match b.hashables with
  | .sendBlock previous destination balance =>
    u256.write previous ++ u256.write destination ++ u128.write balance ++
      u512.write b.signature ++ u64.write b.work
  | .receiveBlock previous source =>
    u256.write previous ++ u256.write source ++ u512.write b.signature ++ u64.write b.work
  | .openBlock source representative account =>
    u256.write source ++ u256.write representative ++ u256.write account ++
      u512.write b.signature ++ u64.write b.work
  | .changeBlock previous representative =>
    u256.write previous ++ u256.write representative ++ u512.write b.signature ++ u64.write b.work
  | .stateBlock account previous representative balance link =>
    u256.write account ++ u256.write previous ++ u256.write representative ++
      u128.write balance ++ u256.write link ++ u512.write b.signature ++ u64Big.write b.work

/-- `deserialize` of each block type. -/
def readBlock : BlockType → Reader Block
  | .send => do
    let previous ← u256.read
    let destination ← u256.read
    let balance ← u128.read
    return ⟨.sendBlock previous destination balance, ← u512.read, ← u64.read⟩
  | .receive => do
    let previous ← u256.read
    let source ← u256.read
    return ⟨.receiveBlock previous source, ← u512.read, ← u64.read⟩
  | BlockType.open => do
    let source ← u256.read
    let representative ← u256.read
    let account ← u256.read
    return ⟨.openBlock source representative account, ← u512.read, ← u64.read⟩
  | .change => do
    let previous ← u256.read
    let representative ← u256.read
    return ⟨.changeBlock previous representative, ← u512.read, ← u64.read⟩
  | .state => do
    let account ← u256.read
    let previous ← u256.read
    let representative ← u256.read
    let balance ← u128.read
    let link ← u256.read
    return ⟨.stateBlock account previous representative balance link, ← u512.read, ← u64Big.read⟩

/-- `deserialize_block` for a type number, without uniquer: null for a number that is no type. -/
def deserializeBlock (type : Nat) : Reader Block :=
  match BlockType.ofCode type with
  | some type => readBlock type
  | none => failure

@[simp] theorem BlockType.ofCode_code (type : BlockType) : BlockType.ofCode type.code = some type := by
  cases type <;> rfl

theorem Block.length_serialize (b : Block) : b.serialize.length = b.hashables.type.size := by
  unfold serialize
  cases b.hashables <;> simp [BlockType.size, Hashables.type, u256, u128, u512, u64, u64Big,
    Format.word, Format.wordLE, length_bytesLE]

@[simp] theorem deserializeBlock_serialize (b : Block) (rest : Bytes) :
    deserializeBlock b.hashables.type.code (b.serialize ++ rest) = some (b, rest) := by
  obtain ⟨h, sig, work⟩ := b
  unfold deserializeBlock
  rw [BlockType.ofCode_code]
  cases h <;> simp [Block.serialize, readBlock, Hashables.type, bind, StateT.bind, Reader.pure_apply]

theorem serialize_of_readBlock {type : BlockType} {bytes rest : Bytes} {b : Block}
    (h : readBlock type bytes = some (b, rest)) :
    bytes = b.serialize ++ rest ∧ b.hashables.type = type := by
  have h64 : u64.Exact := Format.wordLE_exact _ le_rfl
  have h64Big : u64Big.Exact := Format.word_exact _ le_rfl
  have h128 : u128.Exact := Format.word_exact _ le_rfl
  have h256 : u256.Exact := Format.word_exact _ le_rfl
  have h512 : u512.Exact := Format.word_exact _ le_rfl
  cases type <;> simp only [readBlock, h64.read_bind, h64Big.read_bind, h128.read_bind,
    h256.read_bind, h512.read_bind, Reader.pure_apply, Option.some.injEq, Prod.mk.injEq] at h
  case send =>
    obtain ⟨prev, _, rfl, dest, _, rfl, bal, _, rfl, sig, _, rfl, work, _, rfl, rfl, rfl⟩ := h
    simp [Block.serialize, Hashables.type]
  case receive =>
    obtain ⟨prev, _, rfl, source, _, rfl, sig, _, rfl, work, _, rfl, rfl, rfl⟩ := h
    simp [Block.serialize, Hashables.type]
  case «open» =>
    obtain ⟨source, _, rfl, rep, _, rfl, acc, _, rfl, sig, _, rfl, work, _, rfl, rfl, rfl⟩ := h
    simp [Block.serialize, Hashables.type]
  case change =>
    obtain ⟨prev, _, rfl, rep, _, rfl, sig, _, rfl, work, _, rfl, rfl, rfl⟩ := h
    simp [Block.serialize, Hashables.type]
  case state =>
    obtain ⟨acc, _, rfl, prev, _, rfl, rep, _, rfl, bal, _, rfl, link, _, rfl,
      sig, _, rfl, work, _, rfl, rfl, rfl⟩ := h
    simp [Block.serialize, Hashables.type]

end Futurehead
