import Mathlib.Data.BitVec

/-!
# Blocks (`futurehead/lib/blocks`, `futurehead/lib/epoch`, `futurehead/lib/numbers`)

The five block types, the words they hash, the accessors that `futurehead::block` declares
virtual, and the sideband that the ledger stores beside a block.
-/

namespace Futurehead

/-- `uint256_union`. -/
abbrev Uint256 := BitVec 256

abbrev Account := Uint256
abbrev BlockHash := Uint256
abbrev Link := Uint256
abbrev Root := Uint256

/-- `uint128_union`, with the unsigned order and the wrapping arithmetic of `uint128_t`. -/
abbrev Amount := BitVec 128

abbrev Signature := BitVec 512

theorem toNat_succ {a : Account} (h : a ≠ BitVec.allOnes 256) : (a + 1).toNat = a.toNat + 1 := by
  have ha : a.toNat ≠ 2 ^ 256 - 1 := by
    intro heq
    exact h (BitVec.eq_of_toNat_eq (by rw [heq, BitVec.toNat_allOnes]))
  have := a.isLt
  rw [BitVec.toNat_add]
  exact Nat.mod_eq_of_lt (by simp; omega)

theorem lt_succ_iff {a b : Account} (h : b ≠ BitVec.allOnes 256) : a < b + 1 ↔ a ≤ b := by
  rw [BitVec.lt_def, BitVec.le_def, toNat_succ h]
  omega

/-! ## Epochs -/

inductive Epoch where
  | invalid
  | unspecified
  | epoch0
  | epoch1
  | epoch2
  deriving DecidableEq, Inhabited

namespace Epoch

/-- The underlying `uint8_t`. -/
def toNat : Epoch → Nat
  | invalid => 0
  | unspecified => 1
  | epoch0 => 2
  | epoch1 => 3
  | epoch2 => 4

/-- `std::max` over the underlying type: the first argument on a tie. -/
def max (a b : Epoch) : Epoch := if a.toNat < b.toNat then b else a

def isSequential (epoch newEpoch : Epoch) : Bool :=
  decide (epoch0.toNat ≤ epoch.toNat) && newEpoch.toNat == epoch.toNat + 1

end Epoch

/-! ## Block contents -/

/-- `futurehead::block_type` without the two values no block has. -/
inductive BlockType where
  | send
  | receive
  | «open»
  | change
  | state
  deriving DecidableEq, Inhabited

/-- The hashed fields of each block type (`send_hashables`, ..., `state_hashables`). -/
inductive Hashables where
  | sendBlock (previous : BlockHash) (destination : Account) (balance : Amount)
  | receiveBlock (previous source : BlockHash)
  | openBlock (source : BlockHash) (representative account : Account)
  | changeBlock (previous : BlockHash) (representative : Account)
  | stateBlock (account : Account) (previous : BlockHash) (representative : Account)
      (balance : Amount) (link : Link)
  deriving DecidableEq

/-- `futurehead::block`: the hashed fields, the signature and the work. -/
structure Block where
  hashables : Hashables
  signature : Signature
  work : BitVec 64
  deriving DecidableEq

/-- One `blake2b_update` of a hashed field. -/
inductive HashInput where
  | u256 (x : Uint256)
  | u128 (x : Amount)
  deriving DecidableEq

namespace Hashables

/-- The fields in the order they are hashed. Only the state block has a preamble, so a receive and
a change block with the same two words hash the same input. -/
def hashInput : Hashables → List HashInput
  | sendBlock previous destination balance => [.u256 previous, .u256 destination, .u128 balance]
  | receiveBlock previous source => [.u256 previous, .u256 source]
  | openBlock source representative account => [.u256 source, .u256 representative, .u256 account]
  | changeBlock previous representative => [.u256 previous, .u256 representative]
  | stateBlock account previous representative balance link =>
    [.u256 6, .u256 account, .u256 previous, .u256 representative, .u128 balance, .u256 link]

def type : Hashables → BlockType
  | sendBlock .. => .send
  | receiveBlock .. => .receive
  | openBlock .. => BlockType.open
  | changeBlock .. => .change
  | stateBlock .. => .state

/-- Zero for open blocks. -/
def previous : Hashables → BlockHash
  | sendBlock previous _ _ => previous
  | receiveBlock previous _ => previous
  | openBlock .. => 0
  | changeBlock previous _ => previous
  | stateBlock _ previous _ _ _ => previous

/-- Source block for open and receive blocks, zero otherwise. -/
def source : Hashables → BlockHash
  | receiveBlock _ source => source
  | openBlock source _ _ => source
  | _ => 0

/-- Link field for state blocks, zero otherwise. -/
def link : Hashables → Link
  | stateBlock _ _ _ _ link => link
  | _ => 0

/-- The account a block names, zero for the types that do not. -/
def account : Hashables → Account
  | openBlock _ _ account => account
  | stateBlock account _ _ _ _ => account
  | _ => 0

def representative : Hashables → Account
  | openBlock _ representative _ => representative
  | changeBlock _ representative => representative
  | stateBlock _ _ representative _ _ => representative
  | _ => 0

/-- Previous block, or the account for a first block. -/
def root : Hashables → Root
  | openBlock _ _ account => account
  | stateBlock account previous _ _ _ => if previous = 0 then account else previous
  | h => h.previous

/-- `valid_predecessor`: a legacy block only follows a legacy block. -/
def validPredecessor (h predecessor : Hashables) : Bool :=
  match h with
  | openBlock .. => false
  | stateBlock .. => true
  | _ => predecessor.type != .state

end Hashables

structure QualifiedRoot where
  previous : BlockHash
  root : Root
  deriving DecidableEq

def Hashables.qualifiedRoot (h : Hashables) : QualifiedRoot := ⟨h.previous, h.root⟩

/-! ## Sideband -/

structure BlockDetails where
  epoch : Epoch := .epoch0
  isSend : Bool := false
  isReceive : Bool := false
  isEpoch : Bool := false
  deriving DecidableEq, Inhabited

/-- `futurehead::block_sideband`. -/
structure Sideband where
  successor : BlockHash := 0
  account : Account := 0
  balance : Amount := 0
  height : Nat := 0
  details : BlockDetails := {}
  deriving DecidableEq, Inhabited

/-- The sideband that `deserialize` reads back from what `serialize` wrote for a block of this
type: a field that is not written has its default, and an open block's height is 1. -/
def Sideband.stored (sideband : Sideband) : BlockType → Sideband
  | .send => { sideband with balance := 0, details := {} }
  | .receive | .change => { sideband with details := {} }
  | BlockType.open => { sideband with account := 0, height := 1, details := {} }
  | .state => { sideband with account := 0, balance := 0 }

/-- An entry of a block table: the block and its sideband. -/
structure StoredBlock where
  block : Block
  sideband : Sideband
  deriving DecidableEq

namespace StoredBlock

/-- `block_account_calculated`: the account the block names, else the sideband's. -/
def account (b : StoredBlock) : Account :=
  if b.block.hashables.account = 0 then b.sideband.account else b.block.hashables.account

/-- `block_balance_calculated`. -/
def balance (b : StoredBlock) : Amount :=
  match b.block.hashables with
  | .sendBlock _ _ balance => balance
  | .stateBlock _ _ _ balance _ => balance
  | _ => b.sideband.balance

/-- `block_version` of a stored block. -/
def version (b : StoredBlock) : Epoch :=
  if b.block.hashables.type = .state then b.sideband.details.epoch else .epoch0

end StoredBlock

end Futurehead
