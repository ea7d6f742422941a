import Futurehead.Base.Table
import Futurehead.Blocks

/-!
# The ledger state and the block store (`futurehead/secure/common`, `futurehead/secure/blockstore_partial`)

`Params` holds what the ledger code takes from outside: the network constants, `blake2b`,
signature checking and the value of a proof of work. `Ledger` holds the tables of the block store
and the ledger's cache; `Ledger.genesis` is the ledger that holds only the genesis block.

A store function that ends in a failed `release_assert`, or that reads through a null block
pointer, has no result (`none`): the node stops and its write transaction is not committed.
`debug_assert` is a no-op, as in a release build. Deleting a missing key fails (the LMDB store).
-/

namespace Futurehead

/-! ## Network parameters -/

/-- `futurehead::epoch_info`, with the epoch it is stored under. -/
structure EpochInfo where
  epoch : Epoch
  signer : Account
  link : Link
  deriving DecidableEq

/-- The bytes `"epoch v1 block"`, zero padded. -/
def epochLinkV1 : Link := 0x65706f636820763120626c6f636b000000000000000000000000000000000000

/-- The bytes `"epoch v2 block"`, zero padded. -/
def epochLinkV2 : Link := 0x65706f636820763220626c6f636b000000000000000000000000000000000000

/-- `network_constants.publish_thresholds`, the thresholds of the ledger. -/
structure WorkThresholds where
  epoch1 : Nat
  epoch2 : Nat
  epoch2Receive : Nat

/-- The network constants and the primitives the ledger calls. -/
structure Params where
  genesisAccount : Account
  /-- Signature and work of the genesis open block; its three fields are the genesis account. -/
  genesisSignature : Signature
  genesisWork : BitVec 64
  epochV2Signer : Account
  publishThresholds : WorkThresholds
  /-- `blake2b` with 32 bytes of output over the hashed fields. -/
  blake2b : List HashInput → BlockHash
  /-- `validate_message`: true when the signature is not valid. -/
  validateMessage : Account → BlockHash → Signature → Bool
  /-- `work_v1::value`. -/
  workValue : Root → BitVec 64 → Nat

namespace Params

variable (p : Params)

def hash (b : Block) : BlockHash := p.blake2b b.hashables.hashInput

/-- `epochs_m`, as `ledger_constants` fills it. -/
def epochs : List EpochInfo :=
  [⟨.epoch1, p.genesisAccount, epochLinkV1⟩, ⟨.epoch2, p.epochV2Signer, epochLinkV2⟩]

def isEpochLink (link : Link) : Bool := p.epochs.any fun e => e.link == link

/-- The entry of an epoch link, if it is one. -/
def epochInfo (link : Link) : Option EpochInfo := p.epochs.find? fun e => e.link == link

def difficulty (b : Block) : Nat := p.workValue b.hashables.root b.work

/-- `work_v1::threshold`; the largest `uint64_t` for an epoch the ledger does not use. -/
def workThreshold (details : BlockDetails) : Nat :=
  match details.epoch with
  | .epoch2 =>
    if details.isReceive || details.isEpoch then p.publishThresholds.epoch2Receive
    else p.publishThresholds.epoch2
  | .epoch1 | .epoch0 => p.publishThresholds.epoch1
  | _ => 2 ^ 64 - 1

/-- `genesis::open`. -/
def genesisBlock : Block where
  hashables := .openBlock p.genesisAccount p.genesisAccount p.genesisAccount
  signature := p.genesisSignature
  work := p.genesisWork

end Params

/-- `ledger_constants::genesis_amount`, the largest `uint128_t`. -/
def genesisAmount : Amount := BitVec.allOnes 128

/-! ## Tables -/

structure AccountInfo where
  head : BlockHash := 0
  representative : Account := 0
  openBlock : BlockHash := 0
  balance : Amount := 0
  blockCount : Nat := 0
  epoch : Epoch := .epoch0
  deriving DecidableEq, Inhabited

structure PendingKey where
  account : Account
  hash : BlockHash
  deriving DecidableEq

structure PendingInfo where
  source : Account
  amount : Amount
  epoch : Epoch
  deriving DecidableEq

structure ConfirmationHeightInfo where
  height : Nat
  frontier : BlockHash
  deriving DecidableEq

/-- The tables of the block store and the ledger's cache. The five block tables are one table
keyed by type and hash. -/
structure Ledger where
  blocks : Table (BlockType × BlockHash) StoredBlock := ∅
  accounts : Table Account AccountInfo := ∅
  pending : Table PendingKey PendingInfo := ∅
  frontiers : Table BlockHash Account := ∅
  confirmationHeight : Table Account ConfirmationHeightInfo := ∅
  repAmounts : Table Account Amount := ∅
  blockCount : Nat := 0
  accountCount : Nat := 0
  cementedCount : Nat := 0
  epoch2Started : Bool := false

namespace Ledger

variable (l : Ledger)

/-! ## Blocks -/

/-- `block_exists` in the table of one type. -/
def blockExistsType (type : BlockType) (hash : BlockHash) : Bool :=
  (l.blocks.lookup (type, hash)).isSome

/-- `block_raw_get`: the first table that has the hash, in the order of the source. -/
def blockRawGet (hash : BlockHash) : Option (BlockType × StoredBlock) :=
  [BlockType.state, .send, .receive, BlockType.open, .change].findSome? fun type =>
    (l.blocks.lookup (type, hash)).map fun b => (type, b)

/-- `block_get`, null if the block is not stored. -/
def blockGet (hash : BlockHash) : Option StoredBlock := (l.blockRawGet hash).map (·.2)

def blockExists (hash : BlockHash) : Bool :=
  l.blockExistsType .state hash || l.blockExistsType .send hash ||
    l.blockExistsType .receive hash || l.blockExistsType BlockType.open hash ||
    l.blockExistsType .change hash

/-- `source_exists`: only state and send blocks can be received. -/
def sourceExists (hash : BlockHash) : Bool :=
  l.blockExistsType .state hash || l.blockExistsType .send hash

/-- The successor field of a stored block (`block_predecessor_set::fill_value`,
`block_successor_clear`). Both write into the bytes of the entry, so a missing one has no result. -/
def blockSuccessorSet (hash successor : BlockHash) : Option Ledger :=
  (l.blockRawGet hash).map fun (type, b) =>
    let sideband := { b.sideband with successor := successor }
    { l with blocks := l.blocks.insert (type, hash) ⟨b.block, sideband⟩ }

def blockSuccessorClear (hash : BlockHash) : Option Ledger := l.blockSuccessorSet hash 0

/-- `block_put`: stores the block and makes it the successor of its previous block
(`block_predecessor_set`). -/
def blockPut (hash : BlockHash) (b : Block) (sideband : Sideband) : Option Ledger :=
  let type := b.hashables.type
  let l := { l with blocks := l.blocks.insert (type, hash) ⟨b, sideband.stored type⟩ }
  match b.hashables with
  | .openBlock .. => some l
  | .stateBlock _ previous _ _ _ =>
    if previous = 0 then some l else l.blockSuccessorSet previous hash
  | h => l.blockSuccessorSet h.previous hash

def blockDel (type : BlockType) (hash : BlockHash) : Option Ledger :=
  if l.blockExistsType type hash then some { l with blocks := l.blocks.erase (type, hash) }
  else none

def blockSuccessor (hash : BlockHash) : BlockHash :=
  ((l.blockGet hash).map (·.sideband.successor)).getD 0

def blockAccount (hash : BlockHash) : Option Account := (l.blockGet hash).map (·.account)

def blockAccountHeight (hash : BlockHash) : Option Nat := (l.blockGet hash).map (·.sideband.height)

def blockBalance (hash : BlockHash) : Option Amount := (l.blockGet hash).map (·.balance)

def blockVersion (hash : BlockHash) : Epoch := ((l.blockGet hash).map (·.version)).getD .epoch0

/-! ## Accounts, pending entries, frontiers and confirmation heights -/

def accountGet (account : Account) : Option AccountInfo := l.accounts.lookup account

def accountPut (account : Account) (info : AccountInfo) : Ledger :=
  { l with accounts := l.accounts.insert account info }

def accountDel (account : Account) : Option Ledger :=
  if account ∈ l.accounts then some { l with accounts := l.accounts.erase account } else none

def pendingGet (key : PendingKey) : Option PendingInfo := l.pending.lookup key

def pendingExists (key : PendingKey) : Bool := decide (key ∈ l.pending)

/-- `pending_any`: the table has an entry for the account. -/
def pendingAny (account : Account) : Bool := decide (∃ key ∈ l.pending.keys, key.account = account)

def pendingPut (key : PendingKey) (info : PendingInfo) : Ledger :=
  { l with pending := l.pending.insert key info }

def pendingDel (key : PendingKey) : Option Ledger :=
  if key ∈ l.pending then some { l with pending := l.pending.erase key } else none

/-- `frontier_get`: zero if the hash is not a frontier. -/
def frontierGet (hash : BlockHash) : Account := (l.frontiers.lookup hash).getD 0

def frontierPut (hash : BlockHash) (account : Account) : Ledger :=
  { l with frontiers := l.frontiers.insert hash account }

def frontierDel (hash : BlockHash) : Option Ledger :=
  if hash ∈ l.frontiers then some { l with frontiers := l.frontiers.erase hash } else none

def confirmationHeightGet (account : Account) : Option ConfirmationHeightInfo :=
  l.confirmationHeight.lookup account

def confirmationHeightPut (account : Account) (info : ConfirmationHeightInfo) : Ledger :=
  { l with confirmationHeight := l.confirmationHeight.insert account info }

def confirmationHeightDel (account : Account) : Option Ledger :=
  if account ∈ l.confirmationHeight then
    some { l with confirmationHeight := l.confirmationHeight.erase account }
  else none

/-! ## Representative weights (`futurehead/lib/rep_weights`) -/

def representationGet (account : Account) : Amount := (l.repAmounts.lookup account).getD 0

def representationPut (account : Account) (representation : Amount) : Ledger :=
  { l with repAmounts := l.repAmounts.insert account representation }

def representationAdd (sourceRep : Account) (amount : Amount) : Ledger :=
  l.representationPut sourceRep (l.representationGet sourceRep + amount)

end Ledger

/-- `block_store_partial::initialize` on an empty store: the genesis account with its open block,
cemented. -/
def Ledger.genesis (p : Params) : Option Ledger := do
  let hash := p.hash p.genesisBlock
  let l ← ({} : Ledger).blockPut hash p.genesisBlock
    { account := p.genesisAccount, balance := genesisAmount, height := 1 }
  let l := { l with blockCount := l.blockCount + 1 }
  let l := l.confirmationHeightPut p.genesisAccount ⟨1, hash⟩
  let l := { l with cementedCount := l.cementedCount + 1 }
  let l := l.accountPut p.genesisAccount
    { head := hash, representative := p.genesisAccount, openBlock := hash,
      balance := genesisAmount, blockCount := 1, epoch := .epoch0 }
  let l := { l with accountCount := l.accountCount + 1 }
  let l := l.representationPut p.genesisAccount genesisAmount
  some (l.frontierPut hash p.genesisAccount)

end Futurehead
