import Futurehead.Store

/-!
# Ledger queries (`futurehead/secure/ledger`, `representative_visitor`)

The read-only functions of `futurehead::ledger` that processing, rollback and cementing call, and
`change_latest`, the one place that creates and deletes accounts. `restart` is the constructor,
which rebuilds the cache from the tables.
-/

namespace Futurehead

namespace Ledger

variable (p : Params) (l : Ledger)

def balance (hash : BlockHash) : Option Amount := if hash = 0 then some 0 else l.blockBalance hash

def account (hash : BlockHash) : Option Account := l.blockAccount hash

/-- `ledger::amount` of a block: the decrease or increase of the balance. -/
def amount (hash : BlockHash) : Option Amount := do
  let b ← l.blockGet hash
  let blockBalance ← l.balance hash
  let previousBalance ← l.balance b.block.hashables.previous
  if blockBalance > previousBalance then some (blockBalance - previousBalance)
  else some (previousBalance - blockBalance)

/-- `ledger::latest`: zero if the account has no block. -/
def latest (account : Account) : BlockHash := ((l.accountGet account).map (·.head)).getD 0

/-- The loop of `representative_visitor::compute`. -/
def representativeLoop : Nat → BlockHash → Option BlockHash
  | 0, _ => none
  | fuel + 1, current => do
    let b ← l.blockGet current
    match b.block.hashables with
    | .sendBlock previous _ _ => representativeLoop fuel previous
    | .receiveBlock previous _ => representativeLoop fuel previous
    | _ => some (p.hash b.block)

/-- `ledger::representative`: the nearest block at or below the hash that sets a representative.
A walk longer than the number of stored blocks has come back to a block, so it never ends. -/
def representative (hash : BlockHash) : Option BlockHash :=
  l.representativeLoop p (l.blocks.keys.card + 1) hash

/-- `ledger::is_send` of a stored state block: the sideband says it. -/
def isSend (b : StoredBlock) : Bool := b.sideband.details.isSend

/-- `ledger::dependent_blocks` of a stored block (`dependent_block_visitor`). -/
def dependentBlocks (b : StoredBlock) : BlockHash × BlockHash :=
  match b.block.hashables with
  | .sendBlock previous _ _ => (previous, 0)
  | .receiveBlock previous source => (previous, source)
  | .openBlock source _ _ => if source ≠ p.genesisAccount then (source, 0) else (0, 0)
  | .changeBlock previous _ => (previous, 0)
  | .stateBlock _ previous _ _ link =>
    if p.isEpochLink link || isSend b then (previous, 0) else (previous, link)

def blockConfirmed (hash : BlockHash) : Option Bool := do
  let height ← l.blockAccountHeight hash
  if 0 < height then
    let account ← l.account hash
    let info ← l.confirmationHeightGet account
    some (decide (height ≤ info.height))
  else some false

def changeLatest (account : Account) (old new : AccountInfo) : Option Ledger :=
  if new.head ≠ 0 then do
    let l :=
      if old.head = 0 ∧ new.openBlock = new.head then
        let l := l.confirmationHeightPut account ⟨0, 0⟩
        { l with accountCount := l.accountCount + 1 }
      else l
    let l ← if old.head ≠ 0 ∧ old.epoch ≠ new.epoch then l.accountDel account else some l
    some (l.accountPut account new)
  else do
    let l ← l.confirmationHeightDel account
    let l ← l.accountDel account
    some { l with accountCount := l.accountCount - 1 }

/-- The loop over the account table in `ledger::ledger`. -/
def cacheAccounts (infos : List AccountInfo) : Ledger :=
  infos.foldl (fun l info => { l.representationAdd info.representative info.balance with
    accountCount := l.accountCount + 1
    epoch2Started := l.epoch2Started || info.epoch == .epoch2 }) l

/-- `ledger::ledger` on an existing store, with every part of the cache. The arguments are the
values of the account and of the confirmation height table in the order of the store. -/
def restart (infos : List AccountInfo) (heights : List ConfirmationHeightInfo) : Ledger :=
  let l := { l with
    repAmounts := ∅, accountCount := 0, epoch2Started := false, cementedCount := 0, blockCount := 0 }
  let l := l.cacheAccounts infos
  let cementedCount := heights.foldl (fun count info => count + info.height) l.cementedCount
  { l with cementedCount := cementedCount, blockCount := l.blocks.keys.card }

end Ledger

end Futurehead
