import Futurehead.Ledger.Queries

/-!
# Rollback (`rollback_visitor`, `ledger::rollback`)

`ledger::rollback` visits the head of an account until the given block is gone, and the visitor
calls `ledger::rollback` again when it finds a send that has been received. Both loops and the
recursion are bounded by a number of steps (`fuel`): `none` stands for a stopped node as well as
for a run that needs more steps. What a visitor method does once it no longer calls
`ledger::rollback` is in the `undo*` functions.
-/

namespace Futurehead

/-- What a rollback ends with: the error flag, the ledger and the list of visited blocks. -/
abbrev RolledBack := Option (Bool × Ledger × List Block)

namespace Ledger

variable (p : Params) (l : Ledger)

/-- `rollback_visitor::send_block` after its loop. -/
def undoSend (hash previous : BlockHash) (key : PendingKey) (pending : PendingInfo) :
    Option Ledger := do
  let info := (l.accountGet pending.source).getD {}
  let l ← l.pendingDel key
  let l := l.representationAdd info.representative pending.amount
  let balance ← l.balance previous
  let newInfo : AccountInfo :=
    { head := previous, representative := info.representative, openBlock := info.openBlock,
      balance := balance, blockCount := info.blockCount - 1, epoch := .epoch0 }
  let l ← l.changeLatest pending.source info newInfo
  let l ← l.blockDel .send hash
  let l ← l.frontierDel hash
  let l := l.frontierPut previous pending.source
  l.blockSuccessorClear previous

/-- `rollback_visitor::receive_block`. -/
def undoReceive (hash previous source : BlockHash) : Option Ledger := do
  let amount ← l.amount source
  let destinationAccount ← l.account hash
  let sourceAccount ← l.account source
  let info := (l.accountGet destinationAccount).getD {}
  let l := l.representationAdd info.representative (0 - amount)
  let balance ← l.balance previous
  let newInfo : AccountInfo :=
    { head := previous, representative := info.representative, openBlock := info.openBlock,
      balance := balance, blockCount := info.blockCount - 1, epoch := .epoch0 }
  let l ← l.changeLatest destinationAccount info newInfo
  let l ← l.blockDel .receive hash
  let l := l.pendingPut ⟨destinationAccount, source⟩ ⟨sourceAccount, amount, .epoch0⟩
  let l ← l.frontierDel hash
  let l := l.frontierPut previous destinationAccount
  l.blockSuccessorClear previous

/-- `rollback_visitor::open_block`. -/
def undoOpen (hash source : BlockHash) (representative : Account) : Option Ledger := do
  let amount ← l.amount source
  let destinationAccount ← l.account hash
  let sourceAccount ← l.account source
  let l := l.representationAdd representative (0 - amount)
  let l ← l.changeLatest destinationAccount {} {}
  let l ← l.blockDel BlockType.open hash
  let l := l.pendingPut ⟨destinationAccount, source⟩ ⟨sourceAccount, amount, .epoch0⟩
  l.frontierDel hash

/-- `rollback_visitor::change_block`. The account is that of the previous block. -/
def undoChange (hash previous : BlockHash) (representative : Account) : Option Ledger := do
  let repBlock ← l.representative p previous
  let account ← l.account previous
  let info := (l.accountGet account).getD {}
  let balance ← l.balance previous
  let b ← l.blockGet repBlock
  let oldRepresentative := b.block.hashables.representative
  let l := l.representationAdd representative (0 - balance)
  let l := l.representationAdd oldRepresentative balance
  let l ← l.blockDel .change hash
  let newInfo : AccountInfo :=
    { head := previous, representative := oldRepresentative, openBlock := info.openBlock,
      balance := info.balance, blockCount := info.blockCount - 1, epoch := .epoch0 }
  let l ← l.changeLatest account info newInfo
  let l ← l.frontierDel hash
  let l := l.frontierPut previous account
  l.blockSuccessorClear previous

/-- `ledger.representative (previous)`, zero for a first block. -/
def undoStateRepBlock (previous : BlockHash) : Option BlockHash :=
  if previous = 0 then some 0 else l.representative p previous

/-- `rollback_visitor::state_block` up to its loop: moves the weight back and returns the balance
and the representative the account gets back. -/
def undoStateWeight (previous : BlockHash) (representative : Account) (balance : Amount) :
    Option (Ledger × Amount × Account) := do
  let repBlockHash ← l.undoStateRepBlock p previous
  let previousBalance ← l.balance previous
  -- Add in amount delta
  let l := l.representationAdd representative (0 - balance)
  if repBlockHash = 0 then some (l, previousBalance, 0)
  else do
    -- Move existing representation
    let b ← l.blockGet repBlockHash
    let oldRepresentative := b.block.hashables.representative
    some (l.representationAdd oldRepresentative previousBalance, previousBalance, oldRepresentative)

/-- The previous block of a state block that is rolled back is the newest one again. -/
def undoStatePrevious (previous : BlockHash) (account : Account) : Option Ledger :=
  match l.blockGet previous with
  | some prev => do
    let l ← l.blockSuccessorClear previous
    some (if prev.block.hashables.type ≠ .state then l.frontierPut previous account else l)
  | none => some l

/-- `rollback_visitor::state_block` after its pending entry is handled. `info` was read before. -/
def undoStateBlock (hash previous : BlockHash) (account representative : Account)
    (balance : Amount) (info : AccountInfo) : Option Ledger := do
  let newInfo : AccountInfo :=
    { head := previous, representative := representative, openBlock := info.openBlock,
      balance := balance, blockCount := info.blockCount - 1, epoch := l.blockVersion previous }
  let l ← l.changeLatest account info newInfo
  let l ← l.undoStatePrevious previous account
  l.blockDel .state hash

/-- The pending entry that `rollback_visitor::state_block` puts back for a receive. -/
def undoStateReceive (account : Account) (link : Link) (amount : Amount) : Option Ledger := do
  let sourceVersion := l.blockVersion link
  let sourceAccount ← l.account link
  some (l.pendingPut ⟨account, link⟩ ⟨sourceAccount, amount, sourceVersion⟩)

/-- `while (!error && <the entry is missing>) error = rollback (latest (account))`. -/
def awaitPending (rollback : Ledger → BlockHash → List Block → RolledBack) (key : PendingKey) :
    Nat → Ledger → List Block → RolledBack
  | 0, _, _ => none
  | fuel + 1, l, list =>
    if l.pendingExists key then some (false, l, list)
    else do
      let (error, l, list) ← rollback l (l.latest key.account) list
      if error then some (true, l, list) else awaitPending rollback key fuel l list

/-- The pending entry in `rollback_visitor::state_block`: a send waits for its entry and deletes it,
a receive puts it back. The local `error` that the loop sets is not read again. -/
def undoStatePending (rollback : Ledger → BlockHash → List Block → RolledBack) (fuel : Nat)
    (hash : BlockHash) (account : Account) (link : Link) (balance previousBalance : Amount)
    (error : Bool) (list : List Block) : Option (Ledger × List Block) :=
  if balance < previousBalance then
    if error then (l.pendingDel ⟨link, hash⟩).map fun l => (l, list)
    else do
      let (_, l, list) ← awaitPending rollback ⟨link, hash⟩ fuel l list
      let l ← l.pendingDel ⟨link, hash⟩
      some (l, list)
  else if link ≠ 0 ∧ ¬ p.isEpochLink link then
    (l.undoStateReceive account link (balance - previousBalance)).map fun l => (l, list)
  else some (l, list)

/-- `rollback_visitor`: rolls back the head block of an account. The state visitor declares a local
`error`, so a failed rollback of the receiving account is not reported to the caller. -/
def rollbackVisit (rollback : Ledger → BlockHash → List Block → RolledBack) (fuel : Nat)
    (b : Block) (list : List Block) : RolledBack :=
  let hash := p.hash b
  match b.hashables with
  | .sendBlock previous destination _ => do
    let key : PendingKey := ⟨destination, hash⟩
    let (error, l, list) ← awaitPending rollback key fuel l list
    if error then some (true, l, list)
    else do
      let pending ← l.pendingGet key
      let l ← l.undoSend hash previous key pending
      some (false, l, list)
  | .receiveBlock previous source => do
    let l ← l.undoReceive hash previous source
    some (false, l, list)
  | .openBlock source representative _ => do
    let l ← l.undoOpen hash source representative
    some (false, l, list)
  | .changeBlock previous representative => do
    let l ← l.undoChange p hash previous representative
    some (false, l, list)
  | .stateBlock account previous representative balance link => do
    let (l, previousBalance, oldRepresentative) ←
      l.undoStateWeight p previous representative balance
    let error := (l.accountGet account).isNone
    let info := (l.accountGet account).getD {}
    let (l, list) ←
      l.undoStatePending p rollback fuel hash account link balance previousBalance error list
    let l ← l.undoStateBlock hash previous account oldRepresentative previousBalance info
    some (false, l, list)

/-- The loop of `ledger::rollback`. A missing confirmation height, account or head block has no
result: the source reads an uninitialised height or a null pointer there. -/
def rollbackLoop (rollback : Ledger → BlockHash → List Block → RolledBack) (account : Account)
    (height : Nat) (hash : BlockHash) : Nat → Ledger → List Block → RolledBack
  | 0, _, _ => none
  | fuel + 1, l, list =>
    if l.blockExists hash then do
      let confirmation ← l.confirmationHeightGet account
      if confirmation.height < height then do
        let info ← l.accountGet account
        let b ← l.blockGet info.head
        let (error, l, list) ← l.rollbackVisit p rollback fuel b.block (list ++ [b.block])
        if error then some (true, l, list)
        else
          let l := { l with blockCount := l.blockCount - 1 }
          rollbackLoop rollback account height hash fuel l list
      else some (true, l, list)
    else some (false, l, list)

def rollback : Nat → Ledger → BlockHash → List Block → RolledBack
  | 0, _, _, _ => none
  | fuel + 1, l, hash, list => do
    let account ← l.account hash
    let height ← l.blockAccountHeight hash
    rollbackLoop p (rollback fuel) account height hash (fuel + 1) l list

end Ledger

end Futurehead
