import Futurehead.Ledger.Queries

/-!
# Block processing (`ledger_processor`, `ledger::process`)

One function per visitor method. A check of the source sets `result.code` and goes on only while
it is `progress`; here `require` ends with the code of the first check that fails and with the
ledger unchanged. What an accepted block writes is in the `*Commit` functions, in the order of the
source.
-/

namespace Futurehead

inductive SignatureVerification where
  | unknown
  | invalid
  | valid
  | validEpoch
  deriving DecidableEq, Inhabited

inductive ProcessResult where
  | progress
  | badSignature
  | old
  | negativeSpend
  | fork
  | unreceivable
  | gapPrevious
  | gapSource
  | openedBurnAccount
  | balanceMismatch
  | representativeMismatch
  | blockPosition
  | insufficientWork
  deriving DecidableEq, Inhabited

structure ProcessReturn where
  code : ProcessResult := .progress
  account : Account := 0
  amount : Amount := 0
  pendingAccount : Account := 0
  verified : SignatureVerification
  previousBalance : Amount := 0
  deriving DecidableEq

/-- What a visitor method of `ledger_processor` ends with; `none` if the node stops. -/
abbrev Processed := Option (ProcessReturn × Ledger)

namespace Ledger

variable (p : Params) (l : Ledger)

/-- `result.code = condition ? progress : code`, and `next` if it is `progress`. -/
def require (result : ProcessReturn) (condition : Bool) (code : ProcessResult) (next : Processed) :
    Processed :=
  if condition then next else some ({ result with code := code }, l)

/-! ## State blocks -/

/-- `validate_epoch_block`: true if a block with an epoch link is an epoch block. The result's code
and verification are set when the previous block is missing. -/
def validateEpochBlock (result : ProcessReturn) (b : Block) (account : Account)
    (previous : BlockHash) (balance : Amount) (link : Link) : Option (Bool × ProcessReturn) :=
  if previous = 0 then some (balance == 0, result)
  else if l.blockExists previous then do
    let prevBalance ← l.balance previous
    some (balance == prevBalance, { result with code := .progress })
  else
    let result := { result with code := .gapPrevious }
    if result.verified = .unknown then do
      -- Check for possible regular state blocks with epoch link (send subtype)
      if p.validateMessage account (p.hash b) b.signature then
        let epoch ← p.epochInfo link
        if p.validateMessage epoch.signer (p.hash b) b.signature then
          some (balance == 0, { result with verified := .invalid, code := .badSignature })
        else some (balance == 0, { result with verified := .validEpoch })
      else some (balance == 0, { result with verified := .valid })
    else some (balance == 0, result)

/-- The weight of an account after a state block. `info` is the account before the block. -/
def stateWeight (info : AccountInfo) (representative : Account) (balance : Amount) : Ledger :=
  -- Move existing representation
  let l := if info.head ≠ 0 then l.representationAdd info.representative (0 - info.balance) else l
  -- Add in amount delta
  l.representationAdd representative balance

/-- The pending entry that a state block adds or deletes. -/
def statePending (hash : BlockHash) (account : Account) (link : Link) (amount : Amount)
    (details : BlockDetails) : Option Ledger :=
  if details.isSend then some (l.pendingPut ⟨link, hash⟩ ⟨account, amount, details.epoch⟩)
  else if link ≠ 0 then l.pendingDel ⟨account, link⟩
  else some l

/-- State blocks have no entry in the frontier table; this also prevents legacy blocks from being
inserted on top of them. -/
def stateFrontier (head : BlockHash) : Option Ledger :=
  if l.frontierGet head ≠ 0 then l.frontierDel head else some l

/-- The writes of `state_block_impl`. `info` is the account before the block, or the default. -/
def stateCommit (result : ProcessReturn) (b : Block) (account representative : Account)
    (balance : Amount) (link : Link) (info : AccountInfo) (details : BlockDetails) : Processed := do
  let hash := p.hash b
  let l ← l.blockPut hash b { account := account, height := info.blockCount + 1, details := details }
  let l := l.stateWeight info representative balance
  let l ← l.statePending hash account link result.amount details
  let newInfo : AccountInfo :=
    { head := hash, representative := representative,
      openBlock := if info.openBlock = 0 then hash else info.openBlock,
      balance := balance, blockCount := info.blockCount + 1, epoch := details.epoch }
  let l ← l.changeLatest account info newInfo
  let l ← l.stateFrontier info.head
  some ({ result with account := account }, l)

/-- `state_block_impl` from the work check on. -/
def stateWork (result : ProcessReturn) (b : Block) (account representative : Account)
    (balance : Amount) (link : Link) (info : AccountInfo) (details : BlockDetails) : Processed :=
  l.require result (decide (p.workThreshold details ≤ p.difficulty b)) .insufficientWork <|
  l.stateCommit p result b account representative balance link info details

/-- `state_block_impl` once the position in the chain is checked: a send, a receive or a change of
representative. `result.amount` is the change of the balance. -/
def stateLink (result : ProcessReturn) (b : Block) (account representative : Account)
    (balance : Amount) (link : Link) (info : AccountInfo) (isSend isReceive : Bool) : Processed :=
  if isSend then
    l.stateWork p result b account representative balance link info
      ⟨info.epoch, isSend, isReceive, false⟩
  else if link ≠ 0 then
    l.require result (l.sourceExists link) .gapSource <|
    match l.pendingGet ⟨account, link⟩ with
    | none => some ({ result with code := .unreceivable }, l)
    | some pending =>
      l.require result (result.amount == pending.amount) .balanceMismatch <|
      l.stateWork p result b account representative balance link info
        ⟨info.epoch.max pending.epoch, isSend, isReceive, false⟩
  else
    -- If there's no link, the balance must remain the same, only the representative can change
    l.require result (result.amount == 0) .balanceMismatch <|
    l.stateWork p result b account representative balance link info
      ⟨info.epoch, isSend, isReceive, false⟩

def stateBlockImpl (result : ProcessReturn) (b : Block) (account : Account) (previous : BlockHash)
    (representative : Account) (balance : Amount) (link : Link) : Processed :=
  let hash := p.hash b
  l.require result (!l.blockExistsType .state hash) .old <|
  l.require result (result.verified == .valid || !p.validateMessage account hash b.signature)
    .badSignature <|
  let result := { result with verified := .valid }
  l.require result (account != 0) .openedBurnAccount <|
  match l.accountGet account with
  | some info =>
    -- Account already exists
    let result := { result with previousBalance := info.balance, amount := balance }
    l.require result (previous != 0) .fork <|
    l.require result (l.blockExists previous) .gapPrevious <|
    let isSend := decide (balance < info.balance)
    let isReceive := !isSend && link != 0
    let result := { result with
      amount := if isSend then info.balance - balance else balance - info.balance }
    l.require result (previous == info.head) .fork <|
    l.stateLink p result b account representative balance link info isSend isReceive
  | none =>
    -- Account does not yet exist
    let result := { result with previousBalance := 0, amount := balance }
    l.require result (previous == 0) .gapPrevious <|
    l.require result (link != 0) .gapSource <|
    l.stateLink p result b account representative balance link {} false true

/-- The writes of `epoch_block_impl`. -/
def epochCommit (result : ProcessReturn) (b : Block) (account representative : Account)
    (info : AccountInfo) (epoch : Epoch) : Processed := do
  let hash := p.hash b
  let result := { result with account := account, amount := 0 }
  let l ← l.blockPut hash b
    { account := account, height := info.blockCount + 1, details := ⟨epoch, false, false, true⟩ }
  let newInfo : AccountInfo :=
    { head := hash, representative := representative,
      openBlock := if info.openBlock = 0 then hash else info.openBlock,
      balance := info.balance, blockCount := info.blockCount + 1, epoch := epoch }
  let l ← l.changeLatest account info newInfo
  let l ← l.stateFrontier info.head
  some (result, if epoch = .epoch2 then { l with epoch2Started := true } else l)

/-- `epoch_block_impl` once the account is looked up. -/
def epochUpgrade (result : ProcessReturn) (b : Block) (account representative : Account)
    (balance : Amount) (info : AccountInfo) (epoch : Epoch) (isValidEpochUpgrade : Bool) :
    Processed :=
  l.require result isValidEpochUpgrade .blockPosition <|
  l.require result (balance == info.balance) .balanceMismatch <|
  l.require result (decide (p.workThreshold ⟨epoch, false, false, true⟩ ≤ p.difficulty b))
    .insufficientWork <|
  l.epochCommit p result b account representative info epoch

/-- `epoch_block_impl`. The branch for an account without blocks does not look at `previous`. -/
def epochBlockImpl (result : ProcessReturn) (b : Block) (account : Account) (previous : BlockHash)
    (representative : Account) (balance : Amount) (link : Link) : Processed := do
  let hash := p.hash b
  let epochInfo ← p.epochInfo link
  l.require result (!l.blockExistsType .state hash) .old <|
  l.require result
    (result.verified == .validEpoch || !p.validateMessage epochInfo.signer hash b.signature)
    .badSignature <|
  let result := { result with verified := .validEpoch }
  l.require result (account != 0) .openedBurnAccount <|
  match l.accountGet account with
  | some info =>
    -- Account already exists
    let result := { result with previousBalance := info.balance }
    l.require result (previous != 0) .fork <|
    l.require result (previous == info.head) .fork <|
    l.require result (representative == info.representative) .representativeMismatch <|
    l.epochUpgrade p result b account representative balance info epochInfo.epoch
      (info.epoch.isSequential epochInfo.epoch)
  | none =>
    let result := { result with previousBalance := 0 }
    l.require result (representative == 0) .representativeMismatch <|
    -- Non-existing account should have pending entries
    l.require result (l.pendingAny account) .blockPosition <|
    l.epochUpgrade p result b account representative balance {} epochInfo.epoch
      (decide (0 < epochInfo.epoch.toNat))

def stateBlock (result : ProcessReturn) (b : Block) (account : Account) (previous : BlockHash)
    (representative : Account) (balance : Amount) (link : Link) : Processed := do
  let result := { result with code := .progress }
  if p.isEpochLink link then
    let (isEpochBlock, result) ← l.validateEpochBlock p result b account previous balance link
    if result.code = .progress then
      if isEpochBlock then l.epochBlockImpl p result b account previous representative balance link
      else l.stateBlockImpl p result b account previous representative balance link
    else some (result, l)
  else l.stateBlockImpl p result b account previous representative balance link

/-! ## Legacy blocks -/

/-- The writes of `change_block`. -/
def changeCommit (result : ProcessReturn) (b : Block) (previous : BlockHash)
    (representative account : Account) (info : AccountInfo) : Processed := do
  let hash := p.hash b
  let result := { result with verified := .valid }
  let l ← l.blockPut hash b
    { account := account, balance := info.balance, height := info.blockCount + 1 }
  let balance ← l.balance previous
  let l := l.representationAdd representative balance
  let l := l.representationAdd info.representative (0 - balance)
  let newInfo : AccountInfo :=
    { head := hash, representative := representative, openBlock := info.openBlock,
      balance := info.balance, blockCount := info.blockCount + 1, epoch := .epoch0 }
  let l ← l.changeLatest account info newInfo
  let l ← l.frontierDel previous
  let l := l.frontierPut hash account
  some ({ result with account := account, amount := 0, previousBalance := info.balance }, l)

def changeBlock (result : ProcessReturn) (b : Block) (previous : BlockHash)
    (representative : Account) : Processed :=
  let hash := p.hash b
  l.require result (!l.blockExistsType .change hash) .old <|
  match l.blockGet previous with
  | none => some ({ result with code := .gapPrevious }, l)
  | some prev =>
    l.require result (b.hashables.validPredecessor prev.block.hashables) .blockPosition <|
    let account := l.frontierGet previous
    l.require result (account != 0) .fork <|
    let info := (l.accountGet account).getD {}
    l.require result (result.verified == .valid || !p.validateMessage account hash b.signature)
      .badSignature <|
    l.require result (decide (p.workThreshold {} ≤ p.difficulty b)) .insufficientWork <|
    l.changeCommit p result b previous representative account info

/-- The writes of `send_block`. -/
def sendCommit (result : ProcessReturn) (b : Block) (previous : BlockHash) (destination : Account)
    (balance : Amount) (account : Account) (info : AccountInfo) : Processed := do
  let hash := p.hash b
  let amount := info.balance - balance
  let l := l.representationAdd info.representative (0 - amount)
  let l ← l.blockPut hash b
    { account := account, balance := balance, height := info.blockCount + 1 }
  let newInfo : AccountInfo :=
    { head := hash, representative := info.representative, openBlock := info.openBlock,
      balance := balance, blockCount := info.blockCount + 1, epoch := .epoch0 }
  let l ← l.changeLatest account info newInfo
  let l := l.pendingPut ⟨destination, hash⟩ ⟨account, amount, .epoch0⟩
  let l ← l.frontierDel previous
  let l := l.frontierPut hash account
  some ({ result with account := account, amount := amount, pendingAccount := destination,
                      previousBalance := info.balance }, l)

def sendBlock (result : ProcessReturn) (b : Block) (previous : BlockHash) (destination : Account)
    (balance : Amount) : Processed :=
  let hash := p.hash b
  l.require result (!l.blockExistsType .send hash) .old <|
  match l.blockGet previous with
  | none => some ({ result with code := .gapPrevious }, l)
  | some prev =>
    l.require result (b.hashables.validPredecessor prev.block.hashables) .blockPosition <|
    let account := l.frontierGet previous
    l.require result (account != 0) .fork <|
    l.require result (result.verified == .valid || !p.validateMessage account hash b.signature)
      .badSignature <|
    l.require result (decide (p.workThreshold {} ≤ p.difficulty b)) .insufficientWork <|
    let result := { result with verified := .valid }
    let info := (l.accountGet account).getD {}
    l.require result (decide (balance ≤ info.balance)) .negativeSpend <|
    l.sendCommit p result b previous destination balance account info

/-- The writes of `receive_block`. -/
def receiveCommit (result : ProcessReturn) (b : Block) (previous source : BlockHash)
    (account : Account) (info : AccountInfo) (pending : PendingInfo) : Processed := do
  let hash := p.hash b
  let newBalance := info.balance + pending.amount
  let l ← l.pendingDel ⟨account, source⟩
  let l ← l.blockPut hash b
    { account := account, balance := newBalance, height := info.blockCount + 1 }
  let newInfo : AccountInfo :=
    { head := hash, representative := info.representative, openBlock := info.openBlock,
      balance := newBalance, blockCount := info.blockCount + 1, epoch := .epoch0 }
  let l ← l.changeLatest account info newInfo
  let l := l.representationAdd info.representative pending.amount
  let l ← l.frontierDel previous
  let l := l.frontierPut hash account
  some ({ result with account := account, amount := pending.amount,
                      previousBalance := info.balance }, l)

def receiveBlock (result : ProcessReturn) (b : Block) (previous source : BlockHash) : Processed :=
  let hash := p.hash b
  l.require result (!l.blockExistsType .receive hash) .old <|
  match l.blockGet previous with
  | none => some ({ result with code := .gapPrevious }, l)
  | some prev =>
    l.require result (b.hashables.validPredecessor prev.block.hashables) .blockPosition <|
    let account := l.frontierGet previous
    -- If we have the block but it's not the latest we have a signed fork
    l.require result (account != 0) (if l.blockExists previous then .fork else .gapPrevious) <|
    l.require result (result.verified == .valid || !p.validateMessage account hash b.signature)
      .badSignature <|
    let result := { result with verified := .valid }
    l.require result (l.sourceExists source) .gapSource <|
    let info := (l.accountGet account).getD {}
    l.require result (info.head == previous) .gapPrevious <|
    match l.pendingGet ⟨account, source⟩ with
    | none => some ({ result with code := .unreceivable }, l)
    | some pending =>
      l.require result (pending.epoch == .epoch0) .unreceivable <|
      l.require result (decide (p.workThreshold {} ≤ p.difficulty b)) .insufficientWork <|
      l.receiveCommit p result b previous source account info pending

/-- The writes of `open_block`. -/
def openCommit (result : ProcessReturn) (b : Block) (source : BlockHash)
    (representative account : Account) (pending : PendingInfo) : Processed := do
  let hash := p.hash b
  let l ← l.pendingDel ⟨account, source⟩
  let l ← l.blockPut hash b { account := account, balance := pending.amount, height := 1 }
  let newInfo : AccountInfo :=
    { head := hash, representative := representative, openBlock := hash,
      balance := pending.amount, blockCount := 1, epoch := .epoch0 }
  let l ← l.changeLatest account {} newInfo
  let l := l.representationAdd representative pending.amount
  let l := l.frontierPut hash account
  some ({ result with account := account, amount := pending.amount, previousBalance := 0 }, l)

/-- `open_block`. The burn account is zero. -/
def openBlock (result : ProcessReturn) (b : Block) (source : BlockHash)
    (representative account : Account) : Processed :=
  let hash := p.hash b
  l.require result (!l.blockExistsType BlockType.open hash) .old <|
  l.require result (result.verified == .valid || !p.validateMessage account hash b.signature)
    .badSignature <|
  let result := { result with verified := .valid }
  l.require result (l.sourceExists source) .gapSource <|
  l.require result (l.accountGet account).isNone .fork <|
  match l.pendingGet ⟨account, source⟩ with
  | none => some ({ result with code := .unreceivable }, l)
  | some pending =>
    l.require result (account != 0) .openedBurnAccount <|
    l.require result (pending.epoch == .epoch0) .unreceivable <|
    l.require result (decide (p.workThreshold {} ≤ p.difficulty b)) .insufficientWork <|
    l.openCommit p result b source representative account pending

/-- `block_a.visit (processor)`. -/
def visit (b : Block) (verification : SignatureVerification) : Processed :=
  let result : ProcessReturn := { verified := verification }
  match b.hashables with
  | .sendBlock previous destination balance => l.sendBlock p result b previous destination balance
  | .receiveBlock previous source => l.receiveBlock p result b previous source
  | .openBlock source representative account => l.openBlock p result b source representative account
  | .changeBlock previous representative => l.changeBlock p result b previous representative
  | .stateBlock account previous representative balance link =>
    l.stateBlock p result b account previous representative balance link

def process (b : Block) (verification : SignatureVerification) : Processed := do
  let (result, l) ← l.visit p b verification
  if result.code = .progress then some (result, { l with blockCount := l.blockCount + 1 })
  else some (result, l)

end Ledger

/-! ## Outcomes -/

/-- What is returned satisfies `Q`, unless the node stops. -/
def Returns (x : Processed) (Q : ProcessReturn → Ledger → Prop) : Prop :=
  ∀ r l, x = some (r, l) → Q r l

namespace Returns

variable {l : Ledger} {x : Processed} {Q : ProcessReturn → Ledger → Prop} {result : ProcessReturn}

theorem some (h : Q result l) : Returns (.some (result, l)) Q := by
  rintro r l' ⟨⟩
  exact h

theorem require {condition : Bool} {code : ProcessResult}
    (hno : condition = false → Q { result with code := code } l)
    (h : condition = true → Returns x Q) : Returns (l.require result condition code x) Q := by
  unfold Ledger.require
  cases hc : condition with
  | false => exact some (hno hc)
  | true => exact h hc

theorem bind {α : Type} {y : Option α} {f : α → Processed}
    (h : ∀ z, y = .some z → Returns (f z) Q) : Returns (y >>= f) Q := by
  intro r l' heq
  obtain ⟨z, hz, heq⟩ := Option.bind_eq_some_iff.1 heq
  exact h z hz r l' heq

end Returns

theorem validateEpochBlock_cases {p : Params} {l : Ledger} {result result' : ProcessReturn}
    {b : Block} {acc : Account} {previous : BlockHash} {bal : Amount} {link : Link}
    {flag : Bool}
    (h : l.validateEpochBlock p result b acc previous bal link = some (flag, result')) :
    (previous = 0 ∧ flag = (bal == 0) ∧ result' = result) ∨
    (l.blockExists previous ∧ (∃ x, l.balance previous = some x ∧ flag = (bal == x)) ∧
      result' = { result with code := .progress }) ∨
    (previous ≠ 0 ∧ l.blockExists previous = false ∧
      (result.verified ≠ .unknown ∧ result' = { result with code := .gapPrevious } ∨
        p.validateMessage acc (p.hash b) b.signature = false ∧
          result' = { result with code := .gapPrevious, verified := .valid } ∨
        (∃ epoch, p.epochInfo link = some epoch ∧
          p.validateMessage epoch.signer (p.hash b) b.signature = false) ∧
          result' = { result with code := .gapPrevious, verified := .validEpoch } ∨
        (p.validateMessage acc (p.hash b) b.signature = true ∧
          ∃ epoch, p.epochInfo link = some epoch ∧
            p.validateMessage epoch.signer (p.hash b) b.signature = true) ∧
          result' = { result with code := .badSignature, verified := .invalid })) := by
  unfold Ledger.validateEpochBlock at h
  split at h
  · rename_i hz
    cases h
    exact .inl ⟨hz, rfl, rfl⟩
  · rename_i hz
    split at h
    · rename_i hex
      obtain ⟨x, hx, h⟩ := Option.bind_eq_some_iff.1 h
      cases h
      exact .inr (.inl ⟨hex, ⟨x, hx, rfl⟩, rfl⟩)
    · rename_i hex
      refine .inr (.inr ⟨hz, Bool.eq_false_of_not_eq_true hex, ?_⟩)
      dsimp only at h
      split at h
      · split at h
        · rename_i hinvalid
          obtain ⟨epoch, hep, h⟩ := Option.bind_eq_some_iff.1 h
          split at h <;> rename_i hsigner <;> cases h
          · exact .inr (.inr (.inr ⟨⟨hinvalid, epoch, hep, hsigner⟩, rfl⟩))
          · exact .inr (.inr (.inl ⟨⟨epoch, hep, Bool.eq_false_of_not_eq_true hsigner⟩, rfl⟩))
        · rename_i hval
          cases h
          exact .inr (.inl ⟨Bool.eq_false_of_not_eq_true hval, rfl⟩)
      · rename_i hkn
        cases h
        exact .inl ⟨hkn, rfl⟩

theorem Returns.process {p : Params} {l : Ledger} {b : Block} {verification : SignatureVerification}
    {Q : ProcessReturn → Ledger → Prop} (h : Returns (l.visit p b verification) Q)
    (hcnt : ∀ r l n, Q r l → Q r { l with blockCount := n }) :
    Returns (l.process p b verification) Q := by
  refine .bind fun ⟨r, l'⟩ hvis => ?_
  have hr := h r l' hvis
  dsimp only
  split
  · exact .some (hcnt r l' _ hr)
  · exact .some hr

end Futurehead
