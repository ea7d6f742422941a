import Futurehead.Store

/-!
# Account chains

The block lattice has one chain of blocks for each account. This file says what a chain is for,
apart from the tables that store it: an `Entry` is a block with the balance and the details the
ledger computed for it, and a chain is the list of an account's entries, newest first.
-/

namespace Futurehead

/-- What a block does to the balance of its account. -/
inductive Kind where
  | send (destination : Account)
  | receive (source : BlockHash)
  | neutral
  | genesis
  deriving DecidableEq

/-- What a block does on top of a chain with balance `previousBalance`. The link of a state block
is a destination, a source or an epoch marker, depending on the balances. -/
def Hashables.kind (p : Params) (previousBalance : Amount) : Hashables → Kind
  | .sendBlock _ destination _ => .send destination
  | .receiveBlock _ source => .receive source
  | .openBlock source _ _ => if source = p.genesisAccount then .genesis else .receive source
  | .changeBlock .. => .neutral
  | .stateBlock _ _ _ balance link =>
    if balance < previousBalance then .send link
    else if link = 0 ∨ p.isEpochLink link then .neutral
    else .receive link

/-- The balance a block states, for the types that state one. -/
def Hashables.statedBalance : Hashables → Option Amount
  | .sendBlock _ _ balance => some balance
  | .stateBlock _ _ _ balance _ => some balance
  | _ => none

/-- A block of a chain, with the balance after it and the details of its sideband. -/
structure Entry where
  block : Block
  balance : Amount
  details : BlockDetails := {}
  deriving DecidableEq

namespace Entry

variable (p : Params)

def hash (e : Entry) : BlockHash := p.hash e.block

def type (e : Entry) : BlockType := e.block.hashables.type

/-- The entry's key in the block tables. -/
def key (e : Entry) : BlockType × BlockHash := (e.type, e.hash p)

theorem key_eq (e : Entry) : e.key p = (e.type, e.hash p) := rfl

@[simp] theorem key_snd (e : Entry) : (e.key p).2 = e.hash p := rfl

end Entry

/-! ## What a chain determines -/

section

variable (p : Params)

/-- The hash of the newest block, zero for the empty chain. -/
def headHash : List Entry → BlockHash
  | [] => 0
  | e :: _ => e.hash p

def chainBal : List Entry → Amount
  | [] => 0
  | e :: _ => e.balance

def chainEpoch : List Entry → Epoch
  | [] => .epoch0
  | e :: _ => e.details.epoch

/-- The representative set by the newest block that sets one. -/
def chainRep : List Entry → Account
  | [] => 0
  | e :: c =>
    match e.block.hashables with
    | .sendBlock .. | .receiveBlock .. => chainRep c
    | h => h.representative

def chainOpen : List Entry → BlockHash
  | [] => 0
  | [e] => e.hash p
  | _ :: c => chainOpen c

/-- The hash of the block with height `height`, zero if there is none. -/
def hashAt : List Entry → Nat → BlockHash
  | [], _ => 0
  | e :: c, height => if c.length + 1 = height then e.hash p else hashAt c height

/-- The account record of a chain; the default record for the empty one. -/
def chainInfo (c : List Entry) : AccountInfo where
  head := headHash p c
  representative := chainRep c
  openBlock := chainOpen p c
  balance := chainBal c
  blockCount := c.length
  epoch := chainEpoch c

/-- The account table has a record exactly for a chain with blocks. -/
def chainInfo? (c : List Entry) : Option AccountInfo := if c = [] then none else some (chainInfo p c)

/-- What the entry does on top of the chain `c`. -/
def Entry.kind (e : Entry) (c : List Entry) : Kind := e.block.hashables.kind p (chainBal c)

/-- The amount a sending entry on top of `c` moves. -/
def Entry.sent (e : Entry) (c : List Entry) : Amount := chainBal c - e.balance

/-- The sideband of an entry of account `a` on top of `c`, as it is stored. -/
def Entry.sideband (e : Entry) (a : Account) (c : List Entry) (successor : BlockHash) : Sideband :=
  Sideband.stored ⟨successor, a, e.balance, c.length + 1, e.details⟩ e.type

/-- The table entry for `e` on top of `c`. -/
def Entry.stored (e : Entry) (a : Account) (c : List Entry) (successor : BlockHash) : StoredBlock :=
  ⟨e.block, e.sideband a c successor⟩

/-- The details the ledger gives to a block on top of `c` that receives a send of epoch
`sourceEpoch`, if it receives one. -/
def chainDetails (h : Hashables) (c : List Entry) (sourceEpoch : Epoch) : BlockDetails :=
  match h with
  | .stateBlock _ _ _ _ link =>
    match h.kind p (chainBal c), p.epochInfo link with
    | .send _, _ => ⟨chainEpoch c, true, false, false⟩
    | .receive _, _ => ⟨(chainEpoch c).max sourceEpoch, false, true, false⟩
    | _, some i => ⟨i.epoch, false, false, true⟩
    | _, none => ⟨chainEpoch c, false, false, false⟩
  | _ => {}

/-- The entry `e` may stand on top of the chain `c` of account `a`. If it receives, the send has
this amount and epoch. -/
structure Extends (a : Account) (c : List Entry) (e : Entry) (amount : Amount) (epoch : Epoch) :
    Prop where
  account_ne_zero : a ≠ 0
  previous : e.block.hashables.previous = headHash p c
  /-- An account is opened by an open block or a state block, which name it. -/
  opens : c = [] → e.type = BlockType.open ∨ e.type = .state
  open_first : e.type = BlockType.open → c = []
  account : e.type = BlockType.open ∨ e.type = .state → e.block.hashables.account = a
  /-- A legacy block never follows a state block. -/
  legacy : e.type ≠ .state → ∀ x ∈ c.head?, x.type ≠ .state
  /-- The balance a block states is the balance it leaves. -/
  stated : ∀ balance ∈ e.block.hashables.statedBalance, e.balance = balance
  send : ∀ d, e.kind p c = .send d → e.balance ≤ chainBal c
  receive : ∀ s, e.kind p c = .receive s → e.balance.toNat = (chainBal c).toNat + amount.toNat
  receive_legacy : ∀ s, e.kind p c = .receive s → e.type ≠ .state → epoch = .epoch0
  neutral : e.kind p c = .neutral → e.balance = chainBal c
  genesis : e.kind p c = .genesis → a = p.genesisAccount ∧ e.balance = genesisAmount
  details : e.details = chainDetails p e.block.hashables c epoch

variable {p}

@[simp] theorem chainInfo_nil : chainInfo p [] = {} := rfl

@[simp] theorem chainInfo?_nil : chainInfo? p [] = none := rfl

@[simp] theorem chainInfo?_cons (e : Entry) (c : List Entry) :
    chainInfo? p (e :: c) = some (chainInfo p (e :: c)) := rfl

theorem chainInfo?_getD (c : List Entry) : (chainInfo? p c).getD {} = chainInfo p c := by
  cases c <;> rfl

theorem chainOpen_cons (e : Entry) (c : List Entry) :
    chainOpen p (e :: c) = if c = [] then e.hash p else chainOpen p c := by
  cases c <;> rfl

theorem chainOpen_eq_hashAt {c : List Entry} (hc : c ≠ []) : chainOpen p c = hashAt p c 1 := by
  induction c with
  | nil => exact absurd rfl hc
  | cons e c ih =>
    rw [chainOpen_cons, hashAt]
    by_cases h : c = []
    · rw [if_pos h, if_pos (by rw [h]; rfl)]
    · have := List.length_pos_of_ne_nil h
      rw [if_neg h, if_neg (by omega), ih h]

theorem hashAt_zero (c : List Entry) : hashAt p c 0 = 0 := by
  induction c with
  | nil => rfl
  | cons e c ih => simp [hashAt, ih]

theorem hashAt_of_length_lt {c : List Entry} {k : Nat} (h : c.length < k) : hashAt p c k = 0 := by
  induction c with
  | nil => rfl
  | cons e c ih =>
    simp only [List.length_cons] at h
    rw [hashAt, if_neg (by omega), ih (by omega)]

theorem hashAt_suffix {e : Entry} {c d : List Entry} (h : e :: c <:+ d) :
    hashAt p d (c.length + 1) = e.hash p := by
  induction d with
  | nil => simp at h
  | cons x d ih =>
    rcases List.suffix_cons_iff.1 h with heq | hsuf
    · cases heq; simp [hashAt]
    · have := hsuf.length_le
      simp only [List.length_cons] at this
      rw [hashAt, if_neg (by omega), ih hsuf]

namespace Extends

variable {a : Account} {c : List Entry} {e : Entry} {amount : Amount} {epoch : Epoch}
variable (h : Extends p a c e amount epoch)
include h

theorem details_legacy (hl : e.type ≠ .state) : e.details = {} := by
  rw [h.details]
  unfold Entry.type at hl
  cases hh : e.block.hashables <;> simp_all [chainDetails, Hashables.type]

theorem stored_account (s : BlockHash) : (e.stored a c s).account = a := by
  have hacc := h.account
  have hne := h.account_ne_zero
  unfold Entry.type at hacc
  unfold StoredBlock.account Entry.stored Entry.sideband Entry.type
  cases hh : e.block.hashables <;> simp_all [Hashables.account, Hashables.type, Sideband.stored]

theorem stored_balance (s : BlockHash) : (e.stored a c s).balance = e.balance := by
  have hst := h.stated
  unfold StoredBlock.balance Entry.stored Entry.sideband Entry.type
  cases hh : e.block.hashables <;>
    simp_all [Hashables.statedBalance, Hashables.type, Sideband.stored]

theorem stored_version (s : BlockHash) : (e.stored a c s).version = e.details.epoch := by
  have hd := h.details_legacy
  unfold Entry.type at hd
  unfold StoredBlock.version Entry.stored Entry.sideband Entry.type
  cases hh : e.block.hashables <;> simp_all [Hashables.type, Sideband.stored]

theorem stored_details (s : BlockHash) : (e.stored a c s).sideband.details = e.details := by
  have hd := h.details_legacy
  unfold Entry.type at hd
  unfold Entry.stored Entry.sideband Entry.type
  cases hh : e.block.hashables <;> simp_all [Hashables.type, Sideband.stored]

theorem stored_height (s : BlockHash) : (e.stored a c s).sideband.height = c.length + 1 := by
  have ho := h.open_first
  unfold Entry.type at ho
  unfold Entry.stored Entry.sideband Entry.type
  cases hh : e.block.hashables <;> simp_all [Hashables.type, Sideband.stored]

theorem exists_below (ho : e.type ≠ BlockType.open) (hs : e.type ≠ .state) :
    ∃ x d, c = x :: d ∧ x.type ≠ .state := by
  cases c with
  | nil => exact absurd (h.opens rfl) (not_or.2 ⟨ho, hs⟩)
  | cons x d => exact ⟨x, d, rfl, h.legacy hs x rfl⟩

theorem root_first (hc : c = []) : e.block.hashables.root = a := by
  have hprev : e.block.hashables.previous = 0 := by rw [h.previous, hc]; rfl
  have hopens := h.opens hc
  have hacc := h.account hopens
  unfold Entry.type at hopens
  cases hh : e.block.hashables with
  | openBlock source representative account =>
    rw [hh] at hacc
    exact hacc
  | stateBlock account previous representative balance link =>
    rw [hh] at hprev hacc
    rw [Hashables.root, if_pos (show previous = 0 from hprev)]
    exact hacc
  | _ => simp [hh, Hashables.type] at hopens

section

variable {account representative : Account} {previous : BlockHash} {balance : Amount} {link : Link}
  (hb : e.block.hashables = .stateBlock account previous representative balance link)

include hb

theorem account_state : account = a := by
  have := h.account (.inr (by rw [Entry.type, hb]; rfl))
  rwa [hb] at this

theorem previous_state : previous = headHash p c := by
  have := h.previous
  rwa [hb] at this

theorem balance_state : e.balance = balance := h.stated balance (by rw [hb]; rfl)

theorem balance_neutral (hk : e.kind p c = .neutral) : balance = chainBal c :=
  (h.balance_state hb).symm.trans (h.neutral hk)

end

end Extends

@[simp] theorem Entry.stored_block (e : Entry) (a : Account) (c : List Entry) (s : BlockHash) :
    (e.stored a c s).block = e.block := rfl

@[simp] theorem Entry.stored_successor (e : Entry) (a : Account) (c : List Entry) (s : BlockHash) :
    (e.stored a c s).sideband.successor = s := by
  unfold Entry.stored Entry.sideband Sideband.stored
  cases e.type <;> rfl

def StoredBlock.setSuccessor (successor : BlockHash) (b : StoredBlock) : StoredBlock :=
  ⟨b.block, { b.sideband with successor := successor }⟩

theorem Entry.stored_setSuccessor (e : Entry) (a : Account) (c : List Entry) (s s' : BlockHash) :
    (e.stored a c s).setSuccessor s' = e.stored a c s' := by
  unfold StoredBlock.setSuccessor Entry.stored Entry.sideband Sideband.stored
  cases e.type <;> rfl

theorem type_of_send {x : Entry} {d : List Entry} {dest : Account}
    (hk : x.kind p d = .send dest) : x.type = .send ∨ x.type = .state := by
  unfold Entry.kind Hashables.kind at hk
  unfold Entry.type
  split at hk <;> rename_i hh <;> rw [hh]
  · exact .inl rfl
  · cases hk
  · split at hk <;> cases hk
  · cases hk
  · exact .inr rfl

end

theorem chainDetails_isEpoch {h : Hashables} {c : List Entry} {epoch : Epoch}
    (he : (chainDetails p h c epoch).isEpoch) : ∃ account previous representative balance link i,
      h = .stateBlock account previous representative balance link ∧
      h.kind p (chainBal c) = .neutral ∧ p.epochInfo link = some i ∧
      (chainDetails p h c epoch).epoch = i.epoch := by
  cases h with
  | stateBlock account previous representative balance link =>
    cases hk : (Hashables.stateBlock account previous representative balance link).kind p
        (chainBal c) with
    | send d | receive s => simp only [chainDetails, hk] at he; cases he
    | genesis =>
      simp only [Hashables.kind] at hk
      split_ifs at hk
    | neutral =>
      cases hi : p.epochInfo link with
      | none => simp only [chainDetails, hk, hi] at he; cases he
      | some i =>
        refine ⟨account, previous, representative, balance, link, i, rfl, rfl, hi, ?_⟩
        simp only [chainDetails, hk, hi]
  | _ => cases he

end Futurehead
