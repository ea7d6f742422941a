import Futurehead.Ledger.Processor
import Futurehead.Lattice.Updates

/-!
# What a visit can do

A visitor method runs through its checks and then commits. What that comes to is said once here, and
everything about processing is derived from it by cases.
-/

namespace Futurehead

open Option Ledger

/-- The account that a block belongs to: the account it names, or the account whose legacy chain it
stands on. -/
def Ledger.home (l : Ledger) (b : Block) : Account :=
  match b.hashables with
  | .openBlock _ _ account => account
  | .stateBlock account _ _ _ _ => account
  | h => l.frontierGet h.previous

/-- `validate_epoch_block`: a state block with an epoch link that leaves the balance as it is. -/
def EpochBlock (p : Params) (l : Ledger) (b : Block) : Prop :=
  b.hashables.type = .state ∧ p.isEpochLink b.hashables.link ∧
    ∃ balance ∈ b.hashables.statedBalance, l.balance b.hashables.previous = some balance

/-- What `ledger::process` has checked when it answers `fork`: the block is not stored, and its
root is an account with blocks or a stored block. -/
structure Forked (p : Params) (l : Ledger) (b : Block) : Prop where
  fresh : l.blockExistsType b.hashables.type (p.hash b) = false
  taken : (b.hashables.type = BlockType.open ∨ b.hashables.type = .state) ∧
      b.hashables.previous = 0 ∧ (l.accountGet b.hashables.account).isSome ∨
    b.hashables.type ≠ BlockType.open ∧ l.blockExists b.hashables.previous

/-- The check of a signature: the tag of the block says that it was made, or it is made now. -/
def Checked (p : Params) (b : Block) (tag expected : SignatureVerification) (account : Account) :
    Prop :=
  (tag == expected || !p.validateMessage account (p.hash b) b.signature) = true

/-- A tag that a visit may return. -/
inductive Tags (p : Params) (l : Ledger) (b : Block) (tag : SignatureVerification) :
    SignatureVerification → Prop
  | given : Tags p l b tag tag
  | valid (signed : Checked p b tag .valid (l.home b))
      (placed : b.hashables.type = BlockType.open ∨ b.hashables.type = .state ∨
        l.frontierGet b.hashables.previous ≠ 0) : Tags p l b tag .valid
  | epoch {i : EpochInfo} (info : p.epochInfo b.hashables.link = some i)
      (signed : Checked p b tag .validEpoch i.signer) : Tags p l b tag .validEpoch
  | invalid : Tags p l b tag .invalid

structure Rejected (p : Params) (l : Ledger) (b : Block) (tag : SignatureVerification)
    (r : ProcessReturn) : Prop where
  code : r.code ≠ .progress
  tags : Tags p l b tag r.verified
  fork : r.code = .fork → Forked p l b

structure Accepted (p : Params) (l : Ledger) (b : Block) (tag : SignatureVerification)
    (r : ProcessReturn) : Prop where
  code : r.code = .progress
  account : r.account = l.home b
  tags : Tags p l b tag r.verified
  verified : r.verified = .valid ∨ r.verified = .validEpoch ∧ EpochBlock p l b

/-- The checks that the send, receive and change blocks begin with. -/
structure OnFrontier (p : Params) (l : Ledger) (b : Block) (tag : SignatureVerification) :
    Prop where
  fresh : l.blockExistsType b.hashables.type (p.hash b) = false
  below : ∃ prev, l.blockGet b.hashables.previous = some prev ∧
    b.hashables.validPredecessor prev.block.hashables
  frontier : l.frontierGet b.hashables.previous ≠ 0
  signed : Checked p b tag .valid (l.frontierGet b.hashables.previous)
  home : l.home b = l.frontierGet b.hashables.previous
  legacy : b.hashables.type ≠ BlockType.open ∧ b.hashables.type ≠ .state

/-- Where a state block may stand, with the account before it. -/
inductive StatePlace (l : Ledger) (account : Account) (previous : BlockHash) (link : Link) :
    AccountInfo → Prop
  | opened {info : AccountInfo} (get : l.accountGet account = some info) (ne : previous ≠ 0)
      (stored : l.blockExists previous) (head : previous = info.head) :
      StatePlace l account previous link info
  | unopened (get : l.accountGet account = none) (zero : previous = 0) (ne : link ≠ 0) :
      StatePlace l account previous link {}

/-- What a state block does on top of an account, with its details. -/
inductive StateDoes (l : Ledger) (account : Account) (balance : Amount) (link : Link)
    (info : AccountInfo) : BlockDetails → Prop
  | send (lt : balance < info.balance) :
      StateDoes l account balance link info ⟨info.epoch, true, false, false⟩
  | receive {pending : PendingInfo} (ge : ¬ balance < info.balance) (ne : link ≠ 0)
      (source : l.sourceExists link) (get : l.pendingGet ⟨account, link⟩ = some pending)
      (amount : balance - info.balance = pending.amount) :
      StateDoes l account balance link info ⟨info.epoch.max pending.epoch, false, true, false⟩
  | change (zero : link = 0) (same : balance = info.balance) :
      StateDoes l account balance link info ⟨info.epoch, false, false, false⟩

/-- Where an epoch block may stand. An account without blocks needs no previous block. -/
inductive EpochPlace (l : Ledger) (account : Account) (previous : BlockHash)
    (representative : Account) (epoch : Epoch) : AccountInfo → Prop
  | opened {info : AccountInfo} (get : l.accountGet account = some info) (ne : previous ≠ 0)
      (head : previous = info.head) (rep : representative = info.representative)
      (next : info.epoch.isSequential epoch) :
      EpochPlace l account previous representative epoch info
  | unopened (get : l.accountGet account = none) (rep : representative = 0)
      (pending : l.pendingAny account) (later : 0 < epoch.toNat) :
      EpochPlace l account previous representative epoch {}

/-- What a state block that is no epoch block returns, but for the account. -/
def stateReturn (info : AccountInfo) (balance : Amount) (isSend : Bool) : ProcessReturn :=
  { verified := .valid, previousBalance := info.balance,
    amount := if isSend then info.balance - balance else balance - info.balance }

/-- The block passes every check of its visitor method, and `x` is what is left to do. -/
inductive Passed (p : Params) (l : Ledger) (b : Block) (tag : SignatureVerification) :
    Processed → Prop
  | send {previous : BlockHash} {destination : Account} {balance : Amount}
      (hb : b.hashables = .sendBlock previous destination balance) (place : OnFrontier p l b tag)
      (work : p.workThreshold {} ≤ p.difficulty b)
      (funds : balance ≤ ((l.accountGet (l.frontierGet previous)).getD {}).balance) :
      Passed p l b tag (l.sendCommit p { verified := .valid } b previous destination balance
        (l.frontierGet previous) ((l.accountGet (l.frontierGet previous)).getD {}))
  | change {previous : BlockHash} {representative : Account}
      (hb : b.hashables = .changeBlock previous representative) (place : OnFrontier p l b tag)
      (work : p.workThreshold {} ≤ p.difficulty b) :
      Passed p l b tag (l.changeCommit p { verified := tag } b previous representative
        (l.frontierGet previous) ((l.accountGet (l.frontierGet previous)).getD {}))
  | receive {previous source : BlockHash} {pending : PendingInfo}
      (hb : b.hashables = .receiveBlock previous source) (place : OnFrontier p l b tag)
      (work : p.workThreshold {} ≤ p.difficulty b) (stored : l.sourceExists source)
      (head : ((l.accountGet (l.frontierGet previous)).getD {}).head = previous)
      (get : l.pendingGet ⟨l.frontierGet previous, source⟩ = some pending)
      (epoch : pending.epoch = .epoch0) :
      Passed p l b tag (l.receiveCommit p { verified := .valid } b previous source
        (l.frontierGet previous) ((l.accountGet (l.frontierGet previous)).getD {}) pending)
  | opens {source : BlockHash} {representative account : Account} {pending : PendingInfo}
      (hb : b.hashables = .openBlock source representative account)
      (fresh : l.blockExistsType b.hashables.type (p.hash b) = false)
      (signed : Checked p b tag .valid account) (work : p.workThreshold {} ≤ p.difficulty b)
      (stored : l.sourceExists source) (new : l.accountGet account = none)
      (get : l.pendingGet ⟨account, source⟩ = some pending) (ne : account ≠ 0)
      (epoch : pending.epoch = .epoch0) :
      Passed p l b tag (l.openCommit p { verified := .valid } b source representative account pending)
  | state {account representative : Account} {previous : BlockHash} {balance : Amount} {link : Link}
      {info : AccountInfo} {details : BlockDetails}
      (hb : b.hashables = .stateBlock account previous representative balance link)
      (fresh : l.blockExistsType b.hashables.type (p.hash b) = false)
      (signed : Checked p b tag .valid account) (ne : account ≠ 0)
      (ordinary : p.isEpochLink link → ∃ x, l.balance previous = some x ∧ balance ≠ x)
      (place : StatePlace l account previous link info)
      (does : StateDoes l account balance link info details)
      (work : p.workThreshold details ≤ p.difficulty b) :
      Passed p l b tag (l.stateCommit p (stateReturn info balance details.isSend) b account
        representative balance link info details)
  | epoch {account representative : Account} {previous : BlockHash} {balance : Amount} {link : Link}
      {info : AccountInfo} {i : EpochInfo}
      (hb : b.hashables = .stateBlock account previous representative balance link)
      (fresh : l.blockExistsType b.hashables.type (p.hash b) = false)
      (isLink : p.isEpochLink link) (epochInfo : p.epochInfo link = some i)
      (signed : Checked p b tag .validEpoch i.signer) (ne : account ≠ 0)
      (below : previous = 0 ∨ l.blockExists previous) (keeps : l.balance previous = some balance)
      (place : EpochPlace l account previous representative i.epoch info)
      (same : balance = info.balance)
      (work : p.workThreshold ⟨i.epoch, false, false, true⟩ ≤ p.difficulty b) :
      Passed p l b tag (l.epochCommit p { verified := .validEpoch, previousBalance := info.balance }
        b account representative info i.epoch)

/-- What a visit of the block `b` with a tag comes to. -/
inductive Visit (p : Params) (l : Ledger) (b : Block) (tag : SignatureVerification) :
    Processed → Prop
  | stop (stored : l.blockExists b.hashables.previous)
      (unread : l.balance b.hashables.previous = none) : Visit p l b tag none
  | reject {r : ProcessReturn} (h : Rejected p l b tag r) : Visit p l b tag (some (r, l))
  | commit {x : Processed} (h : Passed p l b tag x) : Visit p l b tag x

section

variable {p : Params} {l : Ledger} {b : Block} {tag : SignatureVerification} {x : Processed}
  {result : ProcessReturn} {account representative destination : Account}
  {previous source : BlockHash} {balance : Amount} {link : Link}

theorem epochInfo_eq_none (h : p.isEpochLink link = false) : p.epochInfo link = none := by
  unfold Params.isEpochLink at h
  unfold Params.epochInfo
  rw [List.find?_eq_none]
  intro e he
  simpa using (List.any_eq_false.1 h) e he

theorem exists_epochInfo (h : p.isEpochLink link) : ∃ epoch, p.epochInfo link = some epoch := by
  rw [← isSome_iff_exists, Params.epochInfo, List.find?_isSome]
  simpa [Params.isEpochLink] using h

theorem isEpochLink_of_epochInfo {i : EpochInfo} (hi : p.epochInfo link = some i) :
    p.isEpochLink link := by
  by_contra hlink
  cases (epochInfo_eq_none (Bool.eq_false_of_not_eq_true hlink)).symm.trans hi

theorem epoch_of_epochInfo {i : EpochInfo} (hi : p.epochInfo link = some i) :
    i.epoch = .epoch1 ∨ i.epoch = .epoch2 := by
  have hmem := List.mem_of_find?_eq_some hi
  simp only [Params.epochs, List.mem_cons, List.not_mem_nil, or_false] at hmem
  rcases hmem with rfl | rfl
  · exact .inl rfl
  · exact .inr rfl

theorem home_legacy (hopen : b.hashables.type ≠ BlockType.open) (hsta : b.hashables.type ≠ .state) :
    l.home b = l.frontierGet b.hashables.previous := by
  unfold Ledger.home
  cases hh : b.hashables <;> simp [hh, Hashables.type] at hopen hsta ⊢

theorem home_open (hb : b.hashables = .openBlock source representative account) (l : Ledger) :
    l.home b = account := by
  rw [Ledger.home, hb]

theorem home_state (hb : b.hashables = .stateBlock account previous representative balance link)
    (l : Ledger) : l.home b = account := by
  rw [Ledger.home, hb]

/-! ## The rules -/

namespace Visit

variable {code : ProcessResult} {condition : Bool}

theorem require (hno : condition = false → Rejected p l b tag { result with code := code })
    (h : condition = true → Visit p l b tag x) :
    Visit p l b tag (l.require result condition code x) := by
  unfold Ledger.require
  cases hc : condition with
  | false => exact .reject (hno hc)
  | true => exact h hc

theorem check (htag : Tags p l b tag result.verified) (hcode : code ≠ .progress ∧ code ≠ .fork)
    (h : condition = true → Visit p l b tag x) :
    Visit p l b tag (l.require result condition code x) :=
  require (fun _ => ⟨hcode.1, htag, fun hf => absurd hf hcode.2⟩) h

theorem unreceivable (htag : Tags p l b tag result.verified) :
    Visit p l b tag (some ({ result with code := .unreceivable }, l)) :=
  .reject ⟨by simp, htag, fun hf => by cases hf⟩

theorem legacy {type : BlockType} (ht : b.hashables.type = type)
    (hprev : b.hashables.previous = previous) (hopen : type ≠ BlockType.open)
    (hsta : type ≠ .state) (hcode : code ≠ .progress)
    (hnext : OnFrontier p l b tag → Tags p l b tag .valid → Visit p l b tag x) :
    Visit p l b tag (l.require { verified := tag } (!l.blockExistsType type (p.hash b)) .old <|
      match l.blockGet previous with
      | none => some ({ verified := tag, code := .gapPrevious }, l)
      | some prev =>
        l.require { verified := tag } (b.hashables.validPredecessor prev.block.hashables)
          .blockPosition <|
        l.require { verified := tag } (l.frontierGet previous != 0) code <|
        l.require { verified := tag } (tag == .valid ||
          !p.validateMessage (l.frontierGet previous) (p.hash b) b.signature) .badSignature x) := by
  subst ht hprev
  refine check .given (by decide) fun hfresh => ?_
  have hfresh := Bool.eq_false_of_not_eq_true' hfresh
  split
  · exact .reject ⟨by simp, .given, fun hf => by cases hf⟩
  rename_i prev hget
  refine check .given (by decide) fun hval => ?_
  refine require (fun _ => ⟨hcode, .given, fun _ =>
    ⟨hfresh, .inr ⟨hopen, blockExists_of_blockGet hget⟩⟩⟩) fun hfro => ?_
  have hfro := bne_iff_ne.1 hfro
  refine check .given (by decide) fun hsig => ?_
  have hhome : l.home b = l.frontierGet b.hashables.previous := home_legacy hopen hsta
  exact hnext ⟨hfresh, ⟨prev, hget, hval⟩, hfro, hsig, hhome, hopen, hsta⟩
    (.valid (by rw [hhome]; exact hsig) (.inr (.inr hfro)))

end Visit

/-! ## Legacy blocks -/

theorem sendBlock_visit (hb : b.hashables = .sendBlock previous destination balance) :
    Visit p l b tag (l.sendBlock p { verified := tag } b previous destination balance) := by
  refine .legacy (by rw [hb]; rfl) (by rw [hb]; rfl) (by decide) (by decide) (by decide) fun hpl htag => ?_
  refine .check .given (by decide) fun hwork => ?_
  refine .check htag (by decide) fun hfunds => ?_
  exact .commit (.send hb hpl (of_decide_eq_true hwork) (of_decide_eq_true hfunds))

theorem changeBlock_visit (hb : b.hashables = .changeBlock previous representative) :
    Visit p l b tag (l.changeBlock p { verified := tag } b previous representative) := by
  refine .legacy (by rw [hb]; rfl) (by rw [hb]; rfl) (by decide) (by decide) (by decide) fun hpl _ => ?_
  refine .check .given (by decide) fun hwork => ?_
  exact .commit (.change hb hpl (of_decide_eq_true hwork))

theorem receiveBlock_visit (hb : b.hashables = .receiveBlock previous source) :
    Visit p l b tag (l.receiveBlock p { verified := tag } b previous source) := by
  refine .legacy (by rw [hb]; rfl) (by rw [hb]; rfl) (by decide) (by decide)
    (by split <;> decide) fun hpl htag => ?_
  refine .check htag (by decide) fun hsrc => ?_
  refine .check htag (by decide) fun hhead => ?_
  split
  · exact .unreceivable htag
  rename_i pend hget
  refine .check htag (by decide) fun hep => ?_
  refine .check htag (by decide) fun hwork => ?_
  exact .commit (.receive hb hpl (of_decide_eq_true hwork) hsrc (eq_of_beq hhead) hget
    (eq_of_beq hep))

theorem openBlock_visit (hb : b.hashables = .openBlock source representative account) :
    Visit p l b tag (l.openBlock p { verified := tag } b source representative account) := by
  have ht : b.hashables.type = BlockType.open := by rw [hb]; rfl
  refine .check .given (by decide) fun hfresh => ?_
  have hfresh : l.blockExistsType b.hashables.type (p.hash b) = false := by
    rw [ht]
    exact Bool.eq_false_of_not_eq_true' hfresh
  refine .check .given (by decide) fun hsig => ?_
  have htag : Tags p l b tag .valid := .valid (by rw [home_open hb]; exact hsig) (.inl ht)
  refine .check htag (by decide) fun hsrc => ?_
  refine .require (fun hsome => ⟨by simp, htag, fun _ => ⟨hfresh, .inl ⟨.inl ht, ?_, ?_⟩⟩⟩)
    fun hnone => ?_
  · rw [hb]; rfl
  · rw [hb]; simpa [Hashables.account] using hsome
  split
  · exact .unreceivable htag
  rename_i pend hget
  refine .check htag (by decide) fun hne => ?_
  refine .check htag (by decide) fun hep => ?_
  refine .check htag (by decide) fun hwork => ?_
  exact .commit (.opens hb hfresh hsig (of_decide_eq_true hwork) hsrc
    (isNone_iff_eq_none.1 hnone) hget (bne_iff_ne.1 hne) (eq_of_beq hep))

/-! ## State blocks -/

section

variable (hb : b.hashables = .stateBlock account previous representative balance link)
include hb

theorem forked_state (hfresh : l.blockExistsType b.hashables.type (p.hash b) = false)
    (hopen : (l.accountGet account).isSome) (hprev : previous = 0 ∨ l.blockExists previous) :
    Forked p l b := by
  refine ⟨hfresh, hprev.imp (fun hz => ⟨?_, ?_, ?_⟩) fun hex => ⟨?_, ?_⟩⟩ <;> rw [hb]
  · exact .inr rfl
  · exact hz
  · exact hopen
  · simp [Hashables.type]
  · exact hex

theorem stateBlockImpl_visit
    (hordinary : p.isEpochLink link → ∃ x, l.balance previous = some x ∧ balance ≠ x) :
    Visit p l b tag (l.stateBlockImpl p { verified := tag } b account previous representative balance
      link) := by
  have ht : b.hashables.type = .state := by rw [hb]; rfl
  refine .check .given (by decide) fun hfresh => ?_
  have hfresh : l.blockExistsType b.hashables.type (p.hash b) = false := by
    rw [ht]
    exact Bool.eq_false_of_not_eq_true' hfresh
  refine .check .given (by decide) fun hsig => ?_
  have htag : Tags p l b tag .valid := .valid (by rw [home_state hb]; exact hsig) (.inr (.inl ht))
  refine .check htag (by decide) fun hne => ?_
  -- the last check is the same for everything that a state block can do
  have hwork {info : AccountInfo} {det : BlockDetails}
      (hpl : StatePlace l account previous link info)
      (hdoes : StateDoes l account balance link info det) :
      Visit p l b tag (l.stateWork p (stateReturn info balance det.isSend) b account
        representative balance link info det) := by
    refine .check htag (by decide) fun hw => .commit ?_
    exact .state hb hfresh hsig (bne_iff_ne.1 hne) hordinary hpl hdoes (of_decide_eq_true hw)
  have hrcv {info : AccountInfo} (hpl : StatePlace l account previous link info)
      (hge : ¬ balance < info.balance) (hlink : link ≠ 0) :
      Visit p l b tag (l.stateLink p (stateReturn info balance false) b account representative
        balance link info false true) := by
    unfold stateLink
    rw [if_neg Bool.false_ne_true, if_pos hlink]
    refine .check htag (by decide) fun hsrc => ?_
    split
    · exact .unreceivable htag
    rename_i pend hget
    refine .check htag (by decide) fun hamt => ?_
    exact hwork hpl (.receive hge hlink hsrc hget (eq_of_beq hamt))
  split
  · rename_i info hinfo
    have hopen : (l.accountGet account).isSome := isSome_of_eq_some hinfo
    refine .require (fun hz => ⟨by simp, htag, fun _ => ?_⟩) fun hprev => ?_
    · exact forked_state hb hfresh hopen (.inl (bne_eq_false_iff_eq.1 hz))
    refine .check htag (by decide) fun hst => ?_
    refine .require (fun _ => ⟨by simp, htag, fun _ => ?_⟩) fun hhead => ?_
    · exact forked_state hb hfresh hopen (.inr hst)
    have hpl : StatePlace l account previous link info :=
      .opened hinfo (bne_iff_ne.1 hprev) hst (eq_of_beq hhead)
    by_cases hlt : balance < info.balance
    · simp only [decide_eq_true hlt]
      exact hwork hpl (.send hlt)
    · simp only [decide_eq_false hlt, Bool.not_false, Bool.true_and, Bool.false_eq_true, if_false]
      by_cases hlink : link = 0
      · unfold stateLink
        simp only [hlink, bne_self_eq_false, Bool.false_eq_true, if_false, ne_eq, not_true]
        refine .check htag (by decide) fun hsame => ?_
        subst hlink
        exact hwork hpl (.change rfl (sub_eq_zero.1 (eq_of_beq hsame)))
      · rw [show (link != 0) = true from bne_iff_ne.2 hlink]
        exact hrcv hpl hlt hlink
  · rename_i hnone
    refine .check htag (by decide) fun hprev => ?_
    refine .check htag (by decide) fun hlink => ?_
    have := hrcv (.unopened hnone (eq_of_beq hprev) (bne_iff_ne.1 hlink)) BitVec.not_lt_zero
      (bne_iff_ne.1 hlink)
    simpa [stateReturn] using this

theorem epochBlockImpl_visit (hlink : p.isEpochLink link)
    (hblw : previous = 0 ∨ l.blockExists previous) (hkeeps : l.balance previous = some balance) :
    Visit p l b tag (l.epochBlockImpl p { verified := tag } b account previous representative balance
      link) := by
  obtain ⟨i, hi⟩ := exists_epochInfo hlink
  unfold epochBlockImpl
  rw [hi]
  refine .check .given (by decide) fun hfresh => ?_
  have hfresh : l.blockExistsType b.hashables.type (p.hash b) = false := by
    rw [hb]
    exact Bool.eq_false_of_not_eq_true' hfresh
  refine .check .given (by decide) fun hsig => ?_
  have htag : Tags p l b tag .validEpoch := .epoch (by rw [hb]; exact hi) hsig
  refine .check htag (by decide) fun hne => ?_
  have hupg {info : AccountInfo} {valid : Bool}
      (hpl : valid = true → EpochPlace l account previous representative i.epoch info) :
      Visit p l b tag (l.epochUpgrade p { verified := .validEpoch, previousBalance := info.balance }
        b account representative balance info i.epoch valid) := by
    refine .check htag (by decide) fun hval => ?_
    refine .check htag (by decide) fun hsame => ?_
    refine .check htag (by decide) fun hwork => ?_
    exact .commit (.epoch hb hfresh hlink hi hsig (bne_iff_ne.1 hne) hblw hkeeps
      (hpl hval) (eq_of_beq hsame) (of_decide_eq_true hwork))
  split
  · rename_i info hinfo
    have hfork := forked_state hb hfresh (isSome_of_eq_some hinfo) hblw
    refine .require (fun _ => ⟨by simp, htag, fun _ => hfork⟩) fun hprev => ?_
    refine .require (fun _ => ⟨by simp, htag, fun _ => hfork⟩) fun hhead => ?_
    refine .check htag (by decide) fun hrep => ?_
    exact hupg (.opened hinfo (bne_iff_ne.1 hprev) (eq_of_beq hhead) (eq_of_beq hrep))
  · rename_i hnone
    refine .check htag (by decide) fun hrep => ?_
    refine .check htag (by decide) fun hpnd => ?_
    exact hupg fun hlater => .unopened hnone (eq_of_beq hrep) hpnd (of_decide_eq_true hlater)

theorem stateBlock_visit :
    Visit p l b tag (l.stateBlock p { verified := tag } b account previous representative balance
      link) := by
  unfold Ledger.stateBlock
  dsimp only
  split
  · rename_i hlink
    cases hv : l.validateEpochBlock p { verified := tag } b account previous balance link with
    | none =>
      obtain ⟨i, hi⟩ := exists_epochInfo hlink
      have hprev : b.hashables.previous = previous := by rw [hb]; rfl
      unfold validateEpochBlock at hv
      rw [hi] at hv
      split at hv
      · cases hv
      split at hv
      · rename_i hst
        refine .stop (hprev ▸ hst) ?_
        rw [hprev]
        exact not_isSome_iff_eq_none.1 fun h => by
          obtain ⟨x, hx⟩ := isSome_iff_exists.1 h
          rw [hx] at hv
          cases hv
      · dsimp only [bind_eq_bind, bind_some] at hv
        split_ifs at hv
    | some v =>
      obtain ⟨flag, r⟩ := v
      dsimp only [bind_eq_bind, bind_some]
      rcases validateEpochBlock_cases hv with ⟨rfl, rfl, rfl⟩ | ⟨hex, ⟨x, hx, rfl⟩, rfl⟩ | ⟨-, -, hgap⟩
      · rw [if_pos rfl]
        split
        · rename_i hflag
          exact epochBlockImpl_visit hb hlink (.inl rfl) (by rw [eq_of_beq hflag]; rfl)
        · rename_i hflag
          exact stateBlockImpl_visit hb fun _ => ⟨0, rfl, fun h => hflag (beq_iff_eq.2 h)⟩
      · rw [if_pos rfl]
        split
        · rename_i hflag
          exact epochBlockImpl_visit hb hlink (.inr hex) (by rw [eq_of_beq hflag]; exact hx)
        · rename_i hflag
          exact stateBlockImpl_visit hb fun _ => ⟨x, hx, fun h => hflag (beq_iff_eq.2 h)⟩
      · have ht : b.hashables.type = .state := by rw [hb]; rfl
        rcases hgap with ⟨-, rfl⟩ | ⟨hs, rfl⟩ | ⟨⟨i, hi, hs⟩, rfl⟩ | ⟨-, rfl⟩ <;>
          refine .reject ⟨by simp, ?_, fun hf => by cases hf⟩
        · exact .given
        · refine .valid ?_ (.inr (.inl ht))
          rw [Checked, home_state hb, hs]
          exact Bool.or_true _
        · refine .epoch (by rw [hb]; exact hi) ?_
          rw [Checked, hs]
          exact Bool.or_true _
        · exact .invalid
  · rename_i hlink
    exact stateBlockImpl_visit hb fun h => absurd h hlink

end

/-! ## All blocks -/

theorem visit_cases (p : Params) (l : Ledger) (b : Block) (tag : SignatureVerification) :
    Visit p l b tag (l.visit p b tag) := by
  unfold Ledger.visit
  dsimp only
  split
  · rename_i hb; exact sendBlock_visit hb
  · rename_i hb; exact receiveBlock_visit hb
  · rename_i hb; exact openBlock_visit hb
  · rename_i hb; exact changeBlock_visit hb
  · rename_i hb; exact stateBlock_visit hb

theorem Returns.visit {Q : ProcessReturn → Ledger → Prop}
    (hreject : ∀ r, Rejected p l b tag r → Q r l)
    (hcommit : ∀ x, Passed p l b tag x → Returns x Q) : Returns (l.visit p b tag) Q := by
  generalize hx : l.visit p b tag = x
  cases hx ▸ visit_cases p l b tag with
  | stop => intro r l' h; cases h
  | reject h => exact .some (hreject _ h)
  | commit h => exact hcommit _ h

theorem OnFrontier.accepted {r : ProcessReturn} (h : OnFrontier p l b tag)
    (hcode : r.code = .progress) (hval : r.verified = .valid)
    (hacc : r.account = l.frontierGet b.hashables.previous) : Accepted p l b tag r := by
  refine ⟨hcode, hacc.trans h.home.symm, ?_, .inl hval⟩
  rw [hval]
  exact .valid (by rw [h.home]; exact h.signed) (.inr (.inr h.frontier))

theorem Passed.accepted (h : Passed p l b tag x) : Returns x fun r _ => Accepted p l b tag r := by
  cases h with
  | send hb place =>
    refine .bind fun _ _ => .bind fun _ _ => .bind fun _ _ => .some ?_
    exact place.accepted rfl rfl (by rw [hb]; rfl)
  | change hb place | receive hb place =>
    refine .bind fun _ _ => .bind fun _ _ => .bind fun _ _ => .bind fun _ _ => .some ?_
    exact place.accepted rfl rfl (by rw [hb]; rfl)
  | opens hb _ signed =>
    refine .bind fun _ _ => .bind fun _ _ => .bind fun _ _ => .some ?_
    have hhome := home_open hb l
    exact ⟨rfl, hhome.symm, .valid (hhome ▸ signed) (.inl (by rw [hb]; rfl)), .inl rfl⟩
  | state hb _ signed =>
    refine .bind fun _ _ => .bind fun _ _ => .bind fun _ _ => .bind fun _ _ => .some ?_
    have hhome := home_state hb l
    exact ⟨rfl, hhome.symm, .valid (hhome ▸ signed) (.inr (.inl (by rw [hb]; rfl))), .inl rfl⟩
  | epoch hb _ isLink epochInfo signed _ _ keeps =>
    refine .bind fun _ _ => .bind fun _ _ => .bind fun _ _ => .some ?_
    refine ⟨rfl, (home_state hb l).symm, .epoch (by rw [hb]; exact epochInfo) signed, .inr ⟨rfl, ?_⟩⟩
    rw [EpochBlock, hb]
    exact ⟨rfl, isLink, _, rfl, keeps⟩

/-! ## The checks are complete -/

theorem StatePlace.below {info : AccountInfo} (h : StatePlace l account previous link info) :
    previous = 0 ∨ l.blockExists previous := by
  cases h with
  | opened _ _ stored _ => exact .inr stored
  | unopened _ zero _ => exact .inl zero

theorem validateEpochBlock_eq (hblw : previous = 0 ∨ l.blockExists previous) {x : Amount}
    (hx : l.balance previous = some x) :
    l.validateEpochBlock p { verified := tag } b account previous balance link =
      some (balance == x, { verified := tag }) := by
  unfold validateEpochBlock
  by_cases hz : previous = 0
  · subst hz
    cases hx
    rfl
  · rw [if_neg hz, if_pos (hblw.resolve_left hz), hx]
    rfl

theorem stateBlock_eq (hblw : previous = 0 ∨ l.blockExists previous)
    (hordinary : p.isEpochLink link → ∃ x, l.balance previous = some x ∧ balance ≠ x) :
    l.stateBlock p { verified := tag } b account previous representative balance link =
      l.stateBlockImpl p { verified := tag } b account previous representative balance link := by
  unfold Ledger.stateBlock
  dsimp only
  split
  · rename_i hlink
    obtain ⟨x, hx, hne⟩ := hordinary hlink
    rw [validateEpochBlock_eq hblw hx, beq_eq_false_iff_ne.2 hne]
    rfl
  · rfl

theorem Passed.visit_eq (h : Passed p l b tag x) : l.visit p b tag = x := by
  unfold Ledger.visit
  cases h with
  | send hb place | change hb place | receive hb place =>
    obtain ⟨hfresh, ⟨prev, hget, hval⟩, hfro, hsig, -⟩ := place
    rw [hb] at hfresh hget hval hfro hsig
    simp_all [Ledger.sendBlock, Ledger.changeBlock, Ledger.receiveBlock, Ledger.require,
      Hashables.previous, Hashables.type, Checked]
  | opens hb fresh =>
    rw [hb] at fresh
    simp_all [Ledger.openBlock, Ledger.require, Hashables.type, Checked]
  | state hb fresh signed ne ordinary place does work =>
    rw [hb] at fresh ⊢
    dsimp only
    rw [stateBlock_eq place.below ordinary, stateBlockImpl]
    cases place <;> cases does <;>
      simp_all [stateLink, stateWork, Ledger.require, Hashables.type, Checked,
        stateReturn, bne, beq_eq_decide, -BitVec.not_lt]
  | epoch hb fresh isLink epochInfo signed ne below keeps place same work =>
    rw [hb] at fresh ⊢
    dsimp only
    rw [Ledger.stateBlock, if_pos isLink, validateEpochBlock_eq below keeps, beq_self_eq_true]
    cases place <;>
      simp_all [epochBlockImpl, epochUpgrade, Ledger.require, Hashables.type, Checked]

end

end Futurehead
