import Futurehead.Ledger.Checked
import Futurehead.Ledger.Epochs
import Futurehead.Wallet.Keys

/-!
# Blocks made by the wallet (`wallet::send_action`, `receive_action`, `change_action`)

An action reads the ledger and the wallet store, builds a state block with the details that it
expects the ledger to give to the block, generates work for these details if the work at hand is not
enough, and has the block processed. A send with an id first looks for a block that was made with
the same id.
-/

namespace Futurehead

open BitVec

variable {account representative : Account} {amount minimum : Amount} {work : BitVec 64}
  {ids : Table Text BlockHash} {shift : Account → Amount}

def Ledger.accountBalance (l : Ledger) (account : Account) : Amount :=
  ((l.accountGet account).map (·.balance)).getD 0

/-- `ledger::block_destination` of a block with its sideband, which says whether a state block
sends. -/
def Ledger.blockDestination (b : StoredBlock) : Account :=
  match b.block.hashables with
  | .sendBlock _ destination _ => destination
  | .stateBlock _ _ _ _ link => if Ledger.isSend b then link else 0
  | _ => 0

/-- `block_work_set`. -/
def Block.workSet (b : Block) (work : BitVec 64) : Block := ⟨b.hashables, b.signature, work⟩

/-- `work_get`: without a key the work stays as it is. -/
def WalletStore.workGet (s : WalletStore) (pub : Account) (work : BitVec 64) : BitVec 64 :=
  let entry := s.entryGetRaw pub
  if entry.key ≠ 0 then entry.work else work

/-- The work of a new block: what is given, or else what the store has. -/
def WalletStore.workOr (s : WalletStore) (pub : Account) (work : BitVec 64) : BitVec 64 :=
  if work = 0 then s.workGet pub work else work

/-- The constructor of `state_block` that signs. -/
def signedStateBlock (p : Params) (c : Crypto) (account : Account) (previous : BlockHash)
    (representative : Account) (balance : Amount) (link : Link) (prv : RawKey) (pub : Account)
    (work : BitVec 64) : Block :=
  let hashables := Hashables.stateBlock account previous representative balance link
  ⟨hashables, c.signMessage prv pub (p.blake2b hashables.hashInput), work⟩

/-- A block with the details that are expected for it, and its account. -/
structure Built where
  block : Block
  account : Account
  details : BlockDetails
  deriving DecidableEq

/-- What `prepare_send` returns. -/
structure Prepared where
  block : Option Block := none
  error : Bool := false
  cachedBlock : Bool := false
  details : BlockDetails := { isSend := true }

/-- The operations on the table of send ids that fail. -/
structure Failures where
  get : Bool := false
  put : Bool := false

/-- What a wallet is asked for. The block to be received has its sideband. -/
inductive Order where
  | send (source destination : Account) (amount : Amount) (work : BitVec 64) (id : Option Text)
  | receive (source : StoredBlock) (representative : Account) (amount : Amount) (work : BitVec 64)
  | change (source representative : Account) (work : BitVec 64)

section

variable (p : Params) (c : Crypto) (l : Ledger) (s : WalletStore) (memory : RawKey)

/-- The new block of `prepare_send`. -/
def buildSend (source destination : Account) (amount : Amount) (work : BitVec 64) : Option Built :=
  if s.validPassword c ∧ s.entries.contains source then
    let balance := l.accountBalance source
    if balance ≠ 0 ∧ amount ≤ balance then
      let info := (l.accountGet source).getD {}
      let prv := (s.fetch c source memory).2
      some ⟨signedStateBlock p c source info.head info.representative (balance - amount) destination
        prv source (s.workOr source work), source, ⟨info.epoch, true, false, false⟩⟩
    else none
  else none

/-- `prepare_send` in `send_action`, with the table of send ids before and after. -/
def prepareSend (ids : Table Text BlockHash) (failures : Failures) (source destination : Account)
    (amount : Amount) (work : BitVec 64) (id : Option Text) : Prepared × Table Text BlockHash :=
  if id.isSome && failures.get then ({ error := true }, ids)
  else
    match id.bind fun id => (ids.lookup id).bind l.blockGet with
    | some stored => ({ block := some stored.block, cachedBlock := true }, ids)
    | none =>
      match buildSend p c l s memory source destination amount work, id with
      | none, _ => ({}, ids)
      | some built, none => ({ block := some built.block, details := built.details }, ids)
      | some built, some id =>
        if failures.put then ({ error := true, details := built.details }, ids)
        else ({ block := some built.block, details := built.details },
          ids.insert id (p.hash built.block))

/-- `receive_action` up to `action_complete`. -/
def buildReceive (receiveMinimum : Amount) (send : StoredBlock) (representative : Account)
    (amount : Amount) (work : BitVec 64) : Option Built :=
  let hash := p.hash send.block
  if receiveMinimum ≤ amount ∧ l.blockExists hash then
    let account := Ledger.blockDestination send
    match l.pendingGet ⟨account, hash⟩ with
    | none => none
    | some pending =>
      let (error, prv) := s.fetch c account memory
      if error then none
      else
        let work := s.workOr account work
        match l.accountGet account with
        | some info =>
          some ⟨signedStateBlock p c account info.head info.representative
              (info.balance + pending.amount) hash prv account work, account,
            ⟨info.epoch.max send.sideband.details.epoch, false, true, false⟩⟩
        | none =>
          some ⟨signedStateBlock p c account 0 representative pending.amount hash prv account work,
            account, ⟨send.sideband.details.epoch, false, true, false⟩⟩
  else none

/-- `change_action` up to `action_complete`. -/
def buildChange (source representative : Account) (work : BitVec 64) : Option Built :=
  if s.validPassword c ∧ s.entries.contains source ∧ l.latest source ≠ 0 then
    let info := (l.accountGet source).getD {}
    let prv := (s.fetch c source memory).2
    some ⟨signedStateBlock p c source info.head representative info.balance 0 prv source
      (s.workOr source work), source, { epoch := info.epoch }⟩
  else none

/-- The block that an action gives to `action_complete`. -/
def Order.build (receiveMinimum : Amount) (ids : Table Text BlockHash) (failures : Failures) :
    Order → Option Built
  | .send source destination amount work id =>
    let prepared := (prepareSend p c l s memory ids failures source destination amount work id).1
    if !prepared.error && !prepared.cachedBlock then
      prepared.block.map fun block => ⟨block, source, prepared.details⟩
    else none
  | .receive source representative amount work =>
    buildReceive p c l s memory receiveMinimum source representative amount work
  | .change source representative work => buildChange p c l s memory source representative work

end

/-! ## The place of the block -/

/-- A send moves something, and a block that is to be received comes from the ledger. -/
def Order.Sound (p : Params) (l : Ledger) : Order → Prop
  | .send _ _ amount _ _ => amount ≠ 0
  | .receive source _ _ _ => l.blockGet (p.hash source.block) = some source
  | .change .. => True

/-- The ledger accepts the block and gives it these details. -/
def Ledger.AcceptsWith (p : Params) (l : Ledger) (b : Block) (details : BlockDetails) : Prop :=
  ∃ r l' stored, l.process p b .unknown = some (r, l') ∧ r.code = .progress ∧
    l'.blockGet (p.hash b) = some stored ∧ stored.block = b ∧ stored.sideband.details = details

section

variable {p : Params} {known : Block → Prop} {c : Crypto} {l : Ledger} {s : WalletStore}
  {memory : RawKey} {L : Lattice p known}

/-- A block of the account that is signed with the key `prv` and fits on the chain, with the details
that are expected. -/
structure Placed (c : Crypto) (L : Lattice p known) (b : Block) (account : Account)
    (details : BlockDetails) (prv : RawKey) : Prop where
  type : b.hashables.type = .state
  signature : b.signature = c.signMessage prv account (p.hash b)
  not_epoch : details.isEpoch = false
  opens : L.chain account = [] → b.hashables.kind p 0 ≠ .neutral
  fits : ∃ balance amount epoch, L.Pushable account ⟨b, balance, details⟩ amount epoch

variable {source destination : Account}
  {failures : Failures} {id : Option Text}

theorem prepareSend_cases {prepared : Prepared} {ids' : Table Text BlockHash}
    (h : prepareSend p c l s memory ids failures source destination amount work id =
      (prepared, ids')) :
    (∃ stored, (id.bind fun id => (ids.lookup id).bind l.blockGet) = some stored ∧
      prepared = { block := some stored.block, cachedBlock := true } ∧ ids' = ids) ∨
    (prepared.block = none ∧ ids' = ids) ∨
    (∃ built, buildSend p c l s memory source destination amount work = some built ∧
      (id.bind fun id => (ids.lookup id).bind l.blockGet) = none ∧
      prepared = { block := some built.block, details := built.details } ∧
      ids' = id.elim ids fun id => ids.insert id (p.hash built.block)) := by
  unfold prepareSend at h
  split at h
  · cases h
    exact .inr (.inl ⟨rfl, rfl⟩)
  · split at h
    · rename_i stored hst
      cases h
      exact .inl ⟨stored, hst, rfl, rfl⟩
    · rename_i hnone
      split at h
      · cases h
        exact .inr (.inl ⟨rfl, rfl⟩)
      · rename_i built hbt _
        cases h
        exact .inr (.inr ⟨built, hbt, hnone, rfl, rfl⟩)
      · rename_i built id hbt _
        split at h <;> cases h
        · exact .inr (.inl ⟨rfl, rfl⟩)
        · exact .inr (.inr ⟨built, hbt, hnone, rfl, rfl⟩)

theorem buildSend_eq_some {built : Built}
    (h : buildSend p c l s memory source destination amount work = some built) :
    ∃ info, l.accountGet source = some info ∧ amount ≤ info.balance ∧ built =
      ⟨signedStateBlock p c source info.head info.representative (info.balance - amount) destination
        (s.fetch c source memory).2 source (s.workOr source work), source,
        ⟨info.epoch, true, false, false⟩⟩ := by
  unfold buildSend at h
  split at h
  · dsimp only at h
    split at h
    · rename_i hbal
      unfold Ledger.accountBalance at hbal h
      cases hinfo : l.accountGet source with
      | none => rw [hinfo] at hbal; exact absurd rfl hbal.1
      | some info =>
        rw [hinfo] at hbal h
        exact ⟨info, rfl, hbal.2, (Option.some.inj h).symm⟩
    · cases h
  · cases h

theorem buildSend_of_build {built : Built} (h : Order.build p c l s memory minimum ids failures
      (.send source destination amount work id) = some built) :
    buildSend p c l s memory source destination amount work = some built := by
  dsimp only [Order.build] at h
  cases hprep : prepareSend p c l s memory ids failures source destination amount work id with
  | mk prepared ids' =>
    rw [hprep] at h
    dsimp only at h
    split at h
    · rename_i hnew
      obtain ⟨block, hblk, rfl⟩ := Option.map_eq_some_iff.1 h
      rcases prepareSend_cases hprep with ⟨stored, -, rfl, -⟩ | ⟨hnone, -⟩ |
        ⟨built, hbt, -, rfl, -⟩
      · cases hnew
      · rw [hnone] at hblk
        cases hblk
      · cases hblk
        obtain ⟨info, -, -, rfl⟩ := buildSend_eq_some hbt
        exact hbt
    · cases h

theorem buildReceive_eq_some {source : StoredBlock} {built : Built}
    (h : buildReceive p c l s memory minimum source representative amount work = some built) :
    ∃ account pend, account = Ledger.blockDestination source ∧
      l.pendingGet ⟨account, p.hash source.block⟩ = some pend ∧
      (s.fetch c account memory).1 = false ∧
      ((∃ info, l.accountGet account = some info ∧ built =
        ⟨signedStateBlock p c account info.head info.representative (info.balance + pend.amount)
          (p.hash source.block) (s.fetch c account memory).2 account (s.workOr account work), account,
          ⟨info.epoch.max source.sideband.details.epoch, false, true, false⟩⟩) ∨
      (l.accountGet account = none ∧ built =
        ⟨signedStateBlock p c account 0 representative pend.amount (p.hash source.block)
          (s.fetch c account memory).2 account (s.workOr account work), account,
          ⟨source.sideband.details.epoch, false, true, false⟩⟩)) := by
  unfold buildReceive at h
  dsimp only at h
  split at h
  · split at h
    · cases h
    · rename_i pend hpend
      split at h
      · cases h
      · rename_i hfet
        refine ⟨_, pend, rfl, hpend, Bool.eq_false_of_not_eq_true hfet, ?_⟩
        split at h
        · rename_i info hinfo
          exact .inl ⟨info, hinfo, (Option.some.inj h).symm⟩
        · rename_i hinfo
          exact .inr ⟨hinfo, (Option.some.inj h).symm⟩
  · cases h

theorem buildChange_eq_some {built : Built}
    (h : buildChange p c l s memory source representative work = some built) :
    ∃ info, l.accountGet source = some info ∧ built =
      ⟨signedStateBlock p c source info.head representative info.balance 0
        (s.fetch c source memory).2 source (s.workOr source work), source,
        { epoch := info.epoch }⟩ := by
  unfold buildChange at h
  dsimp only at h
  split at h
  · rename_i hopen
    unfold Ledger.latest at hopen
    cases hinfo : l.accountGet source with
    | none => rw [hinfo] at hopen; exact absurd rfl hopen.2.2
    | some info =>
      rw [hinfo] at h
      exact ⟨info, rfl, (Option.some.inj h).symm⟩
  · cases h

variable (H : HashAssumptions p known) (h : Represents l L shift) {b : Block} {built : Built}
  (hb : b.hashables = built.block.hashables) (hs : b.signature = built.block.signature)
  (hkn : known b)

include H h hb hs hkn

theorem placed_send (hamt : amount ≠ 0)
    (hbt : buildSend p c l s memory source destination amount work = some built) :
    Placed c L b built.account built.details (s.fetch c built.account memory).2 := by
  obtain ⟨info, hinfo, hle, rfl⟩ := buildSend_eq_some hbt
  obtain ⟨hne, rfl⟩ := accountGet_some h.accounts hinfo
  have hlt : chainBal (L.chain source) - amount < chainBal (L.chain source) := by
    have hle : amount.toNat ≤ (chainBal (L.chain source)).toNat := le_def.1 hle
    have hpos : amount.toNat ≠ 0 := fun hzero => hamt (eq_of_toNat_eq hzero)
    rw [lt_def, toNat_sub_of_le (le_def.2 hle)]
    omega
  exact {
    type := by rw [hb]; rfl
    signature := by rw [hs]; unfold Params.hash; rw [hb]; rfl
    not_epoch := rfl
    opens := fun hnil => absurd hnil hne
    fits := ⟨_, _, _, pushable_stateSend H hkn (Lattice.ne_zero_of_open hne) hb rfl hlt⟩ }

theorem placed_change (hbt : buildChange p c l s memory source representative work = some built) :
    Placed c L b built.account built.details (s.fetch c built.account memory).2 := by
  obtain ⟨info, hinfo, rfl⟩ := buildChange_eq_some hbt
  obtain ⟨hne, rfl⟩ := accountGet_some h.accounts hinfo
  exact {
    type := by rw [hb]; rfl
    signature := by rw [hs]; unfold Params.hash; rw [hb]; rfl
    not_epoch := rfl
    opens := fun hnil => absurd hnil hne
    fits := ⟨_, _, _, pushable_stateChange H hkn (Lattice.ne_zero_of_open hne) hb rfl rfl rfl⟩ }

omit hb hs hkn in
theorem pending_epoch {source : StoredBlock} {pend : PendingInfo}
    (hsrc : l.blockGet (p.hash source.block) = some source)
    (hpend : l.pendingGet ⟨account, p.hash source.block⟩ = some pend) :
    source.sideband.details.epoch = pend.epoch ∧ Epoch.epoch0.max pend.epoch = pend.epoch := by
  obtain ⟨⟨y, e, d, hat, hh, -, -, hep⟩, -⟩ := sends_of_pending h.pending hpend
  obtain ⟨_, _, hx⟩ := Lattice.extends_at hat
  rw [← hh, blockGet_at H h.blocks hat] at hsrc
  obtain rfl := Option.some.inj hsrc
  rw [hx.stored_details, hep]
  refine ⟨rfl, ?_⟩
  have hle := epoch0_le hat
  unfold Epoch.max
  split
  · rfl
  · rename_i hnlt
    have hnat : e.details.epoch.toNat = 2 := le_antisymm (not_lt.1 hnlt) hle
    cases hd : e.details.epoch <;> simp_all [Epoch.toNat]

theorem placed_receive {source : StoredBlock} (hzero : ∀ prv, c.pubKey prv ≠ 0)
    (hsrc : l.blockGet (p.hash source.block) = some source)
    (hbt : buildReceive p c l s memory minimum source representative amount work = some built) :
    Placed c L b built.account built.details (s.fetch c built.account memory).2 := by
  obtain ⟨account, pend, -, hpend, hfet, hcases⟩ := buildReceive_eq_some hbt
  obtain ⟨hep, hmax⟩ := pending_epoch H h hsrc hpend
  obtain ⟨hsends, -⟩ := sends_of_pending h.pending hpend
  obtain ⟨hne, hlink, -⟩ := not_epochLink_of_sends H hsends
  rcases hcases with ⟨info, hinfo, rfl⟩ | ⟨hnone, rfl⟩
  · obtain ⟨hopen, rfl⟩ := accountGet_some h.accounts hinfo
    have hsum : (chainBal (L.chain account) + pend.amount).toNat =
        (chainBal (L.chain account)).toNat + pend.amount.toNat :=
      toNat_add_of_lt (h.balance_add_pending_lt account hpend)
    have hle : ¬ chainBal (L.chain account) + pend.amount < chainBal (L.chain account) := by
      rw [lt_def, hsum]
      omega
    have hp := pushable_stateReceive H hkn (Lattice.ne_zero_of_open hopen) hb rfl h.pending hle
      hpend (add_sub_cancel_left (chainBal (L.chain account)) pend.amount)
    rw [← hep] at hp
    exact {
      type := by rw [hb]; rfl
      signature := by rw [hs]; unfold Params.hash; rw [hb]; rfl
      not_epoch := rfl
      opens := fun hnil => absurd hnil hopen
      fits := ⟨_, _, _, hp⟩ }
  · have hnil : L.chain account = [] := chain_eq_nil h.accounts hnone
    have hacc : account ≠ 0 := by
      rw [← WalletStore.pubKey_of_fetch hfet]
      exact hzero _
    have hp := pushable_stateReceive H hkn hacc hb (by rw [hnil]; rfl) h.pending
      (by rw [hnil]; exact BitVec.not_lt_zero) hpend (by rw [hnil]; exact sub_zero _)
    rw [hnil, show chainEpoch [] = .epoch0 from rfl, hmax, ← hep] at hp
    exact {
      type := by rw [hb]; rfl
      signature := by rw [hs]; unfold Params.hash; rw [hb]; rfl
      not_epoch := rfl
      opens := fun _ => by
        rw [hb]
        unfold signedStateBlock Hashables.kind
        simp only [hlink, Bool.false_eq_true, or_false]
        rw [if_neg hne]
        split <;> simp
      fits := ⟨_, _, _, hp⟩ }

end

/-! ## Acceptance -/

/-- What is assumed of signatures: those made with the key of the account are valid, and the burn
account has no key. -/
structure Crypto.Signs (c : Crypto) (p : Params) : Prop where
  validate : ∀ prv hash,
    p.validateMessage (c.pubKey prv) hash (c.signMessage prv (c.pubKey prv) hash) = false
  pubKey_ne_zero : ∀ prv, c.pubKey prv ≠ 0

section

variable {p : Params} {known : Block → Prop} {c : Crypto} {l : Ledger} {s : WalletStore}
  {memory : RawKey} {L : Lattice p known}
  (H : HashAssumptions p known) (A : c.Signs p) {b : Block}
  {details : BlockDetails} {prv : RawKey}

include H in
theorem Placed.accepted_iff (h : Represents l L shift) (hp : Placed c L b account details prv)
    (hwork : p.workThreshold details ≤ p.difficulty b) :
    l.AcceptsWith p b details ↔ p.validateMessage account (p.hash b) b.signature = false := by
  obtain ⟨bal, amount, epoch, hpush⟩ := hp.fits
  constructor
  · rintro ⟨r, l', -, hproc, hcode, -⟩
    have hg := kind_ne_genesis (p := p) (n := ⟨b, bal, details⟩) hp.type (L.chain account)
    exact (process_checked H hpush hg h r l' hproc hcode).signed_state hp.not_epoch
  · intro hsig
    have ha : Acceptable l L account ⟨b, bal, details⟩ amount epoch := {
      pushable := hpush
      not_genesis := kind_ne_genesis (n := ⟨b, bal, details⟩) hp.type _
      signed := by
        rw [Entry.signer, if_neg (by rw [hp.not_epoch]; exact Bool.false_ne_true)]
        exact hsig
      work := hwork
      opens := fun hnil hk => by
        rw [Entry.kind, hnil] at hk
        exact absurd hk (hp.opens hnil)
      representative := fun he => absurd he (hp.not_epoch ▸ Bool.false_ne_true)
      upgrade := fun he => absurd he (hp.not_epoch ▸ Bool.false_ne_true) }
    obtain ⟨r, l', hproc, hcode, hrep, -⟩ := process_acceptable H h ha .unknown
    have hat := (L.push_grows account ⟨b, bal, details⟩ hpush).at_new
    obtain ⟨_, _, hx⟩ := Lattice.extends_at hat
    exact ⟨r, l', _, hproc, hcode, blockGet_at H hrep.blocks hat, Entry.stored_block .., hx.stored_details _⟩

variable {failures : Failures}

include H in
theorem build_placed {order : Order} {built : Built} (hzero : ∀ prv, c.pubKey prv ≠ 0)
    (h : Represents l L shift) (hsnd : order.Sound p l)
    (hbt : order.build p c l s memory minimum ids failures = some built)
    (hb : b.hashables = built.block.hashables) (hs : b.signature = built.block.signature)
    (hkn : known b) :
    Placed c L b built.account built.details (s.fetch c built.account memory).2 := by
  cases order with
  | send source destination amount work id =>
    exact placed_send H h hb hs hkn hsnd (buildSend_of_build hbt)
  | receive source representative amount work =>
    exact placed_receive H h hb hs hkn hzero hsnd hbt
  | change source representative work => exact placed_change H h hb hs hkn hbt

theorem pubKey_of_receive {source : StoredBlock}
    {built : Built}
    (hbt : (Order.receive source representative amount work).build p c l s memory
      minimum ids failures = some built) :
    c.pubKey (s.fetch c built.account memory).2 = built.account := by
  obtain ⟨account, pend, -, -, hfet, ⟨info, -, rfl⟩ | ⟨-, rfl⟩⟩ := buildReceive_eq_some hbt
  · exact WalletStore.pubKey_of_fetch hfet
  · exact WalletStore.pubKey_of_fetch hfet

include H A in
/-- A block that an action builds is accepted on the same ledger, with the details that the wallet
expects and any work that is enough for them, exactly if `fetch` has left the key of its account: a
signature of this block with another key is taken to be invalid. For a receive it always has. -/
theorem build_accepted_iff (hl : Reached p known (NoForeignEpoch p) l) (s : WalletStore)
    (memory : RawKey) {failures : Failures}
    {order : Order} (hsnd : order.Sound p l) {built : Built}
    (hbt : order.build p c l s memory minimum ids failures = some built) (work : BitVec 64)
    (hkn : known (built.block.workSet work))
    (hwork : p.workThreshold built.details ≤ p.difficulty (built.block.workSet work))
    (hoth : c.pubKey (s.fetch c built.account memory).2 ≠ built.account →
      p.validateMessage built.account (p.hash built.block) built.block.signature) :
    (l.AcceptsWith p (built.block.workSet work) built.details ↔
      c.pubKey (s.fetch c built.account memory).2 = built.account) ∧
    (∀ source representative amount work', order = .receive source representative amount work' →
      l.AcceptsWith p (built.block.workSet work) built.details) := by
  obtain ⟨L, h⟩ := hl.holds H
  have hplaced := build_placed H A.pubKey_ne_zero h.represents hsnd hbt
    (b := built.block.workSet work) rfl rfl hkn
  have hsig : p.validateMessage built.account (p.hash built.block) built.block.signature = false ↔
      c.pubKey (s.fetch c built.account memory).2 = built.account := by
    constructor
    · intro hval
      by_contra hne
      exact Bool.false_ne_true (hval.symm.trans (hoth hne))
    · intro hkey
      have hval := A.validate (s.fetch c built.account memory).2 (p.hash built.block)
      rw [hkey] at hval
      exact (congrArg _ hplaced.signature).trans hval
  have hiff := (hplaced.accepted_iff H h.represents hwork).trans hsig
  refine ⟨hiff, ?_⟩
  rintro source representative amount work' rfl
  exact hiff.2 (pubKey_of_receive hbt)

end

namespace Sample

def signingKey (prv : RawKey) : Account := if prv + 1000 = 0 then 1 else prv + 1000

def signingCrypto : Crypto := { crypto with pubKey := signingKey }

/-- A signature holds the key and the message. -/
def checkSignature (account : Account) (hash : BlockHash) (signature : Signature) : Bool :=
  signingKey (signature.extractLsb' 256 256) != account || signature.extractLsb' 0 256 != hash

def signingParams : Params := { params with validateMessage := checkSignature }

theorem checkSignature_append (hash : BlockHash) (prv : RawKey) :
    checkSignature (signingKey prv) hash (prv ++ hash) = false := by
  unfold checkSignature
  rw [extractLsb'_append_eq_left, extractLsb'_append_eq_right, bne_self_eq_false,
    bne_self_eq_false, Bool.or_false]

theorem signingKey_ne_zero (prv : RawKey) : signingKey prv ≠ 0 := by
  unfold signingKey
  split
  · decide
  · assumption

theorem signs : signingCrypto.Signs signingParams := by
  have hkey : signingCrypto.pubKey = signingKey := by simp only [signingCrypto]
  have hvalidate : signingParams.validateMessage = checkSignature := by simp only [signingParams]
  have hsign (prv : RawKey) (account : Account) (hash : BlockHash) :
      signingCrypto.signMessage prv account hash = prv ++ hash := rfl
  constructor
  · intro prv hash
    rw [hkey, hvalidate, hsign]
    exact checkSignature_append hash prv
  · rw [hkey]
    exact signingKey_ne_zero

def sign (prv : RawKey) (h : Hashables) : Block :=
  ⟨h, signingCrypto.signMessage prv 0 (signingParams.blake2b h.hashInput), 0⟩

def sendW : Block := sign (-999) (.sendBlock (hash params.genesisBlock) 1005 (genesisAmount - 10))

def openW : Block := sign 5 (.stateBlock 1005 0 7 10 (hash sendW))

def forgedW : Block := sign 0 (.stateBlock 1005 (hash openW) 7 7 2000)

def payW : Block := sign 5 (.stateBlock 1005 (hash openW) 7 7 2000)

def signedBlocks : List Block := [params.genesisBlock, sendW, openW, forgedW, payW]

theorem signedAssumptions : HashAssumptions signingParams (· ∈ signedBlocks) :=
  hashAssumptions_of_list (by decide +kernel) (by decide) (by decide +kernel)

def signedRun (actions : List Action) : Option Ledger :=
  (Ledger.genesis signingParams).bind (Ledger.execAll signingParams 20 actions)

def walletW : WalletStore := ((WalletStore.new signingCrypto ∅ random 11).insertAdhoc signingCrypto 5).2

def watchW : WalletStore := ((WalletStore.new signingCrypto ∅ random 11).insertWatch 1005).2

end Sample

open Sample in
/-- The wallet receives what was sent to its account, which opens the account. -/
theorem build_accepted_open :
    ∃ l source, signedRun [put sendW] = some l ∧
      l.blockGet (signingParams.hash sendW) = some source ∧ source.block = sendW ∧
      (Order.receive source 7 10 0).build signingParams signingCrypto l walletW 0 0 ∅ {} =
        some ⟨openW, 1005, ⟨.epoch0, false, true, false⟩⟩ ∧
      l.AcceptsWith signingParams openW ⟨.epoch0, false, true, false⟩ := by
  obtain ⟨l, hl, source, hsrc, hblk, hbt⟩ : ∃ l ∈ signedRun [put sendW],
    ∃ source ∈ l.blockGet (signingParams.hash sendW), source.block = sendW ∧
    (Order.receive source 7 10 0).build signingParams signingCrypto l walletW 0 0 ∅ {} =
      some ⟨openW, 1005, ⟨.epoch0, false, true, false⟩⟩ := by decide +kernel
  have hl' : Reached signingParams (· ∈ signedBlocks) (NoForeignEpoch signingParams) l :=
    reached_of_no_epochLink (by decide +kernel) hl
  have hsnd : (Order.receive source 7 10 0).Sound signingParams l := by
    change l.blockGet (signingParams.hash source.block) = some source
    rw [hblk]
    exact hsrc
  refine ⟨l, source, hl, hsrc, hblk, hbt, ?_⟩
  exact (build_accepted_iff signedAssumptions signs hl' walletW 0 hsnd hbt 0 (by decide +kernel)
    (by decide +kernel) fun hne => absurd (pubKey_of_receive hbt) hne).2 _ _ _ _ rfl

open Sample in
/-- The wallet watches an account that has 10. It builds a send that is signed with what was in
memory, and the ledger rejects the block. -/
theorem send_rejected :
    HashAssumptions signingParams (· ∈ signedBlocks) ∧ signingCrypto.Signs signingParams ∧
    ∃ l, Reached signingParams (· ∈ signedBlocks) (NoForeignEpoch signingParams) l ∧
      watchW.validPassword signingCrypto ∧
      (Order.send 1005 2000 3 0 none).Sound signingParams l ∧
      (Order.send 1005 2000 3 0 none).build signingParams signingCrypto l watchW 0 0 ∅ {} =
        some ⟨forgedW, 1005, ⟨.epoch0, true, false, false⟩⟩ ∧
      signingParams.workThreshold ⟨.epoch0, true, false, false⟩ ≤ signingParams.difficulty forgedW ∧
      ∃ r l', l.process signingParams forgedW .unknown = some (r, l') ∧ r.code = .badSignature := by
  obtain ⟨l, hl, hbt, ⟨r, l'⟩, hproc, hcode⟩ : ∃ l ∈ signedRun [put sendW, put openW],
    (Order.send 1005 2000 3 0 none).build signingParams signingCrypto l watchW 0 0 ∅ {} =
      some ⟨forgedW, 1005, ⟨.epoch0, true, false, false⟩⟩ ∧
    ∃ x ∈ l.process signingParams forgedW .unknown, x.1.code = .badSignature := by decide +kernel
  exact ⟨signedAssumptions, signs, l, reached_of_no_epochLink (by decide +kernel) hl,
    by decide +kernel, (by decide : (3 : Amount) ≠ 0), hbt, by decide +kernel, r, l', hproc, hcode⟩

end Futurehead
