import Futurehead.Ledger.Determined

/-!
# Every valid block is accepted

`process_represents` says that an accepted block extends the lattice. This file has the other
direction: a block that extends the lattice, with the right signature and enough work, is accepted
(`process_acceptable`), whatever tag it comes with.
-/

namespace Futurehead

/-- The account whose signature an entry of `a` has to carry. -/
def Entry.signer (p : Params) (n : Entry) (a : Account) : Account :=
  if n.details.isEpoch then ((p.epochInfo n.block.hashables.link).map (·.signer)).getD 0 else a

/-- An entry that may be put on the chain of `a`, and that the ledger has no reason to reject. -/
structure Acceptable {p : Params} {known : Block → Prop} (l : Ledger) (L : Lattice p known)
    (a : Account) (n : Entry) (amount : Amount) (epoch : Epoch) : Prop where
  pushable : L.Pushable a n amount epoch
  not_genesis : n.kind p (L.chain a) ≠ .genesis
  signed : p.validateMessage (n.signer p a) (n.hash p) n.block.signature = false
  work : p.workThreshold n.details ≤ p.difficulty n.block
  /-- A block that opens an account receives, or is an epoch block. -/
  opens : L.chain a = [] → n.kind p (L.chain a) = .neutral → n.details.isEpoch = true
  /-- An epoch block keeps the representative. -/
  representative : n.details.isEpoch = true →
    n.block.hashables.representative = chainRep (L.chain a)
  /-- An epoch block opens an account for which something is pending, or starts the next epoch. -/
  upgrade : n.details.isEpoch = true → if L.chain a = [] then l.pendingAny a = true
    else (chainEpoch (L.chain a)).isSequential n.details.epoch = true

section

variable {p : Params} {known : Block → Prop} (H : HashAssumptions p known) {L : Lattice p known}
  {l : Ledger} {shift : Account → Amount} {a : Account} {n : Entry} {amount : Amount}
  {epoch : Epoch} {previous : BlockHash} {account representative : Account} {balance : Amount}
  {link : Link} {tag : SignatureVerification}

include H in
theorem sourceExists_of_sends (hb : BlocksRep p l.blocks L.chain) {s : BlockHash}
    (hs : L.Sends s a amount epoch) : l.sourceExists s = true := by
  obtain ⟨y, x, d, hat, rfl, hk, -⟩ := hs
  have hex := blockExistsType_at H hb hat
  unfold Ledger.sourceExists
  rcases type_of_send hk with ht | ht <;> rw [ht] at hex <;> simp [hex]

theorem pendingGet_of_sends (hq : PendingRep p l.pending L.chain) {s : BlockHash}
    (hs : L.Sends s a amount epoch) (hnr : ¬ L.Received s) :
    ∃ y, l.pendingGet ⟨a, s⟩ = some ⟨y, amount, epoch⟩ := by
  obtain ⟨y, x, d, hat, rfl, hk, rfl, rfl⟩ := hs
  exact ⟨y, hq.stored hat hk hnr⟩

include H in
theorem balance_headHash (hb : BlocksRep p l.blocks L.chain) (a : Account) :
    l.balance (headHash p (L.chain a)) = some (chainBal (L.chain a)) := by
  cases hc : L.chain a with
  | nil => rfl
  | cons e c => exact balance_at H hb (Chains.at_head hc)

theorem Lattice.Pushable.not_old (hb : BlocksRep p l.blocks L.chain)
    (hp : L.Pushable a n amount epoch) {type : BlockType} :
    l.blockExistsType type (p.hash n.block) = false := by
  by_contra hex
  obtain ⟨y, e, c, hat, hk⟩ := at_of_blockExistsType hb (Bool.eq_true_of_not_eq_false hex)
  exact absurd (congrArg Prod.snd hk).symm (hp.fresh hat)

theorem checked_of_valid {account : Account} {expected : SignatureVerification} {b : Block}
    (h : p.validateMessage account (p.hash b) b.signature = false) :
    Checked p b tag expected account := by
  rw [Checked, h]
  exact Bool.or_true _

variable (h : Represents l L shift) (ha : Acceptable l L a n amount epoch)

/-! ## Legacy blocks -/

section

variable (hopen : n.type ≠ BlockType.open) (hns : n.type ≠ .state)

omit h in
include ha hns in
theorem Acceptable.signed_legacy :
    p.validateMessage a (p.hash n.block) n.block.signature = false := by
  have hsig := ha.signed
  unfold Entry.signer at hsig
  rw [ha.pushable.fits.details_legacy hns] at hsig
  exact hsig

omit h in
include ha hns in
theorem Acceptable.work_legacy : p.workThreshold {} ≤ p.difficulty n.block := by
  rw [← ha.pushable.fits.details_legacy hns]
  exact ha.work

section

variable (hx : Extends p a (L.chain a) n amount epoch)

include h hx hopen hns

theorem Extends.frontierGet : l.frontierGet n.block.hashables.previous = a := by
  obtain ⟨e, c, hc, hleg⟩ := hx.exists_below hopen hns
  have hlk : l.frontiers.lookup n.block.hashables.previous = some a :=
    (h.frontiers _ _).2 ⟨by rw [hc]; simpa [chainLegacy] using hleg, hx.previous.symm⟩
  unfold Ledger.frontierGet
  rw [hlk]
  rfl

include H in
theorem Extends.onFrontier (hfresh : l.blockExistsType n.type (n.hash p) = false)
    (hsig : p.validateMessage a (n.hash p) n.block.signature = false) :
    OnFrontier p l n.block tag := by
  have hfro := hx.frontierGet h hopen hns
  refine ⟨hfresh, ?_, ?_, ?_, home_legacy hopen hns, hopen, hns⟩
  · obtain ⟨e, c, hc, hleg⟩ := hx.exists_below hopen hns
    refine ⟨_, by rw [hx.previous, hc]; exact blockGet_at H h.blocks (Chains.at_head hc), ?_⟩
    rw [Entry.stored_block]
    unfold Entry.type at hopen hleg
    unfold Hashables.validPredecessor
    split
    · rename_i hh; rw [hh] at hopen; exact absurd rfl hopen
    · rfl
    · exact bne_iff_ne.2 hleg
  · rw [hfro]
    exact hx.account_ne_zero
  · rw [hfro]
    exact checked_of_valid hsig

end

end

/-! ## State blocks -/

section

variable (hb : n.block.hashables = .stateBlock account previous representative balance link)

section

variable {c : List Entry} (hx : Extends p a c n amount epoch)
include hx hb

theorem Extends.details_state : n.details =
    match n.kind p c, p.epochInfo link with
    | .send _, _ => ⟨chainEpoch c, true, false, false⟩
    | .receive _, _ => ⟨(chainEpoch c).max epoch, false, true, false⟩
    | _, some i => ⟨i.epoch, false, false, true⟩
    | _, none => ⟨chainEpoch c, false, false, false⟩ := by
  rw [hx.details, Entry.kind, hb]
  rfl

theorem Extends.isEpoch_of_link (hlink : p.isEpochLink link = false) :
    n.details.isEpoch = false := by
  have hdet := hx.details_state hb
  rw [epochInfo_eq_none hlink] at hdet
  rw [hdet]
  cases n.kind p c <;> rfl

theorem Extends.link_of_not_isEpoch (hd : n.details.isEpoch = false)
    (hle : ¬ balance < chainBal c) : p.isEpochLink link = false := by
  cases hep : p.isEpochLink link with
  | false => rfl
  | true =>
    have hdet := hx.details_state hb
    have hkind := kind_state (p := p) hb c
    obtain ⟨i, hi⟩ := exists_epochInfo hep
    rw [if_neg hle, if_pos (.inr hep)] at hkind
    rw [hkind, hi] at hdet
    rw [hdet] at hd
    cases hd

theorem Extends.epochBlock (hd : n.details.isEpoch = true) :
    ∃ i, p.epochInfo link = some i ∧ n.kind p c = .neutral ∧
      n.details = ⟨i.epoch, false, false, true⟩ := by
  have hdet := hx.details_state hb
  rw [hx.details] at hd
  obtain ⟨_, _, _, _, _, i, hh, hk, hi, -⟩ := chainDetails_isEpoch hd
  cases hb.symm.trans hh
  have hk : n.kind p c = .neutral := hk
  rw [hk, hi] at hdet
  exact ⟨i, hi, hk, hdet⟩

end

section

variable (hx : Extends p a (L.chain a) n amount epoch)
include H h hb hx

theorem Extends.below : previous = 0 ∨ l.blockExists previous := by
  have hprev := hx.previous_state hb
  cases hc : L.chain a with
  | nil =>
    rw [hc] at hprev
    exact .inl hprev
  | cons e c =>
    rw [hprev, hc]
    exact .inr (blockExists_at H h.blocks (Chains.at_head hc))

theorem Extends.statePlace (hlink : L.chain a = [] → link ≠ 0) :
    StatePlace l a previous link (chainInfo p (L.chain a)) := by
  have hprev := hx.previous_state hb
  cases hc : L.chain a with
  | nil =>
    rw [hc] at hprev
    exact .unopened (by rw [accountGet_chain h.accounts, hc]; rfl) hprev (hlink hc)
  | cons e c =>
    have hat : L.At a e c := Chains.at_head hc
    rw [hc] at hprev
    subst hprev
    exact .opened (by rw [accountGet_chain h.accounts, hc]; rfl) (Lattice.hash_ne_zero H hat)
      (blockExists_at H h.blocks hat) rfl

end

include ha hb

omit h hb in
theorem Acceptable.signed_state (hd : n.details.isEpoch = false) :
    p.validateMessage a (p.hash n.block) n.block.signature = false := by
  have hsig := ha.signed
  rw [Entry.signer, hd, if_neg Bool.false_ne_true] at hsig
  exact hsig

include H h

theorem Acceptable.does (hd : n.details.isEpoch = false) :
    StateDoes l a balance link (chainInfo p (L.chain a)) n.details := by
  have hdet := ha.pushable.fits.details_state hb
  have hkind := kind_state (p := p) hb (L.chain a)
  by_cases hlt : balance < chainBal (L.chain a)
  · rw [if_pos hlt] at hkind
    rw [hkind] at hdet
    rw [hdet]
    exact .send hlt
  · rw [if_neg hlt] at hkind
    by_cases hlink : link = 0
    · rw [if_pos (.inl hlink)] at hkind
      rw [hkind, epochInfo_eq_none (hlink ▸ isEpochLink_zero)] at hdet
      rw [hdet]
      exact .change hlink (ha.pushable.fits.balance_neutral hb hkind)
    · have hnot := ha.pushable.fits.link_of_not_isEpoch hb hd hlt
      rw [if_neg (not_or.2 ⟨hlink, hnot ▸ Bool.false_ne_true⟩)] at hkind
      rw [hkind] at hdet
      obtain ⟨hsends, hnr⟩ := ha.pushable.source link hkind
      obtain ⟨y, hpend⟩ := pendingGet_of_sends h.pending hsends hnr
      rw [hdet]
      refine .receive hlt hlink (sourceExists_of_sends H h.blocks hsends) hpend ?_
      have hbal := ha.pushable.fits.receive link hkind
      rw [ha.pushable.fits.balance_state hb] at hbal
      apply BitVec.eq_of_toNat_eq
      show (balance - chainBal (L.chain a)).toNat = amount.toNat
      rw [BitVec.toNat_sub_of_le (by rw [BitVec.le_def]; omega)]
      omega

theorem Acceptable.epochPlace (hd : n.details.isEpoch = true) :
    EpochPlace l a previous representative n.details.epoch (chainInfo p (L.chain a)) := by
  have hprev := ha.pushable.fits.previous_state hb
  have hrep := ha.representative hd
  have hupg := ha.upgrade hd
  rw [hb] at hrep
  cases hc : L.chain a with
  | nil =>
    rw [if_pos hc] at hupg
    rw [hc] at hrep
    refine .unopened (by rw [accountGet_chain h.accounts, hc]; rfl) hrep hupg ?_
    obtain ⟨i, hi, -, hdet⟩ := ha.pushable.fits.epochBlock hb hd
    rw [hdet]
    rcases epoch_of_epochInfo hi with he | he <;> simp [he, Epoch.toNat]
  | cons e c =>
    have hat : L.At a e c := Chains.at_head hc
    rw [if_neg (by rw [hc]; simp)] at hupg
    rw [hc] at hprev hrep hupg
    subst hprev
    exact .opened (by rw [accountGet_chain h.accounts, hc]; rfl) (Lattice.hash_ne_zero H hat) rfl hrep
      hupg

end

include H

theorem Acceptable.passed (h : Represents l L shift) (ha : Acceptable l L a n amount epoch)
    (tag : SignatureVerification) : ∃ x, Passed p l n.block tag x := by
  have hp := ha.pushable
  have hx := hp.fits
  have hold : l.blockExistsType n.block.hashables.type (p.hash n.block) = false := hp.not_old h.blocks
  have hfr (hopen : n.type ≠ BlockType.open) (hns : n.type ≠ .state) :
      OnFrontier p l n.block tag :=
    hx.onFrontier H h hopen hns hold (ha.signed_legacy hns)
  cases hb : n.block.hashables with
  | sendBlock previous dest balance =>
    have ht : n.type = .send := by rw [Entry.type, hb]; rfl
    have hopen : n.type ≠ BlockType.open := by rw [ht]; decide
    have hns : n.type ≠ .state := by rw [ht]; decide
    have hfro := hx.frontierGet h hopen hns
    refine ⟨_, .send hb (hfr hopen hns) (ha.work_legacy hns) ?_⟩
    rw [hb] at hfro
    rw [show l.frontierGet previous = a from hfro, accountGet_getD h.accounts,
      ← hx.stated balance (by rw [hb]; rfl)]
    exact hx.send dest (by rw [Entry.kind, hb]; rfl)
  | changeBlock previous representative =>
    have ht : n.type = .change := by rw [Entry.type, hb]; rfl
    have hns : n.type ≠ .state := by rw [ht]; decide
    exact ⟨_, .change hb (hfr (by rw [ht]; decide) hns) (ha.work_legacy hns)⟩
  | receiveBlock previous source =>
    have ht : n.type = .receive := by rw [Entry.type, hb]; rfl
    have hopen : n.type ≠ BlockType.open := by rw [ht]; decide
    have hns : n.type ≠ .state := by rw [ht]; decide
    have hk : n.kind p (L.chain a) = .receive source := by rw [Entry.kind, hb]; rfl
    obtain ⟨hsends, hnr⟩ := hp.source source hk
    obtain ⟨y, hpend⟩ := pendingGet_of_sends h.pending hsends hnr
    have hfro := hx.frontierGet h hopen hns
    have hprev := hx.previous
    rw [hb] at hfro hprev
    have hfro : l.frontierGet previous = a := hfro
    rw [← hfro] at hpend
    refine ⟨_, .receive hb (hfr hopen hns) (ha.work_legacy hns)
      (sourceExists_of_sends H h.blocks hsends) ?_ hpend (hx.receive_legacy source hk hns)⟩
    rw [hfro, accountGet_getD h.accounts]
    exact hprev.symm
  | openBlock source representative account =>
    have ht : n.type = BlockType.open := by rw [Entry.type, hb]; rfl
    have hns : n.type ≠ .state := by rw [ht]; decide
    obtain rfl : account = a := by
      have := hx.account (.inl ht)
      rwa [hb] at this
    have hk : n.kind p (L.chain account) = .receive source := by
      have hg := ha.not_genesis
      rw [Entry.kind, hb, Hashables.kind] at hg ⊢
      split
      · rename_i heq; exact absurd (if_pos heq) hg
      · rfl
    obtain ⟨hsends, hnr⟩ := hp.source source hk
    obtain ⟨y, hpend⟩ := pendingGet_of_sends h.pending hsends hnr
    exact ⟨_, .opens hb hold (checked_of_valid (ha.signed_legacy hns)) (ha.work_legacy hns)
      (sourceExists_of_sends H h.blocks hsends)
      (by rw [accountGet_chain h.accounts, hx.open_first ht]; rfl) hpend hx.account_ne_zero
      (hx.receive_legacy source hk hns)⟩
  | stateBlock account previous representative balance link =>
    obtain rfl := hx.account_state hb
    have hbal := balance_headHash H h.blocks account
    rw [← hx.previous_state hb] at hbal
    cases hd : n.details.isEpoch with
    | false =>
      refine ⟨_, .state hb hold (checked_of_valid (ha.signed_state hd)) hx.account_ne_zero
        (fun hlink => ⟨_, hbal, fun heq => ?_⟩) (hx.statePlace H h hb fun hc hzero => ?_)
        (ha.does H h hb hd) ha.work⟩
      · rw [hx.link_of_not_isEpoch hb hd (heq ▸ BitVec.lt_irrefl _)] at hlink
        cases hlink
      · have hkind := kind_state (p := p) hb (L.chain account)
        rw [if_neg (by rw [hc]; simp [chainBal]), if_pos (.inl hzero)] at hkind
        rw [ha.opens hc hkind] at hd
        cases hd
    | true =>
      obtain ⟨i, hi, hneu, hdet⟩ := hx.epochBlock hb hd
      have hsame := hx.balance_neutral hb hneu
      have hpl := ha.epochPlace H h hb hd
      have hsig := ha.signed
      have hwork := ha.work
      rw [Entry.signer, if_pos hd, hb, Hashables.link, hi] at hsig
      rw [hdet] at hpl hwork
      exact ⟨_, .epoch hb hold (isEpochLink_of_epochInfo hi) hi (checked_of_valid hsig)
        hx.account_ne_zero (hx.below H h hb) (hsame ▸ hbal) hpl hsame hwork⟩

/-! ## The new ledger -/

theorem Lattice.Pushable.unique {a' : Account} {n' : Entry} {amount' : Amount} {epoch' : Epoch}
    (hp : L.Pushable a n amount epoch) (hp' : L.Pushable a' n' amount' epoch')
    (hb : n.block = n'.block) : a = a' ∧ n = n' := by
  have hx := hp.fits
  have hx' := hp'.fits
  have htype : n'.type = n.type := by unfold Entry.type; rw [hb]
  obtain rfl : a = a' := by
    by_cases hopen : n.type = BlockType.open ∨ n.type = .state
    · rw [← hx.account hopen, ← hx'.account (htype ▸ hopen), hb]
    · -- the block below is the head of both chains
      have hprev : headHash p (L.chain a) = headHash p (L.chain a') := by
        rw [← hx.previous, ← hx'.previous, hb]
      cases hc : L.chain a with
      | nil => exact absurd (hx.opens hc) hopen
      | cons e c =>
        rw [hc] at hprev
        exact (eq_head_of_hash H (Chains.at_head hc) hprev).1
  refine ⟨rfl, hx.entry_unique hx' hb fun s hk => ?_⟩
  have hk' : n'.kind p (L.chain a) = .receive s := by
    rw [← hk]; unfold Entry.kind; rw [hb]
  obtain ⟨⟨y, e, c, hat, rfl, -, rfl, rfl⟩, -⟩ := hp.source s hk
  obtain ⟨⟨y', e', c', hat', hh, -, rfl, rfl⟩, -⟩ := hp'.source _ hk'
  obtain ⟨-, rfl, rfl⟩ := Lattice.at_unique H hat hat' hh.symm
  exact ⟨rfl, rfl⟩

theorem process_acceptable (h : Represents l L shift) (ha : Acceptable l L a n amount epoch)
    (verification : SignatureVerification) :
    ∃ r l', l.process p n.block verification = some (r, l') ∧ r.code = .progress ∧
      Represents l' (L.push a n ha.pushable) shift ∧
      ∀ x, l'.confirmationHeightGet x =
        if L.chain a = [] ∧ x = a then some ⟨0, 0⟩ else l.confirmationHeightGet x := by
  have hx := ha.pushable.fits
  obtain ⟨r, l', hproc⟩ := process_returns H h ha.pushable.known verification
  have hcode : r.code = .progress := by
    obtain ⟨x, hpassed⟩ := ha.passed H h verification
    refine Returns.process (Q := fun r _ => r.code = .progress) ?_ (fun _ _ _ hr => hr) r l' hproc
    rw [hpassed.visit_eq]
    exact fun r l' heq => (hpassed.accepted r l' heq).code
  refine ⟨r, l', hproc, hcode, ?_⟩
  rcases process_represents H h ha.pushable.known hproc with ⟨hno, -⟩ | ⟨-, hfor | hpush⟩
  · exact absurd hcode hno
  · -- the previous field of a block that opens an account is zero
    obtain ⟨ht, -, hnone, hex⟩ := hfor
    rw [hx.account (.inr ht)] at hnone
    rw [hx.previous, chain_eq_nil h.accounts hnone] at hex
    obtain ⟨y, e, c, hat, hh⟩ := at_of_blockExists h.blocks hex.1
    exact absurd hh (Lattice.hash_ne_zero H hat)
  · obtain ⟨a', n', amount', epoch', hp', hb, -, hrep, hheights⟩ := hpush
    obtain ⟨rfl, rfl⟩ := ha.pushable.unique H hp' hb.symm
    exact ⟨hrep, hheights⟩

end

end Futurehead
