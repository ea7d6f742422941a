import Futurehead.Ledger.Commit
import Futurehead.Ledger.Visit

/-!
# Processing keeps the lattice

An accepted block extends the chain of one account (`process_represents`), a block that is not
accepted leaves the ledger as it is.
-/

namespace Futurehead

open Option BitVec

/-- What `epoch_block_impl` asks of a block for an account without blocks: the signature of the epoch
signer, no representative, no balance, something to receive, and work. -/
def OpensAsEpoch (p : Params) (l : Ledger) (b : Block) (tag : SignatureVerification) : Prop :=
  b.hashables.representative = 0 ∧ b.hashables.statedBalance = some 0 ∧
    l.pendingAny b.hashables.account ∧
    ∃ i ∈ p.epochInfo b.hashables.link, Checked p b tag .validEpoch i.signer ∧
      p.workThreshold ⟨i.epoch, false, false, true⟩ ≤ p.difficulty b

/-- A block with an epoch link for an account without blocks whose previous field names a stored
block, and that passes all checks. `epoch_block_impl` does not look at the previous field of such a
block. -/
def ForeignEpoch (p : Params) (l : Ledger) (b : Block) (tag : SignatureVerification := .unknown) :
    Prop :=
  b.hashables.type = .state ∧ p.isEpochLink b.hashables.link ∧
    l.accountGet b.hashables.account = none ∧ l.blockExists b.hashables.previous ∧
    OpensAsEpoch p l b tag

/-! ## Blocks that fit -/

section

variable {p : Params} {known : Block → Prop} (H : HashAssumptions p known) {L : Lattice p known}
  {l : Ledger} {shift : Account → Amount}

/-- The ledger after the block `b` was put on a chain of the lattice. -/
def Extended (L : Lattice p known) (l : Ledger) (b : Block) (l' : Ledger) : Prop :=
  ∃ a n amount epoch, L.Pushable a n amount epoch ∧ n.block = b ∧
    n.kind p (L.chain a) ≠ .genesis ∧ Appends p l a (L.chain a) n l'

variable {a representative : Account} {previous : BlockHash} {link : Link} {n : Entry} {b : Block}
  {balance amount : Amount} {epoch : Epoch} {result : ProcessReturn}

include H in
theorem fresh_of_extends (hk : known n.block) (hx : Extends p a (L.chain a) n amount epoch)
    {y : Account} {e : Entry} {c : List Entry} (hat : L.At y e c) : e.hash p ≠ n.hash p :=
  fun heq => by
  have hin := H.collisionFree (L.known_at hat) hk heq
  have hprev := Hashables.hashInput_previous hin
  rw [Lattice.previous_at hat, hx.previous] at hprev
  cases c with
  | nil =>
    have hc : L.chain a = [] := (Lattice.headHash_chain H a).1 hprev.symm
    obtain ⟨_, _, hx'⟩ := Lattice.extends_at hat
    have hopen := hx.opens hc
    have hopen' := hx'.opens rfl
    -- both blocks name the account that they open
    have hh : e.block.hashables = n.block.hashables := Hashables.eq_of_hashInput hin hopen'
    obtain rfl : y = a := by rw [← hx'.account hopen', ← hx.account hopen, hh]
    rw [Lattice.At, Chains.At, hc] at hat
    exact absurd hat.length_le (by simp)
  | cons x d =>
    obtain ⟨rfl, hc⟩ := eq_head_of_hash H hat.below hprev
    rw [Lattice.At, hc] at hat
    exact Chains.Grows.not_at_self _ hat

theorem Represents.balance_add_pending_lt (h : Represents l L shift) (a : Account)
    {k : PendingKey} {i : PendingInfo} (hk : l.pendingGet k = some i) :
    (chainBal (L.chain a)).toNat + i.amount.toNat < 2 ^ 128 := by
  have hpend := Finmap.le_total (fun i : PendingInfo => i.amount.toNat) hk
  have hacc : (chainBal (L.chain a)).toNat ≤
      l.accounts.total fun info => info.balance.toNat := by
    cases hc : L.chain a with
    | nil => simp [chainBal]
    | cons e d =>
      have hlk := h.accounts a
      rw [hc, chainInfo?_cons] at hlk
      exact Finmap.le_total (fun i : AccountInfo => i.balance.toNat) hlk
  have hsum := h.supply_eq
  unfold supply at hsum
  have : genesisAmount.toNat = 2 ^ 128 - 1 := by decide
  omega

theorem sends_of_pending (hq : PendingRep p l.pending L.chain) {s : BlockHash} {i : PendingInfo}
    (h : l.pendingGet ⟨a, s⟩ = some i) : L.Sends s a i.amount i.epoch ∧ ¬ L.Received s := by
  obtain ⟨y, e, c, hat, hk, hnr, rfl⟩ := hq.only h
  obtain rfl : i = ⟨y, e.sent c, e.details.epoch⟩ :=
    Option.some.inj (h.symm.trans (hq.stored hat hk hnr))
  exact ⟨⟨y, e, c, hat, rfl, hk, rfl, rfl⟩, hnr⟩

include H in
theorem not_epochLink_of_sends {s : BlockHash} (h : L.Sends s a amount epoch) :
    s ≠ 0 ∧ p.isEpochLink s = false ∧ s ≠ p.genesisAccount := by
  obtain ⟨y, e, c, hat, rfl, -⟩ := h
  have hk := L.known_at hat
  exact ⟨H.ne_zero hk, H.not_epochLink hk, H.ne_genesisAccount hk⟩

theorem isEpochLink_zero : p.isEpochLink 0 = false := rfl

theorem kind_ne_genesis (ht : n.type = .state) (c : List Entry) : n.kind p c ≠ .genesis := by
  unfold Entry.kind Hashables.kind
  unfold Entry.type at ht
  split <;> rename_i hh
  case h_3 => rw [hh] at ht; cases ht
  case h_5 =>
    split
    · simp
    · split <;> simp
  all_goals simp

/-- What a block of a kind does to the balance of the chain that it is put on. -/
def Kind.Moves (L : Lattice p known) (a : Account) (n : Entry) (amount : Amount) (epoch : Epoch) :
    Kind → Prop
  | .send _ => n.balance ≤ chainBal (L.chain a)
  | .receive s => n.balance.toNat = (chainBal (L.chain a)).toNat + amount.toNat ∧
      L.Sends s a amount epoch ∧ ¬ L.Received s
  | .neutral => n.balance = chainBal (L.chain a)
  | .genesis => False

include H in
theorem pushable_of {k : Kind} (hkn : known n.block) (ha : a ≠ 0)
    (hprev : n.block.hashables.previous = headHash p (L.chain a))
    (hopens : L.chain a = [] → n.type = BlockType.open ∨ n.type = .state)
    (hfst : n.type = BlockType.open → L.chain a = [])
    (haccount : n.type = BlockType.open ∨ n.type = .state → n.block.hashables.account = a)
    (hleg : n.type ≠ .state → (∀ x ∈ (L.chain a).head?, x.type ≠ .state) ∧ epoch = .epoch0)
    (hstated : ∀ bal ∈ n.block.hashables.statedBalance, n.balance = bal)
    (hdet : n.details = chainDetails p n.block.hashables (L.chain a) epoch)
    (hkind : n.kind p (L.chain a) = k) (hmvs : k.Moves L a n amount epoch) :
    L.Pushable a n amount epoch := by
  subst hkind
  have hx : Extends p a (L.chain a) n amount epoch :=
    { account_ne_zero := ha
      previous := hprev
      opens := hopens
      open_first := hfst
      account := haccount
      legacy := fun h => (hleg h).1
      stated := hstated
      send := fun d hk => by rw [hk] at hmvs; exact hmvs
      receive := fun s hk => by rw [hk] at hmvs; exact hmvs.1
      receive_legacy := fun _ _ h => (hleg h).2
      neutral := fun hk => by rw [hk] at hmvs; exact hmvs
      genesis := fun hk => by rw [hk] at hmvs; exact hmvs.elim
      details := hdet }
  refine ⟨hkn, fresh_of_extends H hkn hx, hx, fun s hk => ?_⟩
  rw [hk] at hmvs
  exact hmvs.2

/-! ### State blocks -/

section

variable (hkn : known b) (ha : a ≠ 0)
  (hb : b.hashables = .stateBlock a previous representative balance link)
  (hprev : previous = headHash p (L.chain a))

include H hkn ha hb hprev

variable {details : BlockDetails}

theorem pushable_state {k : Kind} (hkind : (⟨b, balance, details⟩ : Entry).kind p (L.chain a) = k)
    (hmvs : k.Moves L a ⟨b, balance, details⟩ amount epoch)
    (hdet : chainDetails p b.hashables (L.chain a) epoch = details) :
    L.Pushable a ⟨b, balance, details⟩ amount epoch := by
  have ht : (⟨b, balance, details⟩ : Entry).type = .state := by rw [Entry.type, hb]; rfl
  refine pushable_of H hkn ha (by rw [hb]; exact hprev) (fun _ => .inr ht)
    (fun h => by rw [ht] at h; cases h) (fun _ => by rw [hb]; rfl) (fun h => absurd ht h)
    (fun bal h => ?_) hdet.symm hkind hmvs
  rw [hb] at h
  exact Option.some.inj h

theorem pushable_stateSend (hlt : balance < chainBal (L.chain a)) :
    L.Pushable a ⟨b, balance, ⟨chainEpoch (L.chain a), true, false, false⟩⟩ 0 .epoch0 := by
  have hkind : b.hashables.kind p (chainBal (L.chain a)) = .send link := by
    rw [hb]
    exact if_pos hlt
  refine pushable_state H hkn ha hb hprev hkind (BitVec.le_of_lt hlt) ?_
  rw [hb] at hkind ⊢
  simp only [chainDetails, hkind]

theorem pushable_stateReceive (hq : PendingRep p l.pending L.chain) {pend : PendingInfo}
    (hle : ¬ balance < chainBal (L.chain a)) (hpend : l.pendingGet ⟨a, link⟩ = some pend)
    (hamt : balance - chainBal (L.chain a) = pend.amount) :
    L.Pushable a ⟨b, balance, ⟨(chainEpoch (L.chain a)).max pend.epoch, false, true, false⟩⟩
      pend.amount pend.epoch := by
  obtain ⟨hsends, hnr⟩ := sends_of_pending hq hpend
  obtain ⟨hne, hlink, -⟩ := not_epochLink_of_sends H hsends
  have hkind : b.hashables.kind p (chainBal (L.chain a)) = .receive link := by
    rw [hb]
    exact (if_neg hle).trans (if_neg (by simp [hlink, show link ≠ 0#256 from hne]))
  refine pushable_state H hkn ha hb hprev hkind ⟨?_, hsends, hnr⟩ ?_
  · rw [← hamt, toNat_sub_of_le (BitVec.not_lt.1 hle)]
    have := le_def.1 (BitVec.not_lt.1 hle)
    simp only
    omega
  · rw [hb] at hkind ⊢
    simp only [chainDetails, hkind]

theorem pushable_stateChange (hzero : link = 0) (hbalance : balance = chainBal (L.chain a)) :
    L.Pushable a ⟨b, balance, ⟨chainEpoch (L.chain a), false, false, false⟩⟩ 0 .epoch0 := by
  have hkind : b.hashables.kind p (chainBal (L.chain a)) = .neutral := by
    rw [hb]
    exact (if_neg (hbalance ▸ BitVec.lt_irrefl _)).trans (if_pos (.inl hzero))
  refine pushable_state H hkn ha hb hprev hkind hbalance ?_
  rw [hb] at hkind ⊢
  simp only [chainDetails, hkind, epochInfo_eq_none (hzero ▸ isEpochLink_zero)]

theorem pushable_stateEpoch {i : EpochInfo} (hinfo : p.epochInfo link = some i)
    (hlink : p.isEpochLink link) (hbalance : balance = chainBal (L.chain a)) :
    L.Pushable a ⟨b, balance, ⟨i.epoch, false, false, true⟩⟩ 0 .epoch0 := by
  have hkind : b.hashables.kind p (chainBal (L.chain a)) = .neutral := by
    rw [hb]
    exact (if_neg (hbalance ▸ BitVec.lt_irrefl _)).trans (if_pos (.inr hlink))
  refine pushable_state H hkn ha hb hprev hkind hbalance ?_
  rw [hb] at hkind ⊢
  simp only [chainDetails, hkind, hinfo]

variable (h : Represents l L shift)
include h

theorem StateDoes.pushable (hdoes : StateDoes l a balance link (chainInfo p (L.chain a)) details) :
    ∃ amount epoch, L.Pushable a ⟨b, balance, details⟩ amount epoch := by
  cases hdoes with
  | send hlt => exact ⟨_, _, pushable_stateSend H hkn ha hb hprev hlt⟩
  | receive hge _ _ hget hamt =>
    exact ⟨_, _, pushable_stateReceive H hkn ha hb hprev h.pending hge hget hamt⟩
  | change hzero hsame => exact ⟨_, _, pushable_stateChange H hkn ha hb hprev hzero hsame⟩

theorem stateCommit_extends (hdoes : StateDoes l a balance link (chainInfo p (L.chain a)) details) :
    ∃ r l', l.stateCommit p (stateReturn (chainInfo p (L.chain a)) balance details.isSend) b a
      representative balance link (chainInfo p (L.chain a)) details = some (r, l') ∧
        Extended L l b l' := by
  obtain ⟨amount, epoch, hp⟩ := hdoes.pushable H hkn ha hb hprev h
  have hlink : details.isSend = false → link = 0 ∨ p.isEpochLink link = false := by
    cases hdoes with
    | send => intro hs; cases hs
    | receive _ _ _ hget =>
      exact fun _ => .inr (not_epochLink_of_sends H (sends_of_pending h.pending hget).1).2.1
    | change hzero => exact fun _ => .inl hzero
  have hsend : details.isSend = true ↔ balance < chainBal (L.chain a) := by
    cases hdoes with
    | send hlt => exact iff_of_true rfl hlt
    | receive hge => exact iff_of_false Bool.false_ne_true hge
    | change _ hsame => exact iff_of_false Bool.false_ne_true (hsame ▸ BitVec.lt_irrefl _)
  obtain ⟨l', heq, happ⟩ := stateCommit_appends H
    (stateReturn (chainInfo p (L.chain a)) balance details.isSend) hb h hp hlink hsend
    fun hs => if_pos hs
  exact ⟨_, l', heq, a, _, _, _, hp, rfl, kind_ne_genesis (by rw [Entry.type, hb]; rfl) _, happ⟩

end

theorem epochCommit_returns (hne : p.hash b ≠ 0)
    (hb : b.hashables = .stateBlock a previous representative balance link)
    (result : ProcessReturn) (hex : l.blockExists previous) :
    ∃ r l', l.epochCommit p result b a representative {} epoch = some (r, l') := by
  have hput (side : Sideband) : ∃ l1, l.blockPut (p.hash b) b side = some l1 := by
    unfold Ledger.blockPut
    simp only [hb]
    split
    · exact ⟨_, rfl⟩
    · refine isSome_iff_exists.1 ?_
      rw [Ledger.blockSuccessorSet, isSome_map, blockRawGet_isSome]
      exact blockExists_insert hex _ _
  have hlat (l1 : Ledger) (new : AccountInfo) (hnew : new.head ≠ 0) :
      ∃ l2, l1.changeLatest a {} new = some l2 := by
    unfold Ledger.changeLatest
    rw [if_pos hnew]
    exact ⟨_, rfl⟩
  have hfr (l2 : Ledger) (head : BlockHash) : ∃ l3, l2.stateFrontier head = some l3 := by
    unfold Ledger.stateFrontier
    split
    · rename_i hne
      refine ⟨_, frontierDel_eq (Finmap.lookup_isSome.1 ?_)⟩
      unfold Ledger.frontierGet at hne
      cases hlk : l2.frontiers.lookup head with
      | none => simp [hlk] at hne
      | some y => rfl
    · exact ⟨_, rfl⟩
  obtain ⟨l1, h1⟩ := hput { account := a, height := 1, details := ⟨epoch, false, false, true⟩ }
  obtain ⟨l2, h2⟩ := hlat l1 ⟨p.hash b, representative, p.hash b, 0, 1, epoch⟩ hne
  obtain ⟨l3, h3⟩ := hfr l2 0
  exact ⟨_, _, bind_eq_some_iff.2 ⟨l1, h1, bind_eq_some_iff.2 ⟨l2, h2,
    bind_eq_some_iff.2 ⟨l3, h3, rfl⟩⟩⟩⟩

/-! ### Legacy blocks -/

section

variable {tag : SignatureVerification} (h : Represents l L shift)
include h

theorem StatePlace.info_eq {info : AccountInfo} (hp : StatePlace l a previous link info) :
    info = chainInfo p (L.chain a) ∧ previous = headHash p (L.chain a) := by
  cases hp with
  | opened get _ _ head =>
    obtain ⟨-, rfl⟩ := accountGet_some h.accounts get
    exact ⟨rfl, head⟩
  | unopened get zero =>
    rw [chain_eq_nil h.accounts get]
    exact ⟨rfl, zero⟩

theorem EpochPlace.info_eq {info : AccountInfo}
    (hp : EpochPlace l a previous representative epoch info)
    (hblw : previous = 0 ∨ l.blockExists previous) :
    info = chainInfo p (L.chain a) ∧ representative = chainRep (L.chain a) ∧
      (previous = headHash p (L.chain a) ∨
        info = {} ∧ l.accountGet a = none ∧ l.blockExists previous ∧ representative = 0 ∧
          l.pendingAny a) := by
  cases hp with
  | opened get _ head rep =>
    obtain ⟨-, rfl⟩ := accountGet_some h.accounts get
    exact ⟨rfl, rep, .inl head⟩
  | unopened get rep pend =>
    rw [chain_eq_nil h.accounts get]
    exact ⟨rfl, rep, hblw.imp_right fun hex => ⟨rfl, get, hex, rep, pend⟩⟩

theorem OnFrontier.chain (hp : OnFrontier p l b tag) (hprev : b.hashables.previous = previous) :
    ∃ a, l.frontierGet previous = a ∧ a ≠ 0 ∧ chainLegacy (L.chain a) ∧
      previous = headHash p (L.chain a) := by
  subst hprev
  obtain ⟨hl, hhead⟩ := frontierGet_chain h.frontiers hp.frontier
  exact ⟨_, rfl, hp.frontier, hl, hhead.symm⟩

omit h in
include H in
theorem OnFrontier.pushable (hp : OnFrontier p l b tag) (hkn : known b) (ha : a ≠ 0)
    (hl : chainLegacy (L.chain a)) (hprev : b.hashables.previous = headHash p (L.chain a))
    (hep : epoch = .epoch0) (hstated : ∀ bal ∈ b.hashables.statedBalance, balance = bal) {k : Kind}
    (hkind : (⟨b, balance, {}⟩ : Entry).kind p (L.chain a) = k)
    (hmvs : k.Moves L a ⟨b, balance, {}⟩ amount epoch) :
    L.Pushable a ⟨b, balance, {}⟩ amount epoch := by
  obtain ⟨hopen, hsta⟩ := hp.legacy
  refine pushable_of H hkn ha hprev (fun hc => ?_) (fun ht => absurd ht hopen)
    (fun ht => ht.elim (absurd · hopen) (absurd · hsta)) (fun _ => ⟨fun x hx => ?_, hep⟩)
    hstated ?_ hkind hmvs
  · rw [hc] at hl
    cases hl
  · cases hc : L.chain a with
    | nil => rw [hc] at hl; cases hl
    | cons y d =>
      rw [hc] at hx hl
      obtain rfl : y = x := by simpa using hx
      simpa [chainLegacy] using hl
  · unfold chainDetails
    split
    · rename_i hh
      rw [hh] at hsta
      exact absurd rfl hsta
    · rfl

end

/-! ## Processing -/

section

variable (h : Represents l L shift)

include h

include H

theorem Passed.extends {tag : SignatureVerification} {x : Processed} (hkn : known b)
    (hp : Passed p l b tag x) :
    ∃ r l', x = some (r, l') ∧ (ForeignEpoch p l b tag ∨ Extended L l b l') := by
  cases hp with
  | @send previous destination balance hb place work funds =>
    obtain ⟨a, hfro, ha, hl, rfl⟩ := place.chain h (show _ = previous by rw [hb]; rfl)
    rw [hfro, accountGet_getD h.accounts] at funds ⊢
    have hkind : (⟨b, balance, {}⟩ : Entry).kind p (L.chain a) = .send destination := by
      rw [Entry.kind, hb]; rfl
    have hp : L.Pushable a ⟨b, balance, {}⟩ 0 .epoch0 :=
      place.pushable H hkn ha hl (by rw [hb]; rfl) rfl
        (fun bal hbal => by rw [hb] at hbal; exact Option.some.inj hbal) hkind funds
    obtain ⟨r, l', heq, -, happ⟩ := sendCommit_appends H _ rfl hl h hp hb
    exact ⟨r, l', heq, .inr ⟨a, _, _, _, hp, rfl, by rw [hkind]; simp, happ⟩⟩
  | @change previous representative hb place work =>
    obtain ⟨a, hfro, ha, hl, rfl⟩ := place.chain h (show _ = previous by rw [hb]; rfl)
    rw [hfro, accountGet_getD h.accounts]
    have hkind : (⟨b, chainBal (L.chain a), {}⟩ : Entry).kind p (L.chain a) = .neutral := by
      rw [Entry.kind, hb]; rfl
    have hp : L.Pushable a ⟨b, chainBal (L.chain a), {}⟩ 0 .epoch0 :=
      place.pushable H hkn ha hl (by rw [hb]; rfl) rfl (fun bal hbal => by rw [hb] at hbal; cases hbal)
        hkind rfl
    obtain ⟨r, l', heq, -, happ⟩ := changeCommit_appends H _ rfl hl h hp hb rfl
    exact ⟨r, l', heq, .inr ⟨a, _, _, _, hp, rfl, by rw [hkind]; simp, happ⟩⟩
  | @receive previous source pend hb place work stored head get hep =>
    obtain ⟨a, hfro, ha, hl, rfl⟩ := place.chain h (show _ = previous by rw [hb]; rfl)
    rw [hfro] at get
    rw [hfro, accountGet_getD h.accounts]
    have hkind : (⟨b, chainBal (L.chain a) + pend.amount, {}⟩ : Entry).kind p (L.chain a) =
        .receive source := by
      rw [Entry.kind, hb]; rfl
    have hp : L.Pushable a ⟨b, chainBal (L.chain a) + pend.amount, {}⟩ pend.amount
        pend.epoch :=
      place.pushable H hkn ha hl (by rw [hb]; rfl) hep (fun bal hbal => by rw [hb] at hbal; cases hbal)
        hkind ⟨toNat_add_of_lt (h.balance_add_pending_lt a get), sends_of_pending h.pending get⟩
    obtain ⟨r, l', heq, -, happ⟩ := receiveCommit_appends H _ rfl hl h hp hb rfl
    exact ⟨r, l', heq, .inr ⟨a, _, _, _, hp, rfl, by rw [hkind]; simp, happ⟩⟩
  | @opens source representative acc pend hb fresh signed work stored new get ne hep =>
    have hc := chain_eq_nil h.accounts new
    have hsends := sends_of_pending h.pending get
    obtain ⟨-, -, hsrc⟩ := not_epochLink_of_sends H hsends.1
    have ht : (⟨b, pend.amount, {}⟩ : Entry).type = BlockType.open := by rw [Entry.type, hb]; rfl
    have hkind : (⟨b, pend.amount, {}⟩ : Entry).kind p (L.chain acc) = .receive source := by
      rw [Entry.kind, hb, Hashables.kind, if_neg hsrc]
    have hp : L.Pushable acc ⟨b, pend.amount, {}⟩ pend.amount pend.epoch :=
      pushable_of H hkn ne (by rw [hb, hc]; rfl) (fun _ => .inl ht) (fun _ => hc)
        (fun _ => by rw [hb]; rfl) (fun _ => ⟨fun x hx => by simp [hc] at hx, hep⟩)
        (fun bal hbal => by rw [hb] at hbal; cases hbal) (by rw [hb]; rfl) hkind
        ⟨by rw [hc]; simp [chainBal], hsends⟩
    obtain ⟨r, l', heq, -, happ⟩ := openCommit_appends H _ rfl h hp hc hb hsrc rfl
    exact ⟨r, l', heq, .inr ⟨acc, _, _, _, hp, rfl, by rw [hkind]; simp, happ⟩⟩
  | state hb fresh signed ne ordinary place does work =>
    obtain ⟨rfl, hprev⟩ := place.info_eq h
    obtain ⟨r, l', heq, hx⟩ := stateCommit_extends H hkn ne hb hprev h does
    exact ⟨r, l', heq, .inr hx⟩
  | @epoch acc _ _ _ _ info i hb fresh isLink epochInfo signed ne below keeps place same work =>
    obtain ⟨rfl, hrep, hprev | ⟨hemp, hnone, hst, hzero, hpnd⟩⟩ := place.info_eq h below
    · have hp := pushable_stateEpoch H hkn ne hb hprev epochInfo isLink same
      obtain ⟨l', heq, happ⟩ := epochCommit_appends H _ hb h hp isLink same hrep rfl
      exact ⟨_, l', heq, .inr ⟨acc, _, _, _, hp, rfl,
        kind_ne_genesis (by rw [Entry.type, hb]; rfl) _, happ⟩⟩
    · rw [hemp]
      obtain ⟨r, l', heq⟩ := epochCommit_returns (H.ne_zero hkn) hb _ hst
      refine ⟨r, l', heq, .inl ?_⟩
      rw [hemp] at same
      rw [ForeignEpoch, OpensAsEpoch, hb]
      exact ⟨rfl, isLink, hnone, hst, hzero, congrArg some same, hpnd, i, epochInfo, signed, work⟩

theorem visit_extends (hkn : known b) (tag : SignatureVerification) :
    ∃ r l', l.visit p b tag = some (r, l') ∧ (r.code ≠ .progress ∧ l' = l ∨
      r.code = .progress ∧ (ForeignEpoch p l b tag ∨ Extended L l b l')) := by
  generalize hx : l.visit p b tag = x
  cases hx ▸ visit_cases p l b tag with
  | stop stored unread =>
    obtain ⟨y, e, c, hat, he⟩ := at_of_blockExists h.blocks stored
    rw [← he, balance_at H h.blocks hat] at unread
    cases unread
  | reject hr => exact ⟨_, l, rfl, .inl ⟨hr.code, rfl⟩⟩
  | commit hp =>
    obtain ⟨r, l', heq, hext⟩ := hp.extends H h hkn
    exact ⟨r, l', heq, .inr ⟨(hp.accepted r l' heq).code, hext⟩⟩

theorem process_returns (hkn : known b) (verification : SignatureVerification) :
    ∃ r l', l.process p b verification = some (r, l') := by
  obtain ⟨r, l', hvis, -⟩ := visit_extends H h hkn verification
  unfold Ledger.process
  rw [hvis]
  dsimp only [bind_eq_bind, bind_some]
  split <;> exact ⟨_, _, rfl⟩

theorem process_represents (hkn : known b) {verification : SignatureVerification}
    {r : ProcessReturn} {l' : Ledger} (hproc : l.process p b verification = some (r, l')) :
    (r.code ≠ .progress ∧ l' = l) ∨ (r.code = .progress ∧ (ForeignEpoch p l b verification ∨
      ∃ a n amount epoch, ∃ hp : L.Pushable a n amount epoch, n.block = b ∧
        n.kind p (L.chain a) ≠ .genesis ∧ Represents l' (L.push a n hp) shift ∧
        ∀ x, l'.confirmationHeightGet x =
          if L.chain a = [] ∧ x = a then some ⟨0, 0⟩ else l.confirmationHeightGet x)) := by
  obtain ⟨⟨r1, l1⟩, hvis, hend⟩ := bind_eq_some_iff.1 hproc
  obtain ⟨r2, l2, heq, hcases⟩ := visit_extends H h hkn verification
  obtain ⟨rfl, rfl⟩ := Prod.mk.inj (Option.some.inj (heq.symm.trans hvis))
  dsimp only at hend
  rcases hcases with ⟨hcode, rfl⟩ | ⟨hcode, hyes⟩
  · rw [if_neg hcode] at hend
    cases hend
    exact .inl ⟨hcode, rfl⟩
  · rw [if_pos hcode] at hend
    cases hend
    refine .inr ⟨hcode, hyes.imp_right ?_⟩
    rintro ⟨a, n, amount, epoch, hp, hn, hg, happ⟩
    exact ⟨a, n, amount, epoch, hp, hn, hg, h.push H (L.push_grows a n hp) hg happ,
      happ.confirmation⟩

end

end

end Futurehead
