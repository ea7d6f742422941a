import Futurehead.Lattice.Tables
import Mathlib.Tactic.LinearCombination

/-!
# Ledgers that represent a lattice

`Represents l L shift` says that the tables and the cache of the ledger `l` hold the lattice `L`.
The weights may be off by `shift`: the state visitor of rollback moves weight before it rolls other
accounts back, so the ledger it hands on has weights that are ahead of its accounts.
-/

namespace Futurehead

open Finmap

variable {p : Params} {known : Block → Prop}

/-- The weight an account gives to the representative `r`. -/
def weightFor (r : Account) (info : AccountInfo) : Amount :=
  if info.representative = r then info.balance else 0

/-- The sum of all balances and all pending amounts. -/
def supply (accounts : Table Account AccountInfo) (pending : Table PendingKey PendingInfo) : Nat :=
  accounts.total (fun info => info.balance.toNat) + pending.total (fun info => info.amount.toNat)

/-- The ledger holds the lattice, with representative weights that are ahead by `shift`. -/
structure Represents (l : Ledger) (L : Lattice p known) (shift : Account → Amount) : Prop where
  blocks : BlocksRep p l.blocks L.chain
  accounts : AccountsRep p l.accounts L.chain
  pending : PendingRep p l.pending L.chain
  frontiers : FrontiersRep p l.frontiers L.chain
  confirmation : ConfirmationRep l.confirmationHeight L.chain
  weights : ∀ r, l.representationGet r = l.accounts.total (weightFor r) + shift r
  supply_eq : supply l.accounts l.pending = genesisAmount.toNat
  blockCount : l.blockCount = l.blocks.keys.card
  accountCount : l.accountCount = l.accounts.keys.card

/-- The pending entries once `n` stands on top of the chain `c` of `a`: a send adds one, a receive
deletes one. -/
def pendingAppended (p : Params) (q : Table PendingKey PendingInfo) (a : Account) (c : List Entry)
    (n : Entry) (k : PendingKey) : Option PendingInfo :=
  match n.kind p c with
  | .send d => if k = ⟨d, n.hash p⟩ then some ⟨a, n.sent c, n.details.epoch⟩ else q.lookup k
  | .receive s => if k = ⟨a, s⟩ then none else q.lookup k
  | _ => q.lookup k

/-- The pending entries once `n` is taken off the chain `c` of `a` again. A receive puts back the
entry `source`. -/
def pendingRemoved (p : Params) (q : Table PendingKey PendingInfo) (a : Account) (c : List Entry)
    (n : Entry) (source : PendingInfo) (k : PendingKey) : Option PendingInfo :=
  match n.kind p c with
  | .send d => if k = ⟨d, n.hash p⟩ then none else q.lookup k
  | .receive s => if k = ⟨a, s⟩ then some source else q.lookup k
  | _ => q.lookup k

/-- The ledger `l'` is `l` with the block `n` on top of the chain `c` of `a`. -/
structure Appends (p : Params) (l : Ledger) (a : Account) (c : List Entry) (n : Entry)
    (l' : Ledger) : Prop where
  blocks : ∀ k, l'.blocks.lookup k =
    if k = n.key p then some (n.stored a c 0)
    else if k.2 = headHash p c then (l.blocks.lookup k).map (·.setSuccessor (n.hash p))
    else l.blocks.lookup k
  accounts : ∀ x, l'.accounts.lookup x =
    if x = a then some (chainInfo p (n :: c)) else l.accounts.lookup x
  pending : ∀ k, l'.pending.lookup k = pendingAppended p l.pending a c n k
  frontiers : ∀ h, l'.frontiers.lookup h =
    if chainLegacy (n :: c) ∧ h = n.hash p then some a
    else if h = headHash p c then none
    else l.frontiers.lookup h
  confirmation : ∀ x, l'.confirmationHeight.lookup x =
    if c = [] ∧ x = a then some ⟨0, 0⟩ else l.confirmationHeight.lookup x
  weights : ∀ r, l'.representationGet r =
    l.representationGet r - weightFor r (chainInfo p c) + weightFor r (chainInfo p (n :: c))
  blockCount : l'.blockCount = l.blockCount
  accountCount : l'.accountCount = if c = [] then l.accountCount + 1 else l.accountCount

/-- The ledger `l'` is `l` without the block `n`, which was on top of the chain `c` of `a`. `source`
is the sender, the amount and the epoch of the send that `n` received, if it received one. The
weights are only brought to `shift` of what they should be. -/
structure Removes (p : Params) (l : Ledger) (a : Account) (c : List Entry) (n : Entry)
    (source : PendingInfo) (shift : Account → Amount) (l' : Ledger) : Prop where
  blocks : ∀ k, l'.blocks.lookup k =
    if k = n.key p then none
    else if k.2 = headHash p c then (l.blocks.lookup k).map (·.setSuccessor 0)
    else l.blocks.lookup k
  accounts : ∀ x, l'.accounts.lookup x = if x = a then chainInfo? p c else l.accounts.lookup x
  pending : ∀ k, l'.pending.lookup k = pendingRemoved p l.pending a c n source k
  frontiers : ∀ h, l'.frontiers.lookup h =
    if chainLegacy c ∧ h = headHash p c then some a
    else if h = n.hash p then none
    else l.frontiers.lookup h
  confirmation : ∀ x, l'.confirmationHeight.lookup x =
    if c = [] ∧ x = a then none else l.confirmationHeight.lookup x
  weights : ∀ r, l'.representationGet r =
    l.representationGet r - weightFor r (chainInfo p (n :: c)) + weightFor r (chainInfo p c) + shift r
  blockCount : l'.blockCount = l.blockCount
  accountCount : l'.accountCount = if c = [] then l.accountCount - 1 else l.accountCount

/-! ## Sums and counts over a change -/

section

variable {L L' : Lattice p known} {a : Account} {n : Entry}
  (H : HashAssumptions p known) (g : Chains.Grows L.chain a n L'.chain)
  {t t' : Table Account AccountInfo} {q q' : Table PendingKey PendingInfo}

theorem chainInfo?_map_getD {M : Type} [Zero M] (f : AccountInfo → M) (hf : f {} = 0)
    (c : List Entry) : ((chainInfo? p c).map f).getD 0 = f (chainInfo p c) := by
  cases c with
  | nil => rw [chainInfo?_nil, chainInfo_nil, hf]; rfl
  | cons e c => rfl

include g in
theorem accounts_total_of_grows {M : Type} [AddCommMonoid M] (h : AccountsRep p t L.chain)
    (h' : AccountsRep p t' L'.chain) (f : AccountInfo → M) (hf : f {} = 0) :
    t'.total f + f (chainInfo p (L.chain a)) = t.total f + f (chainInfo p (n :: L.chain a)) := by
  have hlk : ∀ x ≠ a, t'.lookup x = t.lookup x := fun x hx => by
    rw [h x, h' x, g.chain_ne hx]
  have := Finmap.total_eq_of_lookup_ne f a hlk
  rwa [h a, h' a, chainInfo?_map_getD f hf, chainInfo?_map_getD f hf, g.chain_self] at this

include g in
theorem accounts_card_of_grows (h : AccountsRep p t L.chain) (h' : AccountsRep p t' L'.chain) :
    t'.keys.card = if L.chain a = [] then t.keys.card + 1 else t.keys.card := by
  have hlk : ∀ x ≠ a, t'.lookup x = t.lookup x := fun x hx => by
    rw [h x, h' x, g.chain_ne hx]
  have hcard := Finmap.card_keys_of_lookup_ne a hlk
  have hmem : a ∈ t' := by rw [← lookup_isSome, h' a, g.chain_self]; rfl
  rw [if_pos hmem] at hcard
  split
  · rename_i hc
    have : a ∉ t := by rw [← lookup_isSome, h a, hc]; simp
    rw [if_neg this] at hcard
    exact hcard
  · rename_i hc
    have : a ∈ t := by rw [← lookup_isSome, h a]; simp [chainInfo?, hc]
    rw [if_pos this] at hcard
    omega

include H g in
theorem blocks_card_of_grows {t t' : Table (BlockType × BlockHash) StoredBlock}
    (h : BlocksRep p t L.chain) (h' : BlocksRep p t' L'.chain) :
    t'.keys.card = t.keys.card + 1 := by
  have hmem {t : Table (BlockType × BlockHash) StoredBlock} {τ : Chains} (h : BlocksRep p t τ)
      (k : BlockType × BlockHash) : k ∈ t.keys ↔ ∃ y e c, τ.At y e c ∧ k = e.key p := by
    rw [mem_keys, mem_iff]
    constructor
    · rintro ⟨b, hb⟩; exact h.only hb
    · rintro ⟨y, e, c, hat, rfl⟩; exact ⟨_, h.stored hat⟩
  have hkeys : t'.keys = insert (n.key p) t.keys := by
    ext k
    rw [Finset.mem_insert, hmem h, hmem h']
    exact g.exists_at_iff
  rw [hkeys, Finset.card_insert_of_notMem]
  rw [hmem h]
  rintro ⟨y, e, c, hat, hk⟩
  exact hash_ne_of_grows H g hat (congrArg Prod.snd hk).symm

include H g in
theorem pending_of_grows (h : PendingRep p q L.chain) (h' : PendingRep p q' L'.chain) :
    match n.kind p (L.chain a) with
    | .send _ => q'.total (fun i => i.amount.toNat) =
        (n.sent (L.chain a)).toNat + q.total (fun i => i.amount.toNat)
    | .receive _ => ∃ amt epoch, Extends p a (L.chain a) n amt epoch ∧
        q.total (fun i => i.amount.toNat) = amt.toNat + q'.total (fun i => i.amount.toNat)
    | _ => q' = q := by
  split
  · rename_i d hk
    have hq' : q' = q.insert ⟨d, n.hash p⟩ ⟨a, n.sent (L.chain a), n.details.epoch⟩ :=
      h'.unique (h.push_send H g hk fun k => Finmap.lookup_insert_eq _ _ _ _)
    have hfree : (⟨d, n.hash p⟩ : PendingKey) ∉ q := fun hmem => by
      obtain ⟨i, hi⟩ := mem_iff.1 hmem
      obtain ⟨y, e, c, hat, -, -, hh⟩ := h.only hi
      exact hash_ne_of_grows H g hat hh
    rw [hq', Finmap.total_insert_of_notMem _ _ hfree]
  · rename_i s hk
    have hq' : q' = q.erase ⟨a, s⟩ :=
      h'.unique (h.push_receive H g hk fun k => Finmap.lookup_erase_eq _ _ _)
    obtain ⟨amt, epoch, hx, hsrc⟩ := L'.valid g.at_new
    obtain ⟨y, e, c, hat, rfl, hke, rfl, -⟩ := hsrc s hk
    refine ⟨_, epoch, hx, ?_⟩
    -- the send was there before, and nobody had received it
    rcases g.at_iff.1 hat with ⟨rfl, rfl, rfl⟩ | hold
    · rw [hk] at hke; cases hke
    · have hnr : ¬ L.Received (e.hash p) := by
        rintro ⟨y', e', c', hat', hk'⟩
        obtain ⟨rfl, rfl, rfl⟩ := L'.received_once (g.at_of_at hat') g.at_new hk' hk
        exact Chains.Grows.not_at_self _ hat'
      rw [hq', Finmap.total_erase _ (h.stored hold hke hnr)]
  · rename_i hs hr
    exact h'.unique ((pendingRep_of_no_amount g hs hr).1 h)

include H g in
theorem supply_eq_of_grows (hg : n.kind p (L.chain a) ≠ .genesis) (ht : AccountsRep p t L.chain)
    (ht' : AccountsRep p t' L'.chain) (hq : PendingRep p q L.chain)
    (hq' : PendingRep p q' L'.chain) : supply t' q' = supply t q := by
  have hacc := accounts_total_of_grows g ht ht' (fun i => i.balance.toNat) rfl
  have hpend := pending_of_grows H g hq hq'
  obtain ⟨_, _, hx⟩ := Lattice.extends_at g.at_new
  unfold supply
  change _ + (chainBal (L.chain a)).toNat = _ + n.balance.toNat at hacc
  cases hk : n.kind p (L.chain a) with
  | send d =>
    rw [hk] at hpend
    have hle := BitVec.le_def.1 (hx.send d hk)
    have : (n.sent (L.chain a)).toNat = (chainBal (L.chain a)).toNat - n.balance.toNat :=
      BitVec.toNat_sub_of_le (hx.send d hk)
    simp only at hpend
    omega
  | receive s =>
    rw [hk] at hpend
    obtain ⟨amt, epoch, hx, hpend⟩ := hpend
    have := hx.receive s hk
    omega
  | neutral =>
    rw [hk] at hpend
    simp only at hpend
    have := hx.neutral hk
    rw [hpend]
    rw [this] at hacc
    omega
  | genesis => exact absurd hk hg

/-! ## The two changes -/

variable {l l' : Ledger} {shift shift' : Account → Amount}

theorem weightFor_default (r : Account) : weightFor r {} = 0 := by
  unfold weightFor; split <;> rfl

include H g

theorem Represents.push (h : Represents l L shift) (hg : n.kind p (L.chain a) ≠ .genesis)
    (ap : Appends p l a (L.chain a) n l') :
    Represents { l' with blockCount := l'.blockCount + 1 } L' shift := by
  have hne : ∀ y ≠ a, L'.chain y = L.chain y := fun y => g.chain_ne
  have hbs : BlocksRep p l'.blocks L'.chain := h.blocks.push H g ap.blocks
  have haccs : AccountsRep p l'.accounts L'.chain :=
    h.accounts.update hne fun x => by rw [ap.accounts, g.chain_self]; rfl
  have hpnd : PendingRep p l'.pending L'.chain := by
    have hp := ap.pending
    unfold pendingAppended at hp
    cases hk : n.kind p (L.chain a) with
    | send d => simp only [hk] at hp; exact h.pending.push_send H g hk hp
    | receive s => simp only [hk] at hp; exact h.pending.push_receive H g hk hp
    | neutral =>
      simp only [hk] at hp
      rw [ext_lookup hp]
      exact (pendingRep_of_no_amount g (by simp [hk]) (by simp [hk])).1 h.pending
    | genesis => exact absurd hk hg
  refine ⟨hbs, haccs, hpnd, ?_, ?_, ?_, ?_, ?_, ?_⟩
  · refine h.frontiers.update H hne fun x => ?_
    rw [ap.frontiers, g.chain_self]
    rfl
  · refine h.confirmation.update hne (fun x hx => ?_) ?_
    · rw [ap.confirmation, if_neg (fun hc => hx hc.2)]
    · rw [← lookup_isSome, ap.confirmation, g.chain_self]
      by_cases hc : L.chain a = []
      · simp [hc]
      · rw [if_neg (fun h => hc h.1), lookup_isSome, h.confirmation a]
        simp [hc]
  · intro r
    have htotal := accounts_total_of_grows g h.accounts haccs (weightFor r) (weightFor_default r)
    have hw := ap.weights r
    have hold := h.weights r
    change l'.representationGet r = _
    linear_combination hw + hold - htotal
  · rw [← h.supply_eq]
    exact supply_eq_of_grows H g hg h.accounts haccs h.pending hpnd
  · change l'.blockCount + 1 = _
    rw [ap.blockCount, h.blockCount, blocks_card_of_grows H g h.blocks hbs]
  · change l'.accountCount = _
    rw [ap.accountCount, h.accountCount, accounts_card_of_grows g h.accounts haccs]

theorem Represents.pop (h : Represents l L' shift) (hg : n.kind p (L.chain a) ≠ .genesis)
    {source : PendingInfo} (rm : Removes p l a (L.chain a) n source shift' l')
    (hsource : ∀ s, n.kind p (L.chain a) = .receive s →
      ∃ y e c, L.At y e c ∧ e.hash p = s ∧ source = ⟨y, e.sent c, e.details.epoch⟩) :
    Represents { l' with blockCount := l'.blockCount - 1 } L fun r => shift r + shift' r := by
  have hne : ∀ y ≠ a, L.chain y = L'.chain y := fun y hy => (g.chain_ne hy).symm
  have hbs : BlocksRep p l'.blocks L.chain := h.blocks.pop H g rm.blocks
  have haccs : AccountsRep p l'.accounts L.chain := h.accounts.update hne rm.accounts
  have hpnd : PendingRep p l'.pending L.chain := by
    have hp := rm.pending
    unfold pendingRemoved at hp
    cases hk : n.kind p (L.chain a) with
    | send d => simp only [hk] at hp; exact h.pending.pop_send H g hk hp
    | receive s => simp only [hk] at hp; exact h.pending.pop_receive H g hk (hsource s hk) hp
    | neutral =>
      simp only [hk] at hp
      rw [ext_lookup hp]
      exact (pendingRep_of_no_amount g (by simp [hk]) (by simp [hk])).2 h.pending
    | genesis => exact absurd hk hg
  refine ⟨hbs, haccs, hpnd, ?_, ?_, ?_, ?_, ?_, ?_⟩
  · refine h.frontiers.update H hne fun x => ?_
    rw [rm.frontiers, g.chain_self]
    rfl
  · refine h.confirmation.update hne (fun x hx => ?_) ?_
    · rw [rm.confirmation, if_neg (fun hc => hx hc.2)]
    · rw [← lookup_isSome, rm.confirmation]
      by_cases hc : L.chain a = []
      · simp [hc]
      · rw [if_neg (fun h => hc h.1), lookup_isSome, h.confirmation a, g.chain_self]
        simp [hc]
  · intro r
    have htotal := accounts_total_of_grows g haccs h.accounts (weightFor r) (weightFor_default r)
    have hw := rm.weights r
    have hold := h.weights r
    change l'.representationGet r = _
    linear_combination hw + hold + htotal
  · rw [← h.supply_eq]
    exact (supply_eq_of_grows H g hg haccs h.accounts hpnd h.pending).symm
  · change l'.blockCount - 1 = l'.blocks.keys.card
    have := blocks_card_of_grows H g hbs h.blocks
    rw [rm.blockCount, h.blockCount]
    omega
  · change l'.accountCount = _
    have := accounts_card_of_grows g haccs h.accounts
    rw [rm.accountCount, h.accountCount, this]
    split <;> rfl

end

end Futurehead
