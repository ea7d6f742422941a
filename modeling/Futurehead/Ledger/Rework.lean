import Futurehead.Ledger.System

/-!
# Chains with other work

The hash of a block is that of its fields. Signatures and work are not part of it, and nothing that
the chains determine depends on them. So a lattice stays one if the work of its blocks is replaced.
-/

namespace Futurehead

open List Chains

variable {known : Block → Prop} {b : Block} {f : Entry → Entry} {a : Account} {e : Entry}
  {c : List Entry}

/-- The entries keep the fields of their blocks, their balance and their details. -/
structure SameFields (f : Entry → Entry) : Prop where
  hashables : ∀ e, (f e).block.hashables = e.block.hashables
  balance : ∀ e, (f e).balance = e.balance
  details : ∀ e, (f e).details = e.details

/-- The block has the fields of a known one. -/
def FieldsKnown (known : Block → Prop) (b : Block) : Prop :=
  ∃ b', known b' ∧ b'.hashables = b.hashables

theorem FieldsKnown.of_known (h : known b) : FieldsKnown known b :=
  ⟨b, h, rfl⟩

variable {p : Params}

theorem hash_eq_of_hashables {b' : Block} (h : b'.hashables = b.hashables) :
    p.hash b' = p.hash b := by
  rw [Params.hash, Params.hash, h]

theorem HashAssumptions.fieldsKnown (H : HashAssumptions p known) :
    HashAssumptions p (FieldsKnown known) where
  genesis := .of_known H.genesis
  genesisAccount_ne_zero := H.genesisAccount_ne_zero
  collisionFree := by
    rintro b b' ⟨c, hc, hflds⟩ ⟨c', hc', hflds'⟩ heq
    rw [← hash_eq_of_hashables hflds, ← hash_eq_of_hashables hflds'] at heq
    rw [← hflds, ← hflds']
    exact H.collisionFree hc hc' heq
  ne_zero := by
    rintro b ⟨c, hc, hflds⟩
    exact hash_eq_of_hashables hflds ▸ H.ne_zero hc
  ne_genesisAccount := by
    rintro b ⟨c, hc, hflds⟩
    exact hash_eq_of_hashables hflds ▸ H.ne_genesisAccount hc
  not_epochLink := by
    rintro b ⟨c, hc, hflds⟩
    exact hash_eq_of_hashables hflds ▸ H.not_epochLink hc

/-! ## Chains -/

namespace SameFields

variable (hf : SameFields f)

include hf

theorem hash_eq (e : Entry) : (f e).hash p = e.hash p := hash_eq_of_hashables (hf.hashables e)

theorem type_eq (e : Entry) : (f e).type = e.type := by rw [Entry.type, Entry.type, hf.hashables]

theorem headHash_eq (c : List Entry) : headHash p (c.map f) = headHash p c := by
  cases c with
  | nil => rfl
  | cons e c => exact hf.hash_eq e

theorem chainBalance_eq (c : List Entry) : chainBal (c.map f) = chainBal c := by
  cases c with
  | nil => rfl
  | cons e c => exact hf.balance e

theorem chainEpoch_eq (c : List Entry) : chainEpoch (c.map f) = chainEpoch c := by
  cases c with
  | nil => rfl
  | cons e c => exact congrArg BlockDetails.epoch (hf.details e)

theorem chainRepresentative_eq (c : List Entry) :
    chainRep (c.map f) = chainRep c := by
  induction c with
  | nil => rfl
  | cons e c ih => simp only [map_cons, chainRep, hf.hashables, ih]

theorem chainOpen_eq (c : List Entry) : chainOpen p (c.map f) = chainOpen p c := by
  induction c with
  | nil => rfl
  | cons e c ih => simp only [map_cons, chainOpen_cons, map_eq_nil_iff, hf.hash_eq, ih]

theorem hashAt_eq (c : List Entry) (n : Nat) : hashAt p (c.map f) n = hashAt p c n := by
  induction c with
  | nil => rfl
  | cons e c ih => simp only [map_cons, hashAt, length_map, hf.hash_eq, ih]

theorem chainInfo?_eq (c : List Entry) : chainInfo? p (c.map f) = chainInfo? p c := by
  simp only [chainInfo?, chainInfo, map_eq_nil_iff, length_map, hf.headHash_eq,
    hf.chainRepresentative_eq, hf.chainOpen_eq, hf.chainBalance_eq, hf.chainEpoch_eq]

theorem chainLegacy_eq (c : List Entry) : chainLegacy (c.map f) ↔ chainLegacy c := by
  cases c with
  | nil => exact Iff.rfl
  | cons e c => simp [chainLegacy, hf.type_eq]

theorem kind_eq (e : Entry) (c : List Entry) : (f e).kind p (c.map f) = e.kind p c := by
  simp only [Entry.kind, hf.hashables, hf.chainBalance_eq]

theorem sent_eq (e : Entry) (c : List Entry) : (f e).sent (c.map f) = e.sent c := by
  simp only [Entry.sent, hf.balance, hf.chainBalance_eq]

theorem chainDetails_eq (h : Hashables) (c : List Entry) (epoch : Epoch) :
    chainDetails p h (c.map f) epoch = chainDetails p h c epoch := by
  simp only [chainDetails, hf.chainBalance_eq, hf.chainEpoch_eq]

theorem extends_map {amount : Amount} {epoch : Epoch} (h : Extends p a c e amount epoch) :
    Extends p a (c.map f) (f e) amount epoch where
  account_ne_zero := h.account_ne_zero
  previous := by rw [hf.hashables, hf.headHash_eq, h.previous]
  opens hc := by rw [hf.type_eq]; exact h.opens (map_eq_nil_iff.1 hc)
  open_first ht := map_eq_nil_iff.2 (h.open_first (hf.type_eq e ▸ ht))
  account ht := by rw [hf.hashables]; exact h.account (hf.type_eq e ▸ ht)
  legacy ht := by
    intro x hx
    rw [head?_map] at hx
    obtain ⟨y, hy, rfl⟩ := Option.map_eq_some_iff.1 hx
    rw [hf.type_eq]
    exact h.legacy (hf.type_eq e ▸ ht) y hy
  stated := by rw [hf.hashables, hf.balance]; exact h.stated
  send := by rw [hf.kind_eq, hf.balance, hf.chainBalance_eq]; exact h.send
  receive := by rw [hf.kind_eq, hf.balance, hf.chainBalance_eq]; exact h.receive
  receive_legacy := by rw [hf.kind_eq, hf.type_eq]; exact h.receive_legacy
  neutral := by rw [hf.kind_eq, hf.balance, hf.chainBalance_eq]; exact h.neutral
  genesis := by rw [hf.kind_eq, hf.balance]; exact h.genesis
  details := by rw [hf.details, hf.hashables, hf.chainDetails_eq, h.details]

end SameFields

def Chains.map (f : Entry → Entry) (L : Chains) : Chains := fun a => (L a).map f

theorem Chains.at_map {L : Chains} :
    (L.map f).At a e c ↔ ∃ e0 c0, L.At a e0 c0 ∧ e = f e0 ∧ c = c0.map f := by
  constructor
  · rintro ⟨above, habove⟩
    obtain ⟨above0, rest, hch, -, hrest⟩ := map_eq_append_iff.1 habove.symm
    obtain ⟨e0, c0, rfl, rfl, rfl⟩ := map_eq_cons_iff.1 hrest
    exact ⟨e0, c0, ⟨above0, hch.symm⟩, rfl, rfl⟩
  · rintro ⟨e0, c0, hat, rfl, rfl⟩
    exact List.IsSuffix.map f hat

theorem Chains.received_map (hf : SameFields f) {L : Chains} {s : BlockHash} :
    (L.map f).Received p s ↔ L.Received p s := by
  constructor
  · rintro ⟨a, e, c, hat, hk⟩
    obtain ⟨e0, c0, hat0, rfl, rfl⟩ := at_map.1 hat
    exact ⟨a, e0, c0, hat0, hf.kind_eq e0 c0 ▸ hk⟩
  · rintro ⟨a, e, c, hat, hk⟩
    exact ⟨a, f e, c.map f, at_map.2 ⟨e, c, hat, rfl, rfl⟩, (hf.kind_eq e c).trans hk⟩

def Lattice.map (f : Entry → Entry) (hf : SameFields f) (L : Lattice p known)
    (hkn : ∀ {a e c}, L.At a e c → known (f e).block) : Lattice p known where
  chain := L.chain.map f
  rank := L.rank
  known_at h := by
    obtain ⟨e, c, hat, rfl, rfl⟩ := at_map.1 h
    exact hkn hat
  valid h := by
    obtain ⟨e, c, hat, rfl, rfl⟩ := at_map.1 h
    obtain ⟨amount, epoch, hx, hsends⟩ := L.valid hat
    refine ⟨amount, epoch, hf.extends_map hx, fun s hk => ?_⟩
    rw [hf.kind_eq] at hk
    obtain ⟨a', e', c', hat', rfl, hsend, rfl, rfl⟩ := hsends s hk
    exact ⟨a', f e', c'.map f, at_map.2 ⟨e', c', hat', rfl, rfl⟩, hf.hash_eq e',
      (hf.kind_eq e' c').trans hsend, (hf.sent_eq e' c').symm, by rw [hf.details]⟩
  received_once h h' hk hk' := by
    obtain ⟨e, c, hat, rfl, rfl⟩ := at_map.1 h
    obtain ⟨e', c', hat', rfl, rfl⟩ := at_map.1 h'
    rw [hf.kind_eq] at hk hk'
    obtain ⟨rfl, rfl, rfl⟩ := L.received_once hat hat' hk hk'
    exact ⟨rfl, rfl, rfl⟩
  rank_previous h := by
    obtain ⟨e, c, hat, rfl, hc⟩ := at_map.1 h
    obtain ⟨x, c', rfl, rfl, rfl⟩ := map_eq_cons_iff.1 hc.symm
    rw [hf.hash_eq, hf.hash_eq]
    exact L.rank_previous hat
  rank_source h hk := by
    obtain ⟨e, c, hat, rfl, rfl⟩ := at_map.1 h
    rw [hf.kind_eq] at hk
    rw [hf.hash_eq]
    exact L.rank_source hat hk

/-! ## Ledgers -/

section

variable (hf : SameFields f) {L : Lattice p known} {l : Ledger}
  {blocks : Table (BlockType × BlockHash) StoredBlock}

include hf

theorem PendingRep.map {t : Table PendingKey PendingInfo} (h : PendingRep p t L.chain) :
    PendingRep p t (L.chain.map f) where
  stored hat' hk hr := by
    obtain ⟨e, c, hat, rfl, rfl⟩ := at_map.1 hat'
    rw [hf.kind_eq] at hk
    rw [hf.hash_eq, received_map hf] at hr
    rw [hf.hash_eq, hf.sent_eq, hf.details]
    exact h.stored hat hk hr
  only hlk := by
    obtain ⟨a, e, c, hat, hk, hr, hhash⟩ := h.only hlk
    exact ⟨a, f e, c.map f, at_map.2 ⟨e, c, hat, rfl, rfl⟩, (hf.kind_eq e c).trans hk,
      by rwa [hf.hash_eq, received_map hf], (hf.hash_eq e).trans hhash⟩

theorem Holds.map (h : Holds l L) (hkn : ∀ {a e c}, L.At a e c → known (f e).block)
    (hbs : BlocksRep p blocks (L.chain.map f)) (hcard : blocks.keys.card = l.blocks.keys.card) :
    Holds { l with blocks := blocks } (L.map f hf hkn) where
  represents :=
    { blocks := hbs
      accounts := fun a => (h.represents.accounts a).trans (hf.chainInfo?_eq _).symm
      pending := h.represents.pending.map hf
      frontiers := fun hash a => by
        refine (h.represents.frontiers hash a).trans ?_
        exact and_congr (hf.chainLegacy_eq _).symm (by rw [← hf.headHash_eq]; exact Iff.rfl)
      confirmation := fun a => (h.represents.confirmation a).trans (not_congr map_eq_nil_iff.symm)
      weights := h.represents.weights
      supply_eq := h.represents.supply_eq
      blockCount := h.represents.blockCount.trans hcard.symm
      accountCount := h.represents.accountCount }
  genesis hat' hk := by
    obtain ⟨e, c, hat, rfl, rfl⟩ := at_map.1 hat'
    rw [hf.kind_eq] at hk
    obtain ⟨i, hi, hle⟩ := h.genesis hat hk
    exact ⟨i, hi, by rwa [length_map]⟩
  heights hi := (h.heights hi).trans_eq (length_map f).symm

end

end Futurehead
