import Futurehead.Lattice.Basic

/-!
# The tables of a lattice

What each table of the block store holds for a lattice, and that the two changes of a lattice,
one block more and one block less on a chain, are the updates of the tables that the ledger makes.
The updates are stated by what a lookup finds afterwards, since the visitors make them in
different orders.

For each table `T` of blocks, accounts, pending entries, frontiers and confirmation heights:
`TRep` says what it holds, `TRep.push` and `TRep.pop` follow it through the two changes.
-/

namespace Futurehead

open Option Finmap Futurehead.Lattice

variable {p : Params} {known : Block → Prop}

/-- The newest block of the chain is a legacy block. -/
def chainLegacy : List Entry → Bool
  | [] => false
  | e :: _ => e.type != .state

/-! ## What the tables hold -/

/-- The successor stored for an entry on top of `c` in the chain of `a`. -/
def Chains.successor (p : Params) (L : Chains) (a : Account) (c : List Entry) : BlockHash :=
  hashAt p (L a) (c.length + 2)

/-- The block tables hold exactly the blocks of the lattice. -/
structure BlocksRep (p : Params) (t : Table (BlockType × BlockHash) StoredBlock) (L : Chains) :
    Prop where
  stored : ∀ {a e c}, L.At a e c → t.lookup (e.key p) = some (e.stored a c (L.successor p a c))
  only : ∀ {k b}, t.lookup k = some b → ∃ a e c, L.At a e c ∧ k = e.key p

/-- The account table holds the record of every chain. -/
def AccountsRep (p : Params) (t : Table Account AccountInfo) (L : Chains) : Prop :=
  ∀ a, t.lookup a = chainInfo? p (L a)

/-- The pending table holds the sends that are not received. -/
structure PendingRep (p : Params) (t : Table PendingKey PendingInfo) (L : Chains) : Prop where
  stored : ∀ {a e c d}, L.At a e c → e.kind p c = .send d → ¬ L.Received p (e.hash p) →
    t.lookup ⟨d, e.hash p⟩ = some ⟨a, e.sent c, e.details.epoch⟩
  only : ∀ {k i}, t.lookup k = some i → ∃ a e c, L.At a e c ∧ e.kind p c = .send k.account ∧
    ¬ L.Received p (e.hash p) ∧ e.hash p = k.hash

/-- The frontier table holds the newest block of every chain that ends in a legacy block. -/
def FrontiersRep (p : Params) (t : Table BlockHash Account) (L : Chains) : Prop :=
  ∀ h a, t.lookup h = some a ↔ chainLegacy (L a) ∧ headHash p (L a) = h

/-- The confirmation height table has an entry exactly for the open accounts. -/
def ConfirmationRep (t : Table Account ConfirmationHeightInfo) (L : Chains) : Prop :=
  ∀ a, a ∈ t ↔ L a ≠ []

/-! ## A lattice has one table of each kind -/

theorem BlocksRep.unique {t t' : Table (BlockType × BlockHash) StoredBlock} {L : Chains}
    (h : BlocksRep p t L) (h' : BlocksRep p t' L) : t = t' := by
  apply ext_lookup
  have sub {t t' : Table (BlockType × BlockHash) StoredBlock} (h : BlocksRep p t L)
      (h' : BlocksRep p t' L) {k b} (hb : t.lookup k = some b) : t'.lookup k = some b := by
    obtain ⟨a, e, c, hat, rfl⟩ := h.only hb
    rw [h.stored hat] at hb
    rw [h'.stored hat, hb]
  exact fun k => Option.ext fun b => ⟨sub h h', sub h' h⟩

theorem AccountsRep.unique {t t' : Table Account AccountInfo} {L : Chains} (h : AccountsRep p t L)
    (h' : AccountsRep p t' L) : t = t' :=
  ext_lookup fun a => (h a).trans (h' a).symm

theorem PendingRep.unique {t t' : Table PendingKey PendingInfo} {L : Chains} (h : PendingRep p t L)
    (h' : PendingRep p t' L) : t = t' := by
  apply ext_lookup
  have sub {t t' : Table PendingKey PendingInfo} (h : PendingRep p t L)
      (h' : PendingRep p t' L) {k i} (hi : t.lookup k = some i) : t'.lookup k = some i := by
    obtain ⟨d, x⟩ := k
    obtain ⟨a, e, c, hat, hk, hnr, rfl⟩ := h.only hi
    rw [h.stored hat hk hnr] at hi
    rw [h'.stored hat hk hnr, hi]
  exact fun k => Option.ext fun i => ⟨sub h h', sub h' h⟩

theorem FrontiersRep.unique {t t' : Table BlockHash Account} {L : Chains} (h : FrontiersRep p t L)
    (h' : FrontiersRep p t' L) : t = t' :=
  ext_lookup fun x => Option.ext fun a => (h x a).trans (h' x a).symm

/-! ## Blocks -/

section

variable (H : HashAssumptions p known) {L L' : Lattice p known} {a : Account} {n : Entry}
  (g : Chains.Grows L.chain a n L'.chain)

variable {y d : Account} {e : Entry} {c : List Entry} {s : BlockHash}

include H g in
theorem hash_ne_of_grows (h : L.At y e c) : e.hash p ≠ n.hash p := fun heq => by
  obtain ⟨rfl, rfl, rfl⟩ := at_unique H (g.at_of_at h) g.at_new heq
  exact Chains.Grows.not_at_self _ h

include H g in
theorem hash_ne_headHash : n.hash p ≠ headHash p (L.chain a) := by
  cases hc : L.chain a with
  | nil => exact hash_ne_zero H g.at_new
  | cons x c => exact (hash_ne_of_grows H g (Chains.at_head hc)).symm

include H in
theorem eq_head_of_hash (h : L.At y e c) (heq : e.hash p = headHash p (L.chain a)) :
    y = a ∧ e :: c = L.chain a := by
  cases hc : L.chain a with
  | nil => rw [hc] at heq; exact absurd heq (hash_ne_zero H h)
  | cons x d =>
    rw [hc] at heq
    obtain ⟨rfl, rfl, rfl⟩ := at_unique H h (Chains.at_head hc) heq
    exact ⟨rfl, rfl⟩

include H g in
theorem successor_of_grows (h : L.At y e c) : L'.chain.successor p y c =
      if e.hash p = headHash p (L.chain a) then n.hash p else L.chain.successor p y c := by
  unfold Chains.successor
  split
  · rename_i heq
    obtain ⟨rfl, hc⟩ := eq_head_of_hash H h heq
    rw [g.chain_self, ← hc, hashAt, if_pos (by simp)]
  · rename_i hne
    by_cases hy : y = a
    · subst hy
      rw [g.chain_self, hashAt, if_neg]
      intro hlen
      refine hne ?_
      have : e :: c = L.chain y := List.IsSuffix.eq_of_length h (by simp; omega)
      rw [← this, headHash]
    · rw [g.chain_ne hy]

include g in
theorem successor_new : L'.chain.successor p a (L.chain a) = 0 := by
  unfold Chains.successor
  rw [g.chain_self]
  exact hashAt_of_length_lt (by simp)

variable {t t' : Table (BlockType × BlockHash) StoredBlock}

include H g in
theorem BlocksRep.push (h : BlocksRep p t L.chain)
    (ht : ∀ k, t'.lookup k =
      if k = n.key p then some (n.stored a (L.chain a) 0)
      else if k.2 = headHash p (L.chain a) then (t.lookup k).map (·.setSuccessor (n.hash p))
      else t.lookup k) :
    BlocksRep p t' L'.chain where
  stored := fun {y e c} hat => by
    rw [ht]
    rcases g.at_iff.1 hat with ⟨rfl, rfl, rfl⟩ | hold
    · rw [if_pos rfl, successor_new g]
    · have hne := hash_ne_of_grows H g hold
      rw [if_neg (fun hk => hne (congrArg Prod.snd hk)), successor_of_grows H g hold, h.stored hold,
        Entry.key_snd]
      by_cases hh : e.hash p = headHash p (L.chain a)
      · rw [if_pos hh, if_pos hh, map_some, Entry.stored_setSuccessor]
      · rw [if_neg hh, if_neg hh]
  only := fun {k b} hk => by
    rw [ht] at hk
    by_cases hkn : k = n.key p
    · exact ⟨a, n, _, g.at_new, hkn⟩
    · rw [if_neg hkn] at hk
      have : ∃ b', t.lookup k = some b' := by
        split at hk
        · obtain ⟨b', hb', -⟩ := map_eq_some_iff.1 hk
          exact ⟨b', hb'⟩
        · exact ⟨b, hk⟩
      obtain ⟨b', hb'⟩ := this
      obtain ⟨y, e, c, hat, hkey⟩ := h.only hb'
      exact ⟨y, e, c, g.at_of_at hat, hkey⟩

include H g in
theorem BlocksRep.pop (h : BlocksRep p t L'.chain)
    (ht : ∀ k, t'.lookup k =
      if k = n.key p then none
      else if k.2 = headHash p (L.chain a) then (t.lookup k).map (·.setSuccessor 0)
      else t.lookup k) :
    BlocksRep p t' L.chain where
  stored := fun {y e c} hat => by
    have hne := hash_ne_of_grows H g hat
    rw [ht, if_neg (fun hk => hne (congrArg Prod.snd hk)), h.stored (g.at_of_at hat),
      successor_of_grows H g hat, Entry.key_snd]
    by_cases hh : e.hash p = headHash p (L.chain a)
    · obtain ⟨rfl, hc⟩ := eq_head_of_hash H hat hh
      have hs : L.chain.successor p y c = 0 := by
        unfold Chains.successor
        exact hashAt_of_length_lt (by rw [← hc]; simp)
      rw [if_pos hh, if_pos hh, map_some, Entry.stored_setSuccessor, hs]
    · rw [if_neg hh, if_neg hh]
  only := fun {k b} hk => by
    rw [ht] at hk
    by_cases hkn : k = n.key p
    · rw [if_pos hkn] at hk
      cases hk
    · rw [if_neg hkn] at hk
      have : ∃ b', t.lookup k = some b' := by
        split at hk
        · obtain ⟨b', hb', -⟩ := map_eq_some_iff.1 hk
          exact ⟨b', hb'⟩
        · exact ⟨b, hk⟩
      obtain ⟨b', hb'⟩ := this
      obtain ⟨y, e, c, hat, rfl⟩ := h.only hb'
      rcases g.at_iff.1 hat with ⟨rfl, rfl, rfl⟩ | hold
      · exact absurd rfl hkn
      · exact ⟨y, e, c, hold, rfl⟩

/-! ## Pending entries -/

include H g in
theorem not_received_new : ¬ L'.Received (n.hash p) := by
  rintro ⟨y, e, c, hat, hk⟩
  obtain ⟨_, _, y', e', c', hat', hs, -⟩ := sends_of_receive hat hk
  -- the send it receives is the new block itself, so it cannot be the receiver or come before it
  obtain ⟨rfl, rfl, rfl⟩ := at_unique H hat' g.at_new hs
  have hrank := L'.rank_source hat hk
  rcases g.at_iff.1 hat with ⟨rfl, rfl, rfl⟩ | hold
  · omega
  · obtain ⟨_, _, y', e', c', hat'', hs', -⟩ := sends_of_receive hold hk
    exact hash_ne_of_grows H g hat'' hs'

variable {q q' : Table PendingKey PendingInfo}

include H g in
theorem PendingRep.push_send (h : PendingRep p q L.chain) (hk : n.kind p (L.chain a) = .send d)
    (hq : ∀ k, q'.lookup k =
      if k = ⟨d, n.hash p⟩ then some ⟨a, n.sent (L.chain a), n.details.epoch⟩ else q.lookup k) :
    PendingRep p q' L'.chain := by
  have hrec {s} : L'.Received s ↔ L.Received s := by
    rw [Lattice.Received, g.received_iff, hk]; simp
  constructor
  · intro y e c d' hat hke hnr
    rw [hq]
    rcases g.at_iff.1 hat with ⟨rfl, rfl, rfl⟩ | hold
    · obtain rfl : d = d' := Kind.send.inj (hk.symm.trans hke)
      rw [if_pos rfl]
    · rw [if_neg, h.stored hold hke (mt hrec.2 hnr)]
      exact fun heq => hash_ne_of_grows H g hold (congrArg PendingKey.hash heq)
  · intro k i hki
    rw [hq] at hki
    by_cases hkn : k = ⟨d, n.hash p⟩
    · subst hkn
      exact ⟨a, n, _, g.at_new, hk, not_received_new H g, rfl⟩
    · rw [if_neg hkn] at hki
      obtain ⟨y, e, c, hat, hke, hnr, hh⟩ := h.only hki
      exact ⟨y, e, c, g.at_of_at hat, hke, mt hrec.1 hnr, hh⟩

include H g in
theorem PendingRep.push_receive (h : PendingRep p q L.chain)
    (hk : n.kind p (L.chain a) = .receive s)
    (hq : ∀ k, q'.lookup k = if k = ⟨a, s⟩ then none else q.lookup k) :
    PendingRep p q' L'.chain := by
  have hrec {x} : L'.Received x ↔ s = x ∨ L.Received x := by
    rw [Lattice.Received, g.received_iff, hk, Kind.receive.injEq]
  constructor
  · intro y e c d hat hke hnr
    rcases g.at_iff.1 hat with ⟨rfl, rfl, rfl⟩ | hold
    · rw [hk] at hke; cases hke
    · rw [hq, if_neg, h.stored hold hke (fun hr => hnr (hrec.2 (.inr hr)))]
      exact fun heq => hnr (hrec.2 (.inl (congrArg PendingKey.hash heq).symm))
  · intro k i hki
    rw [hq] at hki
    split at hki
    · cases hki
    · rename_i hne
      obtain ⟨y, e, c, hat, hke, hnr, hh⟩ := h.only hki
      refine ⟨y, e, c, g.at_of_at hat, hke, fun hr => ?_, hh⟩
      rcases hrec.1 hr with rfl | hr
      · -- the send that `n` receives goes to `a`
        obtain ⟨_, _, y', e', c', hat', hs, hk', -⟩ := sends_of_receive g.at_new hk
        obtain ⟨rfl, rfl, rfl⟩ := at_unique H hat' (g.at_of_at hat) hs
        refine hne ?_
        cases k
        simp_all
      · exact hnr hr

include g in
theorem pendingRep_of_no_amount (hs : ∀ d, n.kind p (L.chain a) ≠ .send d)
    (hr : ∀ s, n.kind p (L.chain a) ≠ .receive s) :
    PendingRep p q L.chain ↔ PendingRep p q L'.chain := by
  have hrec {x} : L'.Received x ↔ L.Received x := by
    rw [Lattice.Received, g.received_iff]
    simp [hr]
  constructor <;> intro h <;> constructor
  · intro y e c d hat hke hnr
    rcases g.at_iff.1 hat with ⟨rfl, rfl, rfl⟩ | hold
    · exact absurd hke (hs d)
    · exact h.stored hold hke (mt hrec.2 hnr)
  · intro k i hki
    obtain ⟨y, e, c, hat, hke, hnr, hh⟩ := h.only hki
    exact ⟨y, e, c, g.at_of_at hat, hke, mt hrec.1 hnr, hh⟩
  · intro y e c d hat hke hnr
    exact h.stored (g.at_of_at hat) hke (mt hrec.1 hnr)
  · intro k i hki
    obtain ⟨y, e, c, hat, hke, hnr, hh⟩ := h.only hki
    rcases g.at_iff.1 hat with ⟨rfl, rfl, rfl⟩ | hold
    · exact absurd hke (hs _)
    · exact ⟨y, e, c, hold, hke, mt hrec.2 hnr, hh⟩

include H g

theorem PendingRep.pop_send (h : PendingRep p q L'.chain) (hk : n.kind p (L.chain a) = .send d)
    (hq : ∀ k, q'.lookup k = if k = ⟨d, n.hash p⟩ then none else q.lookup k) :
    PendingRep p q' L.chain := by
  have hrec {s} : L'.Received s ↔ L.Received s := by
    rw [Lattice.Received, g.received_iff, hk]; simp
  constructor
  · intro y e c d' hat hke hnr
    rw [hq, if_neg, h.stored (g.at_of_at hat) hke (mt hrec.1 hnr)]
    exact fun heq => hash_ne_of_grows H g hat (congrArg PendingKey.hash heq)
  · intro k i hki
    rw [hq] at hki
    split at hki
    · cases hki
    · rename_i hne
      obtain ⟨y, e, c, hat, hke, hnr, hh⟩ := h.only hki
      rcases g.at_iff.1 hat with ⟨rfl, rfl, rfl⟩ | hold
      · refine absurd ?_ hne
        obtain rfl : d = k.account := Kind.send.inj (hk.symm.trans hke)
        cases k
        simp_all
      · exact ⟨y, e, c, hold, hke, mt hrec.2 hnr, hh⟩

theorem PendingRep.pop_receive {i : PendingInfo} (h : PendingRep p q L'.chain)
    (hk : n.kind p (L.chain a) = .receive s)
    (hi : ∃ y e c, L.At y e c ∧ e.hash p = s ∧ i = ⟨y, e.sent c, e.details.epoch⟩)
    (hq : ∀ k, q'.lookup k = if k = ⟨a, s⟩ then some i else q.lookup k) :
    PendingRep p q' L.chain := by
  have hrec {x} : L'.Received x ↔ s = x ∨ L.Received x := by
    rw [Lattice.Received, g.received_iff, hk, Kind.receive.injEq]
  -- the new block was the only one to receive `s`
  have hnot : ¬ L.Received s := by
    rintro ⟨y, e, c, hat, hke⟩
    obtain ⟨rfl, rfl, rfl⟩ := L'.received_once (g.at_of_at hat) g.at_new hke hk
    exact Chains.Grows.not_at_self _ hat
  obtain ⟨y0, e0, c0, hat0, rfl, rfl⟩ := hi
  obtain ⟨_, _, y1, e1, c1, hat1, hs1, hk1, -⟩ := sends_of_receive g.at_new hk
  obtain ⟨rfl, rfl, rfl⟩ := at_unique H hat1 (g.at_of_at hat0) hs1
  constructor
  · intro y e c d hat hke hnr
    rw [hq]
    by_cases heq : e.hash p = e1.hash p
    · obtain ⟨rfl, rfl, rfl⟩ := at_unique H hat hat0 heq
      obtain rfl : a = d := Kind.send.inj (hk1.symm.trans hke)
      rw [if_pos rfl]
    · rw [if_neg (fun hkey => heq (congrArg PendingKey.hash hkey)), h.stored (g.at_of_at hat) hke]
      exact fun hr => (hrec.1 hr).elim (fun hs => heq hs.symm) hnr
  · intro k j hkj
    rw [hq] at hkj
    by_cases hkey : k = ⟨a, e1.hash p⟩
    · subst hkey
      exact ⟨y1, e1, c1, hat0, hk1, hnot, rfl⟩
    · rw [if_neg hkey] at hkj
      obtain ⟨y, e, c, hat, hke, hnr, hh⟩ := h.only hkj
      rcases g.at_iff.1 hat with ⟨rfl, rfl, rfl⟩ | hold
      · rw [hk] at hke; cases hke
      · exact ⟨y, e, c, hold, hke, fun hr => hnr (hrec.2 (.inr hr)), hh⟩

end

/-! ## Accounts, frontiers and confirmation heights

These tables depend on the chain of the changed account only, so one lemma covers both changes. -/

section

variable (H : HashAssumptions p known) {L L' : Lattice p known} {a : Account}
  (hne : ∀ y ≠ a, L'.chain y = L.chain y)

include hne in
theorem AccountsRep.update {t t' : Table Account AccountInfo} (h : AccountsRep p t L.chain)
    (ht : ∀ x, t'.lookup x = if x = a then chainInfo? p (L'.chain a) else t.lookup x) :
    AccountsRep p t' L'.chain := fun x => by
  rw [ht]
  split
  · rename_i hx; rw [hx]
  · rename_i hx; rw [h x, hne x hx]

include H in
theorem headHash_ne {y : Account} (hy : y ≠ a) (hl : chainLegacy (L.chain y)) :
    headHash p (L.chain y) ≠ headHash p (L.chain a) := fun heq => by
  cases hc : L.chain y with
  | nil => simp [hc, chainLegacy] at hl
  | cons e c =>
    rw [hc, headHash] at heq
    exact hy (eq_head_of_hash H (Chains.at_head hc) heq).1

include H hne in
theorem FrontiersRep.update {t t' : Table BlockHash Account} (h : FrontiersRep p t L.chain)
    (ht : ∀ x, t'.lookup x =
      if chainLegacy (L'.chain a) ∧ x = headHash p (L'.chain a) then some a
      else if x = headHash p (L.chain a) then none
      else t.lookup x) :
    FrontiersRep p t' L'.chain := fun x y => by
  rw [ht]
  by_cases hy : y = a
  · subst hy
    split
    · rename_i hx; simp [hx.1, hx.2]
    · rename_i hx
      have : ¬ (chainLegacy (L'.chain y) ∧ headHash p (L'.chain y) = x) :=
        fun hr => hx ⟨hr.1, hr.2.symm⟩
      simp only [this, iff_false]
      split
      · simp
      · rename_i hx'
        rw [h x y]
        exact fun hr => hx' hr.2.symm
  · rw [hne y hy]
    split
    · rename_i hx
      simp only [Option.some.injEq, Ne.symm hy, false_iff]
      rintro ⟨hl, heq⟩
      rw [← hne y hy] at hl heq
      exact headHash_ne H hy hl (heq.trans hx.2)
    · split
      · rename_i hx
        simp only [reduceCtorEq, false_iff]
        rintro ⟨hl, heq⟩
        exact headHash_ne H hy hl (heq.trans hx)
      · exact h x y

include hne in
theorem ConfirmationRep.update {t t' : Table Account ConfirmationHeightInfo}
    (h : ConfirmationRep t L.chain) (ht : ∀ x ≠ a, t'.lookup x = t.lookup x)
    (hmem : a ∈ t' ↔ L'.chain a ≠ []) : ConfirmationRep t' L'.chain := fun x => by
  by_cases hx : x = a
  · rw [hx]; exact hmem
  · rw [← lookup_isSome, ht x hx, lookup_isSome, h x, hne x hx]

end

end Futurehead
