import Futurehead.Processing.Forced
import Futurehead.Voting.Quorum

/-!
# Safety

What the parts guarantee together. A ledger never holds two blocks with one qualified root, and no
later interleaving of `process`, `rollback` and cementing removes a cemented block or puts a rival in
its place. The votes of an election are counted with the balances in that ledger, and exactly.
-/

namespace Futurehead

variable {p : Params} {known : Block → Prop} (H : HashAssumptions p known) {L : Lattice p known}
  {l l' : Ledger} {b b' : Block}

include H

/-- Both blocks stand on the same block of the same chain. -/
theorem eq_of_qualifiedRoot (h : Holds l L) (hb : l.Stores p b) (hb' : l.Stores p b')
    (hroot : b.hashables.qualifiedRoot = b'.hashables.qualifiedRoot) : b = b' := by
  obtain ⟨y, x, d, hx, rfl⟩ := (stores_iff H h.represents.blocks b).1 hb
  obtain ⟨a, e, c, hat, rfl⟩ := (stores_iff H h.represents.blocks b').1 hb'
  obtain ⟨_, _, hext⟩ := Lattice.extends_at hat
  obtain ⟨rfl, rfl⟩ := below_of_qualifiedRoot H hx hext ((List.suffix_cons e c).trans hat) hroot
  rw [(Chains.At.eq_of_length hx hat rfl).1]

/-- No double spend: the stored blocks are told apart by their qualified roots. -/
theorem stored_root_unique (hl : Reached p known (NoForeignEpoch p) l) (hb : l.Stores p b) :
    ∀ b', l.Stores p b' → b'.hashables.qualifiedRoot = b.hashables.qualifiedRoot → b' = b := by
  obtain ⟨L, h⟩ := hl.holds H
  exact fun b' hb' hroot => eq_of_qualifiedRoot H h hb' hb hroot

/-- A cemented block is final: after any further run it is stored and cemented, and no other block
with its root is stored. -/
theorem cemented_final (hl : Reached p known (NoForeignEpoch p) l)
    (hrun : Reaches (Step p) (fun l action => action.Given known ∧ NoForeignEpoch p l action) l l')
    (hb : l.Stores p b) (hc : l.Confirmed (p.hash b)) :
    l'.Stores p b ∧ l'.Confirmed (p.hash b) ∧
      ∀ b', l'.Stores p b' → b'.hashables.qualifiedRoot = b.hashables.qualifiedRoot → b' = b := by
  obtain ⟨L, h⟩ := hl.holds H
  obtain ⟨a, e, c, hat, rfl⟩ := (stores_iff H h.represents.blocks b).1 hb
  have hcem := (confirmed_at H h.represents.blocks hat).1 hc
  obtain ⟨L', h', hat', hcem'⟩ := hrun.invariant
    (I := fun l => ∃ L : Lattice p known, Holds l L ∧ L.At a e c ∧ l.CementedAt a c)
    ⟨L, h, hat, hcem⟩ (by
      rintro t action t' ⟨L, h, hat, hcem⟩ ⟨hgiv, hok⟩ hstep
      obtain ⟨L', h', hkeep, -⟩ := lattice_of_step H h hgiv hok hstep
      exact ⟨L', h', hkeep hat hcem⟩)
  have hb' := (stores_iff H h'.represents.blocks _).2 ⟨a, e, c, hat', rfl⟩
  exact ⟨hb', (confirmed_at H h'.represents.blocks hat').2 hcem',
    fun b' hst hroot => eq_of_qualifiedRoot H h' hst hb' hroot⟩

omit H
open Sample

theorem stored_root_unique_pays :
    ∃ l, run pays = some l ∧ l.Stores params sendB ∧ ∀ b', l.Stores params b' →
      b'.hashables.qualifiedRoot = sendB.hashables.qualifiedRoot → b' = sendB := by
  obtain ⟨l, hl, hb⟩ : ∃ l ∈ run pays, ∃ s ∈ l.blockGet (params.hash sendB), s.block = sendB := by
    decide +kernel
  exact ⟨l, hl, hb, stored_root_unique hashAssumptions
    (reached_of_no_epochLink (by decide +kernel) hl) hb⟩

/-- The send to B cannot be rolled back once the open block of B is cemented. -/
theorem cemented_final_openB :
    ∃ l l', run (opens ++ [.cement accountB ⟨1, Sample.hash openB⟩]) = some l ∧
      l.exec params 20 (take sendZero) = some l' ∧ l'.Stores params openB := by
  obtain ⟨l, hl, hb, hc, l', hexec, -⟩ :
    ∃ l ∈ run (opens ++ [.cement accountB ⟨1, Sample.hash openB⟩]),
    (∃ s ∈ l.blockGet (params.hash openB), s.block = openB) ∧
    l.blockConfirmed (params.hash openB) = some true ∧
    ∃ l' ∈ l.exec params 20 (take sendZero), l'.blockCount = 3 := by decide +kernel
  exact ⟨l, l', hl, hexec, (cemented_final hashAssumptions
    (reached_of_no_epochLink (by decide +kernel) hl)
    (.tail (a := take sendZero) .refl ⟨trivial, trivial⟩ ⟨20, hexec⟩) hb hc).1⟩

/-! ## Tallies -/

section

variable (votes : Table Account VoteInfo) (P : VoteInfo → Prop) [DecidablePred P]

/-- The balances of the accounts whose representative has cast such a vote. -/
def Ledger.delegated (l : Ledger) : Nat :=
  l.accounts.total fun info =>
    ((votes.lookup info.representative).map fun vote =>
      if P vote then info.balance.toNat else 0).getD 0

theorem sum_weightOf :
    (votes.entries.map fun vote => if P vote.2 then l.weightOf vote.1 else 0).sum =
      l.delegated votes P := by
  have hvote (vote : (_ : Account) × VoteInfo) : (if P vote.2 then l.weightOf vote.1 else 0) =
      (l.accounts.entries.map fun e => if vote.1 = e.2.representative then
        if P vote.2 then e.2.balance.toNat else 0 else 0).sum := by
    split
    · simp only [Ledger.weightOf, Finmap.total, eq_comm]
    · simp
  simp only [hvote]
  rw [Multiset.sum_map_sum_map]
  exact congrArg Multiset.sum (Multiset.map_congr rfl fun e _ =>
    Finmap.sum_entries_of_key votes _ fun vote => if P vote then e.2.balance.toNat else 0)

theorem delegated_le : l.delegated votes P ≤ l.accounts.total fun info => info.balance.toNat := by
  refine Finmap.total_mono _ fun info => ?_
  cases votes.lookup info.representative with
  | none => exact Nat.zero_le _
  | some vote =>
    change (if P vote then info.balance.toNat else 0) ≤ _
    split <;> omega

end

include H in
/-- With the weights of the ledger no tally wraps: a candidate gets the balances of exactly the
accounts whose representative voted for it. -/
theorem tally_exact {node : NodeView} (hl : Reached p known (NoForeignEpoch p) l)
    (hnode : node.weight = l.representationGet) (e : Election) :
    e.votedWeight node < 2 ^ 128 ∧ ∀ x ∈ e.tally node, ∃ hash, e.blocks.lookup hash = some x.2 ∧
      x.1.toNat = l.delegated e.lastVotes (·.hash = hash) := by
  obtain ⟨L, h⟩ := hl.holds H
  have hwt (r : Account) : (node.weight r).toNat = l.weightOf r := by
    rw [hnode, h.represents.weightOf_eq]
  have hlt : e.votedWeight node < 2 ^ 128 := by
    have hsum := sum_weightOf e.lastVotes (fun _ => True) (l := l)
    have hle := delegated_le e.lastVotes (fun _ => True) (l := l)
    have hsupply := h.represents.supply_eq
    have hmax : genesisAmount.toNat < 2 ^ 128 := genesisAmount.isLt
    unfold Election.votedWeight
    simp only [hwt]
    simp only [if_true] at hsum
    unfold supply at hsupply
    omega
  refine ⟨hlt, fun x hx => ?_⟩
  obtain ⟨hash, -, hget, hx⟩ := (e.tally_spec node).entry hx
  refine ⟨hash, hget, ?_⟩
  rw [← hx, Election.toNat_blockWeight hlt, ← sum_weightOf, Election.weightOf]
  simp only [hwt]

/-- The representative of the account that received 10 votes for a candidate. -/
def Sample.delegates : Election :=
  { candidates with lastVotes := (∅ : Table Account VoteInfo).insert 6 ⟨some 0, 1, hashA⟩ }

theorem tally_exact_delegates :
    ∃ l hash, run receives = some l ∧ 10 = l.delegated delegates.lastVotes (·.hash = hash) := by
  obtain ⟨l, hl, x, hx, hten⟩ : ∃ l ∈ run receives, ∃ x ∈ (delegates.tally
    { viewAhead with weight := l.representationGet }).head?, x.1 = 10 := by decide +kernel
  obtain ⟨hash, -, hsum⟩ := (tally_exact hashAssumptions
    (reached_of_no_epochLink (by decide +kernel) hl) rfl delegates).2 x (List.mem_of_mem_head? hx)
  exact ⟨l, hash, hl, by rw [← hsum, hten]; rfl⟩

end Futurehead
