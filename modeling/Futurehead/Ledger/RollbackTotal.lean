import Futurehead.Ledger.RollbackSpec

/-!
# Rollback returns

The recursion of `ledger::rollback` ends because a nested rollback is for a block of larger rank:
`rankAbove` counts the blocks that are left for it. More steps than stored blocks are enough
(`rollback_total`), provided every state block that a cemented block rests on is cemented
(`StateClosed`). Otherwise the state visitor deletes a pending entry that is not there. The genesis
block can only be asked for when it is cemented: it has no send that could be given back.
-/

namespace Futurehead

open Option Finmap Bool Futurehead.Lattice Ledger Chains

variable {p : Params} {known : Block → Prop}

/-- Every state block that a cemented block rests on is cemented. -/
def Ledger.StateClosed (l : Ledger) (L : Lattice p known) : Prop :=
  ∀ {a e c}, L.At a e c → e.type = .state → l.Pinned L (e.hash p) → l.CementedAt a c

theorem Rolled.stateClosed {l l' : Ledger} {L L' : Lattice p known} {target : BlockHash}
    {removed : List Block} (r : Rolled l L target removed l' L') (cl : l.StateClosed L) :
    l'.StateClosed L' :=
  fun hat ht hp => (r.cementedAt_iff hat).2 (cl (r.within.at hat) ht (r.pinned hp))

/-! ## The measure -/

/-- The number of stored blocks of rank `k` or more. -/
def Ledger.rankAbove (l : Ledger) (L : Lattice p known) (k : Nat) : Nat :=
  (l.blocks.keys.filter fun x => k ≤ L.rank x.2).card

section

variable {l l' : Ledger} {L L' : Lattice p known} {k k' : Nat} {a : Account} {e : Entry}
  {c : List Entry} {target : BlockHash} {removed : List Block}

theorem mem_keys_at (hb : BlocksRep p l.blocks L.chain) (hat : L.At a e c) :
    e.key p ∈ l.blocks.keys :=
  mem_keys.2 (mem_iff.2 ⟨_, hb.stored hat⟩)

theorem rankAbove_le_card : l.rankAbove L k ≤ l.blocks.keys.card := Finset.card_filter_le _ _

theorem rankAbove_mono (h : k ≤ k') : l.rankAbove L k' ≤ l.rankAbove L k := by
  refine Finset.card_le_card fun x hx => ?_
  rw [Finset.mem_filter] at hx ⊢
  exact ⟨hx.1, h.trans hx.2⟩

theorem rankAbove_succ_lt (hb : BlocksRep p l.blocks L.chain) (hat : L.At a e c)
    (hk : k ≤ L.rank (e.hash p)) : l.rankAbove L (L.rank (e.hash p) + 1) < l.rankAbove L k := by
  refine Finset.card_lt_card ⟨fun x hx => ?_, fun hsub => ?_⟩
  · rw [Finset.mem_filter] at hx ⊢
    exact ⟨hx.1, by omega⟩
  · have hmem : e.key p ∈ l.blocks.keys.filter fun x => k ≤ L.rank x.2 :=
      Finset.mem_filter.2 ⟨mem_keys_at hb hat, hk⟩
    have := (Finset.mem_filter.1 (hsub hmem)).2
    simp only [Entry.key_snd] at this
    omega

theorem Rolled.rankAbove_lt (r : Rolled l L target removed l' L')
    (hb : BlocksRep p l.blocks L.chain) (hb' : BlocksRep p l'.blocks L'.chain)
    (H : HashAssumptions p known) (hat : L.At a e c) (hgone : ¬ L'.At a e c)
    (hk : k ≤ L.rank (e.hash p)) : l'.rankAbove L' k < l.rankAbove L k := by
  refine Finset.card_lt_card ⟨fun x hx => ?_, fun hsub => ?_⟩
  · rw [Finset.mem_filter, r.rank] at hx
    obtain ⟨b, hlk⟩ := mem_iff.1 (mem_keys.1 hx.1)
    obtain ⟨y, w, d, haty, rfl⟩ := hb'.only hlk
    exact Finset.mem_filter.2 ⟨mem_keys_at hb (r.within.at haty), hx.2⟩
  · have hmem : e.key p ∈ l.blocks.keys.filter fun x => k ≤ L.rank x.2 :=
      Finset.mem_filter.2 ⟨mem_keys_at hb hat, hk⟩
    obtain ⟨b, hlk⟩ := mem_iff.1 (mem_keys.1 (Finset.mem_filter.1 (hsub hmem)).1)
    obtain ⟨y, w, d, haty, hkey⟩ := hb'.only hlk
    have hh : w.hash p = e.hash p := (congrArg Prod.snd hkey).symm
    obtain ⟨rfl, rfl, rfl⟩ := at_unique H (r.within.at haty) hat hh
    exact hgone haty

end

/-! ## The recursion -/

/-- The rollback returns when fewer than `m` blocks are of the rank of the block or above. -/
def RollbackReturns (p : Params) (known : Block → Prop)
    (rollback : Ledger → BlockHash → List Block → RolledBack) (m : Nat) : Prop :=
  ∀ {l : Ledger} {L : Lattice p known} {shift : Account → Amount} {a : Account} {e : Entry}
    {c : List Entry}, Represents l L shift → l.StateClosed L → L.At a e c →
    (e.kind p c = .genesis → l.CementedAt a c) →
    l.rankAbove L (L.rank (e.hash p)) < m → ∀ list, ∃ r, rollback l (e.hash p) list = some r

section

variable (H : HashAssumptions p known) {L : Lattice p known} {l : Ledger}
  {shift : Account → Amount} {a d : Account} {n e : Entry} {c : List Entry}
  {rollback : Ledger → BlockHash → List Block → RolledBack} {list : List Block}
  {fuel m : Nat} (hr : RollbackSpec p known rollback) (ht : RollbackReturns p known rollback m)

include H hr ht in
theorem awaitPending_total (h : Represents l L shift) (cl : l.StateClosed L)
    (hc : L.chain a = n :: c) (hk : n.kind p c = .send d)
    (hm : l.rankAbove L (L.rank (n.hash p) + 1) < m)
    (hf : l.rankAbove L (L.rank (n.hash p) + 1) < fuel) :
    ∃ r, awaitPending rollback ⟨d, n.hash p⟩ fuel l list = some r := by
  induction fuel generalizing l L list with
  | zero => omega
  | succ fuel ih =>
    rw [awaitPending]
    split
    · exact ⟨_, rfl⟩
    · rename_i hmiss
      have hmiss := of_decide_eq_false (eq_false_of_not_eq_true hmiss)
      obtain ⟨x, f, hd, hrest, hrank, -⟩ := receiver_of_missing H h (at_head hc) hk hmiss
      have hatx := at_head hd
      obtain ⟨⟨err, l1, list1⟩, hnested⟩ :=
        ht h cl hatx (fun hg => absurd hg (not_genesis_of_restsOn H hatx hrest hrank))
          ((rankAbove_mono hrank).trans_lt hm) list
      obtain ⟨L1, removed, h1, r1, hok, -⟩ := hr h hatx hnested
      rw [latest_chain h.accounts, hd, headHash, hnested]
      simp only [bind_eq_bind, bind_some]
      split
      · exact ⟨_, rfl⟩
      · rename_i hfls
        obtain ⟨hgone, -⟩ := hok (eq_false_of_not_eq_true hfls)
        have hc1 := chain_eq_of_within r1.within hc (r1.at_of_rank_lt (at_head hc) hrank)
        have hlt : l1.rankAbove L1 (L.rank (n.hash p) + 1) < _ :=
          r1.rankAbove_lt h.blocks h1.blocks H hatx hgone hrank
        rw [← r1.rank] at hlt
        exact ih h1 (r1.stateClosed cl) hc1 (hlt.trans (r1.rank ▸ hm))
          (hlt.trans_le (Nat.le_of_lt_succ (r1.rank ▸ hf)))

section

variable {representative : Account} {link : Link} (h : Represents l L shift)
  (cl : l.StateClosed L) (hc : L.chain a = n :: c) (hcem : ¬ l.CementedAt a c)
  (hm : l.rankAbove L (L.rank (n.hash p) + 1) < m)
  (hf : l.rankAbove L (L.rank (n.hash p) + 1) < fuel)

include H hr ht h cl hc hcem hm hf

theorem undoStatePending_total
    (hb : n.block.hashables = .stateBlock a (headHash p c) representative n.balance link)
    (list : List Block) :
    ∃ r, l.undoStatePending p rollback fuel (n.hash p) a link n.balance (chainBal c) false
      list = some r := by
  have hat := at_head hc
  unfold undoStatePending
  split
  · rename_i hlt
    have hk : n.kind p c = .send link := by
      unfold Entry.kind; rw [hb, Hashables.kind, if_pos hlt]
    obtain ⟨⟨err, l1, list1⟩, hawait⟩ := awaitPending_total H hr ht h cl hc hk hm hf
    obtain ⟨L1, removed, h1, r1, hc1, hok, herr⟩ := awaitPending_spec H hr h hc hk hawait
    have hfls : err = false := eq_false_of_not_eq_true fun he =>
      hcem (cl hat (by rw [Entry.type, hb]; rfl) (herr he).2)
    rw [if_neg Bool.false_ne_true, hawait]
    simp only [bind_eq_bind, bind_some]
    rw [pendingDel_eq (hok hfls).1]
    exact ⟨_, rfl⟩
  · rename_i hlt
    split
    · rename_i hlink
      have hk : n.kind p c = .receive link := by
        unfold Entry.kind
        rw [hb, Hashables.kind, if_neg hlt, if_neg (not_or.2 hlink)]
      obtain ⟨_, _, y, e, f, hate, rfl, -⟩ := sends_of_receive hat hk
      unfold undoStateReceive
      rw [account_at H h.blocks hate]
      exact ⟨_, rfl⟩
    · exact ⟨_, rfl⟩

theorem rollbackVisit_total (hgen : n.kind p c ≠ .genesis) (list : List Block) :
    ∃ r, l.rollbackVisit p rollback fuel n.block list = some r := by
  have hprev := previous_at (at_head hc)
  cases hb : n.block.hashables with
  | sendBlock prev destination bal =>
    rw [hb, Hashables.previous] at hprev
    have hk : n.kind p c = .send destination := by unfold Entry.kind; rw [hb]; rfl
    obtain ⟨⟨err, l1, list1⟩, hawait⟩ := awaitPending_total H hr ht h cl hc hk hm hf
    obtain ⟨l', list', hrun, -⟩ := rollbackVisit_send H hr h hc hcem (hprev ▸ hb) hawait
    exact ⟨_, hrun⟩
  | stateBlock =>
    have hb := hashables_state hc hb
    obtain ⟨w, shift', h1, heq, hok⟩ := rollbackVisit_state H hr h hc hcem hb
    obtain ⟨⟨l2, list2⟩, hpend⟩ := undoStatePending_total H hr ht h1 cl hc hcem hm hf hb list
    obtain ⟨l3, hundo, -⟩ := hok l2 list2 hpend
    rw [heq, hpend, bind_some, hundo]
    exact ⟨_, rfl⟩
  | _ =>
    obtain ⟨l', hrun, -⟩ := rollbackVisit_legacy H h hc hcem (by simp [Entry.type, hb, Hashables.type])
      (by simp [Entry.type, hb, Hashables.type]) hgen
    exact ⟨_, hrun⟩

end

include H hr ht in
theorem rollbackLoop_total (h : Represents l L shift) (cl : l.StateClosed L) (hat : L.At a e c)
    (hgen : e.kind p c = .genesis → l.CementedAt a c)
    (hm : l.rankAbove L (L.rank (e.hash p)) ≤ m)
    (hf : l.rankAbove L (L.rank (e.hash p)) < fuel) :
    ∃ r, rollbackLoop p rollback a (c.length + 1) (e.hash p) fuel l list = some r := by
  induction fuel generalizing l L list with
  | zero => omega
  | succ fuel ih =>
    obtain ⟨n, c1, i, hc, hsuf, hi, hlow, heq⟩ := rollbackLoop_turn H h hat fuel list
    have hatn := at_head hc
    have hrank := rank_le_of_restsOn (restsOn_below (p := p) hatn hsuf)
    have hlt := rankAbove_succ_lt h.blocks hatn hrank
    rw [heq]
    split
    · rename_i hht
      have hcem := hlow hht
      -- the genesis block stands alone below the others, so it would be the target
      have hgenn : n.kind p c1 ≠ .genesis := by
        intro hk
        obtain rfl := first_of_genesis hatn hk
        obtain ⟨rfl, rfl⟩ := List.cons.inj (hsuf.eq_of_length_le (by simp))
        exact hcem (hgen hk)
      obtain ⟨⟨err, l1, list1⟩, hvis⟩ := rollbackVisit_total H hr ht h cl hc hcem
        (hlt.trans_le hm) (hlt.trans_le (Nat.le_of_lt_succ hf)) hgenn (list ++ [n.block])
      rw [hvis, bind_some]
      rcases rollbackVisit_spec H hr h hc hcem hvis with
        ⟨rfl, -⟩ | ⟨rfl, L1, removed, h1, r1, hc1, rfl⟩
      · exact ⟨_, rfl⟩
      · rw [if_neg Bool.false_ne_true]
        by_cases hat1 : L1.At a e c
        · have hgone : ¬ L1.At a n c1 := fun hn => by
            have := hn.length_le
            rw [hc1] at this
            omega
          have hlt1 := r1.rankAbove_lt h.blocks h1.blocks H hatn hgone hrank
          rw [← r1.rank] at hlt1 hm hf
          exact ih h1 (r1.stateClosed cl) hat1 (fun hk => (r1.cementedAt_iff hat1).2 (hgen hk))
            (hlt1.le.trans hm)
            (hlt1.trans_le (Nat.le_of_lt_succ hf))
        · cases fuel with
          | zero => omega
          | succ fuel =>
            rw [rollbackLoop, if_neg (not_blockExists_of_gone H h1.blocks r1.within hat hat1)]
            exact ⟨_, rfl⟩
    · exact ⟨_, rfl⟩

include H

theorem rollback_returns (fuel : Nat) : RollbackReturns p known (Ledger.rollback p fuel) fuel := by
  induction fuel with
  | zero => intro l L shift a e c h cl hat hgen hlt; omega
  | succ fuel ih =>
    intro l L shift a e c h cl hat hgen hlt list
    rw [Ledger.rollback, account_at H h.blocks hat, blockAccountHeight_at H h.blocks hat]
    exact rollbackLoop_total H (rollback_spec H fuel) ih h cl hat hgen
      (Nat.le_of_lt_succ hlt) hlt

theorem rollback_total (h : Represents l L shift) (cl : l.StateClosed L) (hat : L.At a e c)
    (hgen : e.kind p c = .genesis → l.CementedAt a c) (hf : l.blocks.keys.card < fuel) (list : List Block) :
    ∃ error l' list', Ledger.rollback p fuel l (e.hash p) list = some (error, l', list') := by
  obtain ⟨⟨error, l', list'⟩, hrun⟩ :=
    rollback_returns H fuel h cl hat hgen (rankAbove_le_card.trans_lt hf) list
  exact ⟨error, l', list', hrun⟩

theorem rollback_succeeds (h : Represents l L shift) (cl : l.StateClosed L) (hat : L.At a e c)
    (hgen : e.kind p c = .genesis → l.CementedAt a c) (hp : ¬ l.Pinned L (e.hash p)) (hf : l.blocks.keys.card < fuel) (list : List Block) :
    ∃ l' removed, ∃ L' : Lattice p known,
      Ledger.rollback p fuel l (e.hash p) list = some (false, l', list ++ removed) ∧
      Represents l' L' shift ∧ Rolled l L (e.hash p) removed l' L' ∧ ¬ L'.At a e c := by
  obtain ⟨error, l', list', hrun⟩ := rollback_total H h cl hat hgen hf list
  obtain ⟨L', removed, h', r, hok, herr⟩ := rollback_spec H fuel h hat hrun
  have hfls : error = false := eq_false_of_not_eq_true fun he => hp (herr he).2.1
  subst hfls
  obtain ⟨hgone, rfl⟩ := hok rfl
  exact ⟨l', removed, L', hrun, h', r, hgone⟩

end

end Futurehead
