import Futurehead.Ledger.Rolled

/-!
# Rollback keeps the lattice

What `ledger::rollback` leaves when it returns, for every table of confirmation heights
(`rollback_spec`). The proof follows the recursion: `awaitPending_spec` is the loop of the send
visitors, `rollbackVisit_spec` one visited block, `rollbackLoop_spec` the loop over an account.
-/

namespace Futurehead

open List Option Finmap Futurehead.Lattice Chains Ledger

variable {p : Params} {known : Block → Prop}

/-- What a rollback of a stored block leaves when it returns. Without an error the block is gone and
the list has grown by the removed blocks. With an error the block is still there and a cemented
block rests on it: it is cemented itself, or the newest block left on its chain is a legacy block
that cannot go. -/
def RollbackSpec (p : Params) (known : Block → Prop)
    (rollback : Ledger → BlockHash → List Block → RolledBack) : Prop :=
  ∀ {l : Ledger} {L : Lattice p known} {shift : Account → Amount} {a : Account} {e : Entry}
    {c : List Entry} {list : List Block} {error : Bool} {l' : Ledger} {list' : List Block},
    Represents l L shift → L.At a e c → rollback l (e.hash p) list = some (error, l', list') →
    ∃ L' : Lattice p known, ∃ removed, Represents l' L' shift ∧
      Rolled l L (e.hash p) removed l' L' ∧
      (error = false → ¬ L'.At a e c ∧ list' = list ++ removed) ∧
      (error = true → L'.At a e c ∧ l.Pinned L (e.hash p) ∧ (l.CementedAt a c ∨
        ∃ n d, L'.chain a = n :: d ∧ n.type ≠ .state ∧ l.Pinned L (n.hash p)))

section

variable (H : HashAssumptions p known) {L L' : Lattice p known} {l l' : Ledger}
  {shift : Account → Amount} {a d : Account} {n : Entry} {c : List Entry}
  {rollback : Ledger → BlockHash → List Block → RolledBack} {list list' : List Block}
  {error : Bool} {fuel : Nat}

/-! ## The loop of the send visitors -/

theorem chain_eq_of_within (w : L'.chain.Within L.chain) (hc : L.chain a = n :: c)
    (hat : L'.At a n c) : L'.chain a = n :: c := by
  have h := w a
  rw [hc] at h
  exact h.eq_of_length_le (List.IsSuffix.length_le hat)

include H in
theorem receiver_of_missing (h : Represents l L shift) (hat : L.At a n c)
    (hk : n.kind p c = .send d) (hmiss : (⟨d, n.hash p⟩ : PendingKey) ∉ l.pending) :
    ∃ x f, L.chain d = x :: f ∧ L.RestsOn (x.hash p) (n.hash p) ∧
      L.rank (n.hash p) < L.rank (x.hash p) ∧
      ∃ r g, r :: g <:+ x :: f ∧ r.kind p g = .receive (n.hash p) := by
  have hrec : L.Received (n.hash p) := by
    by_contra hnr
    exact hmiss (mem_iff.2 ⟨_, h.pending.stored hat hk hnr⟩)
  obtain ⟨y, r, g, hatr, hkr⟩ := hrec
  -- the account that receives is the destination of the send
  obtain ⟨_, _, z, s, f, hats, hh, hs, -⟩ := sends_of_receive hatr hkr
  obtain ⟨rfl, rfl, rfl⟩ := at_unique H hats hat hh
  obtain rfl : y = d := Kind.send.inj (hs.symm.trans hk)
  have hsuf : r :: g <:+ L.chain y := hatr
  cases hc : L.chain y with
  | nil => rw [hc] at hsuf; simp at hsuf
  | cons x f =>
    rw [hc] at hsuf
    have hxr := restsOn_below (p := p) (at_head hc) hsuf
    refine ⟨x, f, rfl, hxr.trans (restsOn_source hatr hkr), ?_, r, g, hsuf, hkr⟩
    exact (L.rank_source hatr hkr).trans_le (rank_le_of_restsOn hxr)

theorem not_mem_pending_of_received (h : PendingRep p l.pending L.chain)
    (hr : L.Received (n.hash p)) : (⟨d, n.hash p⟩ : PendingKey) ∉ l.pending := fun hmem => by
  obtain ⟨i, hi⟩ := mem_iff.1 hmem
  obtain ⟨y, e, f, -, -, hnr, hh⟩ := h.only hi
  rw [hh] at hnr
  exact hnr hr

include H in
theorem awaitPending_spec (hr : RollbackSpec p known rollback) (h : Represents l L shift)
    (hc : L.chain a = n :: c) (hk : n.kind p c = .send d)
    (hrun : awaitPending rollback ⟨d, n.hash p⟩ fuel l list = some (error, l', list')) :
    ∃ L' : Lattice p known, ∃ removed, Represents l' L' shift ∧
      Rolled l L (n.hash p) removed l' L' ∧ L'.chain a = n :: c ∧
      (error = false → (⟨d, n.hash p⟩ : PendingKey) ∈ l'.pending ∧ list' = list ++ removed) ∧
      (error = true → (⟨d, n.hash p⟩ : PendingKey) ∉ l'.pending ∧ l.Pinned L (n.hash p)) := by
  induction fuel generalizing l L list with
  | zero => cases hrun
  | succ fuel ih =>
    rw [awaitPending] at hrun
    split at hrun
    · rename_i hex
      cases hrun
      exact ⟨L, [], h, .refl .., hc, fun _ => ⟨of_decide_eq_true hex, by simp⟩, by simp⟩
    · rename_i hmiss
      have hmiss := of_decide_eq_false (Bool.eq_false_of_not_eq_true hmiss)
      obtain ⟨x, f, hd, hrest, hrank, r, g, hsuf, hkr⟩ :=
        receiver_of_missing H h (at_head hc) hk hmiss
      obtain ⟨⟨err, l1, list1⟩, hnested, hrun⟩ := bind_eq_some_iff.1 hrun
      rw [latest_chain h.accounts, hd, headHash] at hnested
      obtain ⟨L1, removed1, h1, r1, hok, herr⟩ := hr h (at_head hd) hnested
      -- the send has a smaller rank than every removed block
      have hkeep := r1.at_of_rank_lt (at_head hc) hrank
      have hc1 := chain_eq_of_within r1.within hc hkeep
      dsimp only at hrun
      split at hrun
      · rename_i htrue
        cases hrun
        obtain ⟨hatx, hpin, -⟩ := herr htrue
        refine ⟨L1, removed1, h1, ?_, hc1, by simp, fun _ => ⟨?_, ?_⟩⟩
        · exact r1.retarget hrest
        · exact not_mem_pending_of_received h1.pending ⟨d, r, g, hsuf.trans hatx, hkr⟩
        · exact hpin.below hrest
      · rename_i hfls
        obtain ⟨-, rfl⟩ := hok (Bool.eq_false_of_not_eq_true hfls)
        obtain ⟨L2, removed2, h2, r2, hc2, hok2, herr2⟩ := ih h1 hc1 hrun
        refine ⟨L2, removed1 ++ removed2, h2, r1.trans H r2 hrest .refl, hc2, fun he => ?_,
          fun he => ?_⟩
        · rw [← append_assoc]
          exact hok2 he
        · exact ⟨(herr2 he).1, r1.pinned (herr2 he).2⟩

/-! ## One visited block -/

/-- What the visitor leaves of the newest block `n` of `a`, which stands on `c`. Only a legacy send
can report an error, and then it stays. -/
def Visited (l : Ledger) (L : Lattice p known) (shift : Account → Amount) (a : Account) (n : Entry)
    (c : List Entry) (list : List Block) (error : Bool) (l' : Ledger) (list' : List Block) : Prop :=
  (error = true ∧ n.type ≠ .state ∧ ∃ L' : Lattice p known, ∃ removed, Represents l' L' shift ∧
    Rolled l L (n.hash p) removed l' L' ∧ L'.chain a = n :: c ∧ l.Pinned L (n.hash p)) ∨
  (error = false ∧ ∃ L' : Lattice p known, ∃ removed,
    Represents { l' with blockCount := l'.blockCount - 1 } L' shift ∧
    Rolled l L (n.hash p) (n.block :: removed) { l' with blockCount := l'.blockCount - 1 } L' ∧
    L'.chain a = c ∧ list' = list ++ removed)

include H in
theorem visited_of_removes {L1 τ : Lattice p known} {l1 : Ledger} {shift1 shift' : Account → Amount}
    {removed : List Block} {source : PendingInfo} (h1 : Represents l1 L1 shift1)
    (r1 : Rolled l L (n.hash p) removed l1 L1) (g : Chains.Grows τ.chain a n L1.chain)
    (hrank : τ.rank = L1.rank) (hg : n.kind p (τ.chain a) ≠ .genesis)
    (hcem : ¬ l.CementedAt a (τ.chain a)) (rm : Removes p l1 a (τ.chain a) n source shift' l')
    (hsrc : ∀ s, n.kind p (τ.chain a) = .receive s →
      ∃ y e c, τ.At y e c ∧ e.hash p = s ∧ source = ⟨y, e.sent c, e.details.epoch⟩)
    (hshift : ∀ r, shift1 r + shift' r = shift r) :
    Visited l L shift a n (τ.chain a) list false l' (list ++ removed) := by
  have hcem1 : ¬ l1.CementedAt a (τ.chain a) := mt (r1.cementedAt_iff g.at_new).1 hcem
  obtain ⟨h2, r2⟩ := rolled_of_removes H g hrank h1 hg hcem1 rm hsrc
  refine .inr ⟨rfl, τ, removed, ?_, ?_, rfl, rfl⟩
  · rwa [funext hshift] at h2
  · exact (r1.trans H r2 .refl .refl).perm (perm_append_singleton _ _)

include H in
theorem visited_alone {τ : Lattice p known} {source : PendingInfo} (h : Represents l L shift)
    (g : Chains.Grows τ.chain a n L.chain) (hrank : τ.rank = L.rank)
    (hg : n.kind p (τ.chain a) ≠ .genesis) (hcem : ¬ l.CementedAt a (τ.chain a))
    (rm : Removes p l a (τ.chain a) n source (fun _ => 0) l')
    (hsrc : ∀ s, n.kind p (τ.chain a) = .receive s →
      ∃ y e c, τ.At y e c ∧ e.hash p = s ∧ source = ⟨y, e.sent c, e.details.epoch⟩) :
    Visited l L shift a n (τ.chain a) list false l' list := by
  have : Visited l L shift a n (τ.chain a) list false l' (list ++ []) :=
    visited_of_removes H h (.refl l L _) g hrank hg hcem rm hsrc fun r => add_zero _
  rwa [append_nil] at this

variable {previous source : BlockHash} {representative account : Account} {balance : Amount}
  {link : Link}

section

variable (hr : RollbackSpec p known rollback) (h : Represents l L shift)
  (hc : L.chain a = n :: c) (hcem : ¬ l.CementedAt a c)

include H hr h hc hcem in
theorem rollbackVisit_send {l1 : Ledger} {list1 : List Block}
    (hb : n.block.hashables = .sendBlock (headHash p c) d balance)
    (hawait : awaitPending rollback ⟨d, n.hash p⟩ fuel l list = some (error, l1, list1)) :
    ∃ l' list', l.rollbackVisit p rollback fuel n.block list = some (error, l', list') ∧
      Visited l L shift a n c list error l' list' := by
  have hk : n.kind p c = .send d := by unfold Entry.kind; rw [hb]; rfl
  obtain ⟨L1, removed, h1, r1, hc1, hok, herr⟩ := awaitPending_spec H hr h hc hk hawait
  unfold rollbackVisit
  rw [hb]
  cases error with
  | true =>
    have ht : n.type ≠ .state := by simp [Entry.type, hb, Hashables.type]
    exact ⟨l1, list1, bind_eq_some_iff.2 ⟨_, hawait, rfl⟩,
      .inl ⟨rfl, ht, L1, removed, h1, r1, hc1, (herr rfl).2⟩⟩
  | false =>
    obtain ⟨hmem, rfl⟩ := hok rfl
    have hnr : ¬ L1.Received (n.hash p) := fun hrec =>
      not_mem_pending_of_received h1.pending hrec hmem
    obtain ⟨τ, g, hrank, rfl⟩ := exists_pop hc1 hnr
    obtain ⟨info, hpend⟩ := mem_iff.1 hmem
    obtain ⟨l', hundo, rm⟩ := undoSend_removes H g h1 hb hpend
    exact ⟨l', _, bind_eq_some_iff.2 ⟨_, hawait, bind_eq_some_iff.2
      ⟨_, hpend, bind_eq_some_iff.2 ⟨_, hundo, rfl⟩⟩⟩,
      visited_of_removes H h1 r1 g hrank (by simp [hk]) hcem rm (by simp [hk]) (by simp)⟩

include H h hc hcem in
theorem rollbackVisit_legacy (ht : n.type ≠ .state) (hsend : n.type ≠ .send)
    (hgen : n.kind p c ≠ .genesis) :
    ∃ l', l.rollbackVisit p rollback fuel n.block list = some (false, l', list) ∧
      Visited l L shift a n c list false l' list := by
  obtain ⟨τ, g, hrank, rfl⟩ := exists_pop_of_kind H hc fun d hk =>
    (type_of_send hk).elim hsend ht
  have hprev := previous_at g.at_new
  unfold rollbackVisit
  cases hb : n.block.hashables with
  | sendBlock => rw [Entry.type, hb] at hsend; exact absurd rfl hsend
  | stateBlock => rw [Entry.type, hb] at ht; exact absurd rfl ht
  | receiveBlock previous source =>
    rw [hb, Hashables.previous] at hprev
    have hk : n.kind p (τ.chain a) = .receive source := by unfold Entry.kind; rw [hb]; rfl
    obtain ⟨y, e, f, hat, hh, l', hundo, rm⟩ := undoReceive_removes H g h (hprev ▸ hb)
    exact ⟨l', bind_eq_some_iff.2 ⟨_, hprev ▸ hundo, rfl⟩,
      visited_alone H h g hrank hgen hcem rm fun s hs =>
        ⟨y, e, f, hat, hh.trans (Kind.receive.inj (hk.symm.trans hs)), rfl⟩⟩
  | openBlock source representative account =>
    obtain ⟨_, _, hx⟩ := extends_at g.at_new
    have hacc := hx.account (.inl (by rw [Entry.type, hb]; rfl))
    rw [hb, Hashables.account] at hacc
    have hsrc : source ≠ p.genesisAccount := fun hg =>
      hgen (by unfold Entry.kind; rw [hb, Hashables.kind, if_pos hg])
    have hk : n.kind p (τ.chain a) = .receive source := by
      unfold Entry.kind; rw [hb, Hashables.kind, if_neg hsrc]
    obtain ⟨y, e, f, hat, hh, l', hundo, rm⟩ := undoOpen_removes H g h (hacc ▸ hb) hsrc
    exact ⟨l', bind_eq_some_iff.2 ⟨_, hundo, rfl⟩,
      visited_alone H h g hrank hgen hcem rm fun s hs =>
        ⟨y, e, f, hat, hh.trans (Kind.receive.inj (hk.symm.trans hs)), rfl⟩⟩
  | changeBlock previous representative =>
    rw [hb, Hashables.previous] at hprev
    have hk : n.kind p (τ.chain a) = .neutral := by unfold Entry.kind; rw [hb]; rfl
    obtain ⟨l', hundo, rm⟩ := undoChange_removes H g h ⟨0, 0, .epoch0⟩ (hprev ▸ hb)
    exact ⟨l', bind_eq_some_iff.2 ⟨_, hprev ▸ hundo, rfl⟩,
      visited_alone H h g hrank hgen hcem rm (by simp [hk])⟩

theorem Represents.reweigh {w : Table Account Amount} {δ : Account → Amount}
    (h : Represents l L shift)
    (hw : ∀ r, { l with repAmounts := w }.representationGet r = l.representationGet r + δ r) :
    Represents { l with repAmounts := w } L fun r => shift r + δ r :=
  { h with
    weights := fun r => by
      rw [hw, h.weights]
      exact add_assoc _ _ _ }

include H hr h hc in
theorem undoStatePending_spec
    (hb : n.block.hashables = .stateBlock a (headHash p c) representative n.balance link)
    (hrun : l.undoStatePending p rollback fuel (n.hash p) a link n.balance (chainBal c) false
      list = some (l', list')) :
    ∃ l1 q, ∃ L1 τ : Lattice p known, ∃ removed source, l' = { l1 with pending := q } ∧
      list' = list ++ removed ∧ Represents l1 L1 shift ∧ Rolled l L (n.hash p) removed l1 L1 ∧
      Chains.Grows τ.chain a n L1.chain ∧ τ.rank = L1.rank ∧ τ.chain a = c ∧
      (∀ k, q.lookup k = pendingRemoved p l1.pending a c n source k) ∧
      ∀ s, n.kind p c = .receive s →
        ∃ y e d, τ.At y e d ∧ e.hash p = s ∧ source = ⟨y, e.sent d, e.details.epoch⟩ := by
  unfold undoStatePending at hrun
  split at hrun
  · rename_i hlt
    have hk : n.kind p c = .send link := by
      unfold Entry.kind; rw [hb, Hashables.kind, if_pos hlt]
    rw [if_neg Bool.false_ne_true] at hrun
    obtain ⟨⟨err, l1, list1⟩, hawait, hrun⟩ := bind_eq_some_iff.1 hrun
    obtain ⟨l2, hdel, hrun⟩ := bind_eq_some_iff.1 hrun
    cases hrun
    obtain ⟨L1, removed, h1, r1, hc1, hok, herr⟩ := awaitPending_spec H hr h hc hk hawait
    have hmem : (⟨link, n.hash p⟩ : PendingKey) ∈ l1.pending := by
      by_contra hnot
      rw [pendingDel, if_neg hnot] at hdel
      cases hdel
    have hfls : err = false := Bool.eq_false_of_not_eq_true fun he => (herr he).1 hmem
    obtain rfl := Option.some.inj ((pendingDel_eq hmem).symm.trans hdel)
    have hnr : ¬ L1.Received (n.hash p) := fun hrec =>
      not_mem_pending_of_received h1.pending hrec hmem
    obtain ⟨τ, g, hrank, rfl⟩ := exists_pop hc1 hnr
    refine ⟨l1, _, L1, τ, removed, ⟨0, 0, .epoch0⟩, rfl, (hok hfls).2, h1, r1, g, hrank, rfl,
      fun k => ?_, by simp [hk]⟩
    rw [pendingRemoved, hk]
    exact Finmap.lookup_erase_eq _ _ _
  · rename_i hlt
    split at hrun
    · rename_i hlink
      have hk : n.kind p c = .receive link := by
        unfold Entry.kind
        rw [hb, Hashables.kind, if_neg hlt, if_neg (not_or.2 hlink)]
      obtain ⟨τ, g, hrank, rfl⟩ := exists_pop_of_kind H hc (by simp [hk])
      obtain ⟨y, e, f, hat, rfl, -, hbal, -⟩ := source_below g hk
      have hat' := g.at_of_at hat
      have hput : l.undoStateReceive a (e.hash p) (n.balance - chainBal (τ.chain a)) =
          some (l.pendingPut ⟨a, e.hash p⟩ ⟨y, e.sent f, e.details.epoch⟩) := by
        unfold undoStateReceive
        rw [account_at H h.blocks hat', blockVersion_at H h.blocks hat', hbal, add_sub_cancel_left]
        rfl
      rw [hput] at hrun
      cases hrun
      refine ⟨l, _, L, τ, [], _, rfl, (append_nil _).symm, h, .refl .., g, hrank, rfl,
        fun k => ?_, fun s hs => ⟨y, e, f, hat, Kind.receive.inj (hk.symm.trans hs), rfl⟩⟩
      rw [pendingRemoved, hk]
      exact Finmap.lookup_insert_eq _ _ _ _
    · rename_i hlink
      cases hrun
      have hk : n.kind p c = .neutral := by
        unfold Entry.kind
        rw [hb, Hashables.kind, if_neg hlt, if_pos (by by_contra hn; exact hlink (not_or.1 hn))]
      obtain ⟨τ, g, hrank, rfl⟩ := exists_pop_of_kind H hc (by simp [hk])
      refine ⟨l, l.pending, L, τ, [], ⟨0, 0, .epoch0⟩, rfl, (append_nil _).symm, h,
        .refl .., g, hrank, rfl, fun k => ?_, by simp [hk]⟩
      rw [pendingRemoved, hk]

include H hr h hc hcem in
theorem rollbackVisit_state
    (hb : n.block.hashables = .stateBlock a (headHash p c) representative n.balance link) :
    ∃ w shift', Represents { l with repAmounts := w } L shift' ∧
      l.rollbackVisit p rollback fuel n.block list =
        ({ l with repAmounts := w }.undoStatePending p rollback fuel (n.hash p) a link n.balance
          (chainBal c) false list).bind (fun x =>
            (x.1.undoStateBlock (n.hash p) (headHash p c) a (chainRep c) (chainBal c)
              (chainInfo p (n :: c))).map (false, ·, x.2)) ∧
      ∀ l2 list2, { l with repAmounts := w }.undoStatePending p rollback fuel (n.hash p) a link
          n.balance (chainBal c) false list = some (l2, list2) →
        ∃ l3, l2.undoStateBlock (n.hash p) (headHash p c) a (chainRep c)
            (chainBal c) (chainInfo p (n :: c)) = some l3 ∧
          Visited l L shift a n c list false l3 list2 := by
  have hng : n.kind p c ≠ .genesis := by
    unfold Entry.kind; rw [hb, Hashables.kind]; split_ifs <;> simp
  obtain ⟨w, hwt, hw⟩ := undoStateWeight_eq H hb h.blocks (at_head hc)
  have h1 := h.reweigh (δ := fun r => weightFor r (chainInfo p c) -
    weightFor r (chainInfo p (n :: c))) fun r => by rw [hw]; ring
  have hacc : { l with repAmounts := w }.accountGet a = some (chainInfo p (n :: c)) := by
    rw [accountGet_chain h1.accounts, hc]; rfl
  refine ⟨w, _, h1, ?_, fun l2 list2 hpend => ?_⟩
  · unfold rollbackVisit
    rw [hb]
    dsimp only
    rw [hwt]
    simp only [bind_eq_bind, bind_some, map_eq_bind]
    rw [hacc]
    rfl
  · obtain ⟨l1, q, L1, τ, removed, source, rfl, rfl, h2, r2, g, hrank, rfl, hq, hsrc⟩ :=
      undoStatePending_spec H hr h1 hc hb hpend
    obtain ⟨l3, hundo, rm⟩ := undoStateBlock_removes H g h2 hb hq
    exact ⟨l3, hundo, visited_of_removes H h2 (r2.of_eq rfl rfl) g hrank hng hcem rm hsrc
      fun r => by ring⟩

include H h in
theorem rollbackVisit_genesis (hgen : n.kind p c = .genesis) :
    l.rollbackVisit p rollback fuel n.block list = none := by
  -- no block has the hash that the genesis block names as its source
  have hnone : l.blockGet p.genesisAccount = none := by
    cases hget : l.blockGet p.genesisAccount with
    | none => rfl
    | some b =>
      obtain ⟨y, e, f, hat, hh⟩ := at_of_blockGet h.blocks hget
      exact absurd hh (H.ne_genesisAccount (L.known_at hat))
  unfold Entry.kind at hgen
  unfold rollbackVisit
  cases hb : n.block.hashables with
  | openBlock source representative account =>
    rw [hb, Hashables.kind] at hgen
    split_ifs at hgen with hsrc
    dsimp only
    rw [Ledger.undoOpen, Ledger.amount, hsrc, hnone]
    rfl
  | stateBlock =>
    rw [hb, Hashables.kind] at hgen
    split_ifs at hgen
  | _ => rw [hb] at hgen; cases hgen

include hc in
theorem hashables_state
    (hb : n.block.hashables = .stateBlock account previous representative balance link) :
    n.block.hashables = .stateBlock a (headHash p c) representative n.balance link := by
  obtain ⟨_, _, hx⟩ := extends_at (at_head hc)
  rw [hb, hx.balance_state hb, hx.previous_state hb, hx.account_state hb]

include H hr h hc hcem in
theorem rollbackVisit_spec
    (hrun : l.rollbackVisit p rollback fuel n.block list = some (error, l', list')) :
    Visited l L shift a n c list error l' list' := by
  by_cases hgen : n.kind p c = .genesis
  · rw [rollbackVisit_genesis H h hgen] at hrun
    cases hrun
  have hprev := previous_at (at_head hc)
  cases hb : n.block.hashables with
  | sendBlock previous d balance =>
    rw [hb, Hashables.previous] at hprev
    subst hprev
    have hawait := hrun
    unfold rollbackVisit at hawait
    rw [hb] at hawait
    obtain ⟨⟨err, l1, list1⟩, hawait, -⟩ := bind_eq_some_iff.1 hawait
    obtain ⟨l2, list2, heq, hvisd⟩ := rollbackVisit_send H hr h hc hcem hb hawait
    cases heq.symm.trans hrun
    exact hvisd
  | stateBlock =>
    obtain ⟨w, _, -, heq, hok⟩ := rollbackVisit_state H hr h hc hcem (hashables_state hc hb)
    rw [heq] at hrun
    obtain ⟨⟨l2, list2⟩, hpend, hrun⟩ := bind_eq_some_iff.1 hrun
    obtain ⟨l3, hundo, hvisd⟩ := hok l2 list2 hpend
    obtain ⟨_, hundo', hrun⟩ := map_eq_some_iff.1 hrun
    cases hundo.symm.trans hundo'
    cases hrun
    exact hvisd
  | _ =>
    obtain ⟨l2, heq, hvisd⟩ := rollbackVisit_legacy H h hc hcem (by simp [Entry.type, hb, Hashables.type])
      (by simp [Entry.type, hb, Hashables.type]) hgen
    cases heq.symm.trans hrun
    exact hvisd

end

/-! ## The loop over an account -/

include H

theorem not_blockExists_of_gone {e : Entry} (h : BlocksRep p l'.blocks L'.chain)
    (w : L'.chain.Within L.chain) (hat : L.At a e c) (hgone : ¬ L'.At a e c) :
    ¬ l'.blockExists (e.hash p) := fun hex => by
  obtain ⟨y, x, f, hatx, hh⟩ := at_of_blockExists h hex
  obtain ⟨rfl, rfl, rfl⟩ := at_unique H (w.at hatx) hat hh
  exact hgone hatx

theorem rollbackLoop_turn {e : Entry} (h : Represents l L shift) (hat : L.At a e c) (fuel : Nat)
    (list : List Block) :
    ∃ n c1 i, L.chain a = n :: c1 ∧ e :: c <:+ n :: c1 ∧ l.confirmationHeightGet a = some i ∧
      (i.height < c.length + 1 → ¬ l.CementedAt a c1) ∧
      rollbackLoop p rollback a (c.length + 1) (e.hash p) (fuel + 1) l list =
        if i.height < c.length + 1 then
          (l.rollbackVisit p rollback fuel n.block (list ++ [n.block])).bind fun x =>
            if x.1 then some (true, x.2.1, x.2.2)
            else rollbackLoop p rollback a (c.length + 1) (e.hash p) fuel
              { x.2.1 with blockCount := x.2.1.blockCount - 1 } x.2.2
        else some (true, l, list) := by
  obtain ⟨n, c1, hc⟩ : ∃ n c1, L.chain a = n :: c1 :=
    exists_cons_of_length_pos (by have := hat.length_le; omega)
  have hsuf : e :: c <:+ n :: c1 := hc ▸ hat
  obtain ⟨i, hi⟩ := mem_iff.1 ((h.confirmation a).2 (by simp [hc]))
  change l.confirmationHeightGet a = some i at hi
  refine ⟨n, c1, i, hc, hsuf, hi, fun hlt => ?_, ?_⟩
  · rintro ⟨j, hj, hle⟩
    obtain rfl := Option.some.inj (hi.symm.trans hj)
    have := hsuf.length_le
    simp only [length_cons] at this
    omega
  · rw [rollbackLoop, if_pos (blockExists_at H h.blocks hat), hi,
      accountGet_chain h.accounts, hc, chainInfo?_cons]
    simp only [bind_eq_bind, bind_some]
    rw [show (chainInfo p (n :: c1)).head = n.hash p from rfl,
      blockGet_at H h.blocks (at_head hc), bind_some, Entry.stored_block]

theorem rollbackLoop_spec {e : Entry} (hr : RollbackSpec p known rollback)
    (h : Represents l L shift) (hat : L.At a e c)
    (hrun : rollbackLoop p rollback a (c.length + 1) (e.hash p) fuel l list =
      some (error, l', list')) :
    ∃ L' : Lattice p known, ∃ removed, Represents l' L' shift ∧
      Rolled l L (e.hash p) removed l' L' ∧
      (error = false → ¬ L'.At a e c ∧ list' = list ++ removed) ∧
      (error = true → L'.At a e c ∧ l.Pinned L (e.hash p) ∧ (l.CementedAt a c ∨
        ∃ n d, L'.chain a = n :: d ∧ n.type ≠ .state ∧ l.Pinned L (n.hash p))) := by
  induction fuel generalizing l L list with
  | zero => cases hrun
  | succ fuel ih =>
    obtain ⟨n, c1, i, hc, hsuf, hi, hcem, heq⟩ := rollbackLoop_turn H h hat fuel list
    have hrest : L.RestsOn (n.hash p) (e.hash p) := restsOn_below (at_head hc) hsuf
    rw [heq] at hrun
    split at hrun
    · rename_i hht
      obtain ⟨⟨err, l1, list1⟩, hvis, hrun⟩ := bind_eq_some_iff.1 hrun
      dsimp only at hrun
      rcases rollbackVisit_spec H hr h hc (hcem hht) hvis with
        ⟨rfl, ht, L1, removed, h1, r1, hc1, hpin⟩ |
        ⟨rfl, L1, removed, h1, r1, hc1, rfl⟩
      · -- the newest block cannot go, so nothing of the account has gone
        rw [if_pos rfl] at hrun
        cases hrun
        refine ⟨L1, removed, h1, r1.retarget hrest, by simp, fun _ =>
          ⟨?_, hpin.below hrest, .inr ⟨n, c1, hc1, ht, hpin⟩⟩⟩
        exact (hc1 ▸ hsuf : e :: c <:+ L1.chain a)
      · rw [if_neg Bool.false_ne_true] at hrun
        have r1 := r1.retarget hrest
        rcases suffix_cons_iff.1 hsuf with heq | hsuf'
        · -- it was the block itself, and the loop ends
          cases heq
          have hgone : ¬ L1.At a e c := fun hat1 => by
            have := hat1.length_le
            rw [hc1] at this
            omega
          cases fuel with
          | zero => cases hrun
          | succ fuel =>
            rw [rollbackLoop,
              if_neg (not_blockExists_of_gone H h1.blocks r1.within hat hgone)] at hrun
            cases hrun
            exact ⟨L1, _, h1, r1, fun _ => ⟨hgone, by simp⟩, by simp⟩
        · have hat1 : L1.At a e c := (hc1 ▸ hsuf' : e :: c <:+ L1.chain a)
          obtain ⟨L2, removed2, h2, r2, hok, herr⟩ := ih h1 hat1 hrun
          refine ⟨L2, _, h2, r1.trans H r2 .refl .refl, fun he => ?_, fun he => ?_⟩
          · obtain ⟨hgone, rfl⟩ := hok he
            exact ⟨hgone, by simp⟩
          · obtain ⟨hstay, hpin, hwhy⟩ := herr he
            refine ⟨hstay, r1.pinned hpin, hwhy.imp (r1.cementedAt_iff hat1).1 ?_⟩
            rintro ⟨m, d, hd, ht, hm⟩
            exact ⟨m, d, hd, ht, r1.pinned hm⟩
    · rename_i hht
      cases hrun
      have hcem : l'.CementedAt a c := ⟨i, hi, Nat.not_lt.1 hht⟩
      exact ⟨L, [], h, .refl .., by simp, fun _ => ⟨hat, ⟨a, e, c, hat, .refl, hcem⟩, .inl hcem⟩⟩

theorem rollback_spec (fuel : Nat) : RollbackSpec p known (Ledger.rollback p fuel) := by
  induction fuel with
  | zero => intro l L shift a e c list error l' list' h hat hrun; cases hrun
  | succ fuel ih =>
    intro l L shift a e c list error l' list' h hat hrun
    rw [Ledger.rollback, account_at H h.blocks hat, blockAccountHeight_at H h.blocks hat] at hrun
    exact rollbackLoop_spec H ih h hat hrun

end

end Futurehead
