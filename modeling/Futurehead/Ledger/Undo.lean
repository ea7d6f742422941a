import Futurehead.Ledger.Rollback
import Futurehead.Ledger.Commit

/-!
# What a rolled back block writes

Each `undo*` function of the rollback visitor, on a ledger that holds a lattice and is given the
newest block of a chain, takes the block off its chain: `undo*_removes`. The lattice `L` is the one
without the block, `L'` the one with it.
-/

namespace Futurehead

open Option Futurehead.Lattice Chains Ledger

variable {p : Params} {known : Block → Prop} (H : HashAssumptions p known) {L L' : Lattice p known}
  {l : Ledger} {shift : Account → Amount} {a : Account} {n : Entry}
  (g : Chains.Grows L.chain a n L'.chain) (h : Represents l L' shift)

/-! ## The chain below -/

include g in
theorem legacy_below (ho : n.type ≠ BlockType.open) (hs : n.type ≠ .state) :
    ∃ x d, L.chain a = x :: d ∧ chainLegacy (L.chain a) ∧ chainEpoch (L.chain a) = .epoch0 := by
  obtain ⟨_, _, hx⟩ := extends_at g.at_new
  obtain ⟨x, d, hc, hl⟩ := hx.exists_below ho hs
  obtain ⟨_, _, hx'⟩ := extends_at (at_head hc)
  refine ⟨x, d, hc, by simpa [hc, chainLegacy] using hl, ?_⟩
  rw [hc, chainEpoch, hx'.details_legacy hl]

theorem chainInfo_below {c : List Entry} (hc : c ≠ []) :
    { head := headHash p c, representative := chainRep c,
      openBlock := (chainInfo p (n :: c)).openBlock, balance := chainBal c,
      blockCount := (chainInfo p (n :: c)).blockCount - 1, epoch := chainEpoch c } =
      chainInfo p c := by
  simp only [chainInfo, chainOpen_cons, if_neg hc, List.length_cons, Nat.add_sub_cancel]

theorem representationGet_exchange (l : Ledger) {c c' : List Entry} {x x' : Amount}
    (hc : chainBal c = x) (hc' : chainBal c' = x') (r : Account) :
    ((l.representationAdd (chainRep c) (0 - x)).representationAdd
      (chainRep c') x').representationGet r =
        l.representationGet r - weightFor r (chainInfo p c) + weightFor r (chainInfo p c') := by
  rw [representationGet_add, representationGet_add, weightFor_chain, weightFor_chain, hc, hc']
  split_ifs <;> ring

include H g in
theorem blockDel_clear (hb : BlocksRep p l.blocks L'.chain) {x : Entry} {d : List Entry}
    (hc : L.chain a = x :: d) :
    ∃ t, (∀ l1 : Ledger, l1.blocks = l.blocks.erase (n.key p) →
        l1.blockSuccessorClear (headHash p (L.chain a)) = some { l1 with blocks := t }) ∧
      ∀ k, t.lookup k =
        if k = n.key p then none
        else if k.2 = headHash p (L.chain a) then (l.blocks.lookup k).map (·.setSuccessor 0)
        else l.blocks.lookup k := by
  have hat := at_head hc
  have hat' : L'.At a x d := g.at_of_at hat
  have hne : x.hash p ≠ n.hash p := hash_ne_of_grows H g hat
  refine ⟨(l.blocks.erase (n.key p)).insert (x.key p)
    ((x.stored a d (L'.chain.successor p a d)).setSuccessor 0), fun l1 h1 => ?_,
    lookup_removed H hb g hc fun k => ?_⟩
  · have hraw : l1.blockRawGet (x.hash p) =
        some (x.type, x.stored a d (L'.chain.successor p a d)) := by
      rw [blockRawGet_congr (l := { l with blocks := l.blocks.erase (n.type, n.hash p) }) h1,
        blockRawGet_erase_ne hne, blockRawGet_at H hb hat']
    rw [hc, headHash, Ledger.blockSuccessorClear, blockSuccessorSet_eq hraw, h1]
    rfl
  · rw [Finmap.lookup_insert_eq, Finmap.lookup_erase_eq]
    by_cases hkx : k = x.key p
    · have hkn : k ≠ n.key p := fun hkn => hne (congrArg Prod.snd (hkx ▸ hkn))
      rw [if_pos hkx, if_neg hkn, if_pos hkx]
    · rw [if_neg hkx, if_neg hkx]

include g in
theorem mem_frontiers_new (hf : FrontiersRep p l.frontiers L'.chain)
    (hl : chainLegacy (n :: L.chain a)) : n.hash p ∈ l.frontiers := by
  have := mem_frontiers hf (a := a) (by rw [g.chain_self]; exact hl)
  rwa [g.chain_self] at this

theorem lookup_frontiers_removed {c : List Entry} (hl : chainLegacy c) (f : Table BlockHash Account)
    (x : BlockHash) :
    ((f.erase (n.hash p)).insert (headHash p c) a).lookup x =
      if chainLegacy c ∧ x = headHash p c then some a
      else if x = n.hash p then none
      else f.lookup x := by
  rw [Finmap.lookup_insert_eq, Finmap.lookup_erase_eq]
  simp only [hl, true_and]

/-! ## Legacy blocks -/

variable {source : BlockHash} {representative : Account} {info : PendingInfo}

include g h in
theorem accountGet_new : (l.accountGet a).getD {} = chainInfo p (n :: L.chain a) := by
  rw [accountGet_getD h.accounts, g.chain_self]

include H g h in
theorem undoSend_removes {d : Account} {bal : Amount}
    (hb : n.block.hashables = .sendBlock (headHash p (L.chain a)) d bal)
    (hpend : l.pendingGet ⟨d, n.hash p⟩ = some info) :
    ∃ l', l.undoSend (n.hash p) (headHash p (L.chain a)) ⟨d, n.hash p⟩ info = some l' ∧
      Removes p l a (L.chain a) n info (fun _ => 0) l' := by
  have ht : n.type = .send := by rw [Entry.type, hb]; rfl
  have hkind : n.kind p (L.chain a) = .send d := by unfold Entry.kind; rw [hb]; rfl
  obtain ⟨x, d', hc, hl, hep⟩ := legacy_below g (by simp [ht]) (by simp [ht])
  obtain rfl : info = ⟨a, n.sent (L.chain a), n.details.epoch⟩ :=
    Option.some.inj (hpend.symm.trans (h.pending.stored g.at_new hkind (not_received_new H g)))
  have hrep : (chainInfo p (n :: L.chain a)).representative = chainRep (L.chain a) := by
    simp only [chainInfo, chainRep, hb]
  have hinfo := chainInfo_below (p := p) (n := n) (c := L.chain a) (by simp [hc])
  have hdel := pendingDel_eq (Finmap.mem_iff.2 ⟨_, hpend⟩)
  obtain ⟨ta, tf, hchg, hta, htf⟩ := changeLatest_pop H h.accounts h.confirmation g.chain_self
  obtain ⟨t, hclr, ht'⟩ := blockDel_clear H g h.blocks hc
  unfold Ledger.undoSend
  dsimp only
  rw [accountGet_new g h, hrep, ← hep]
  refine ⟨_, bind_eq_some_iff.2 ⟨_, hdel, bind_eq_some_iff.2 ⟨_,
    balance_below H h.blocks g.at_new, bind_eq_some_iff.2 ⟨_,
    hchg _ _ _ rfl rfl (by simp [hc]) (fun _ => ⟨rfl, hinfo⟩), bind_eq_some_iff.2 ⟨_,
    blockDel_eq (ht ▸ blockExistsType_at H h.blocks g.at_new), bind_eq_some_iff.2 ⟨_,
    frontierDel_eq (mem_frontiers_new g h.frontiers (by simp [chainLegacy, ht])),
    hclr _ (by rw [Entry.key, ht]; rfl)⟩⟩⟩⟩⟩, ?_⟩
  refine ⟨ht', hta, fun key => ?_, lookup_frontiers_removed hl _, htf, fun r => ?_, rfl, rfl⟩
  · rw [pendingRemoved, hkind]
    exact Finmap.lookup_erase_eq _ _ _
  · exact (representationGet_keep l (.inr hrep) (.inr rfl) rfl r).trans (add_zero _).symm

include g in
theorem source_below (hk : n.kind p (L.chain a) = .receive source) :
    ∃ y e d, L.At y e d ∧ e.hash p = source ∧ e.kind p d = .send a ∧
      n.balance = chainBal (L.chain a) + e.sent d ∧
      (n.type ≠ .state → e.details.epoch = .epoch0) := by
  obtain ⟨amt, epoch, hx, hs⟩ := L'.valid g.at_new
  obtain ⟨y, e, d, hat, hh, hke, rfl, rfl⟩ := hs source hk
  rcases g.at_iff.1 hat with ⟨rfl, rfl, rfl⟩ | hold
  · rw [hk] at hke; cases hke
  · refine ⟨y, e, d, hold, hh, hke, ?_, hx.receive_legacy source hk⟩
    have hsum := hx.receive source hk
    have hlt := n.balance.isLt
    apply BitVec.eq_of_toNat_eq
    rw [BitVec.toNat_add_of_lt (by omega), hsum]

include H g h in
theorem undoReceive_removes
    (hb : n.block.hashables = .receiveBlock (headHash p (L.chain a)) source) :
    ∃ y e d, L.At y e d ∧ e.hash p = source ∧
      ∃ l', l.undoReceive (n.hash p) (headHash p (L.chain a)) source = some l' ∧
        Removes p l a (L.chain a) n ⟨y, e.sent d, e.details.epoch⟩ (fun _ => 0) l' := by
  have ht : n.type = .receive := by rw [Entry.type, hb]; rfl
  have hkind : n.kind p (L.chain a) = .receive source := by unfold Entry.kind; rw [hb]; rfl
  obtain ⟨x, d', hc, hl, hep⟩ := legacy_below g (by simp [ht]) (by simp [ht])
  obtain ⟨y, e, d, hat, rfl, hke, hbal, hep'⟩ := source_below g hkind
  refine ⟨y, e, d, hat, rfl, ?_⟩
  have hat' := g.at_of_at hat
  have hrep : (chainInfo p (n :: L.chain a)).representative = chainRep (L.chain a) := by
    simp only [chainInfo, chainRep, hb]
  have hinfo := chainInfo_below (p := p) (n := n) (c := L.chain a) (by simp [hc])
  obtain ⟨ta, tf, hchg, hta, htf⟩ := changeLatest_pop H h.accounts h.confirmation g.chain_self
  obtain ⟨t, hclr, ht'⟩ := blockDel_clear H g h.blocks hc
  unfold undoReceive
  rw [amount_at H h.blocks hat' hke, account_at H h.blocks g.at_new, account_at H h.blocks hat']
  simp only [bind_eq_bind, bind_some]
  rw [accountGet_new g h, hrep, ← hep]
  refine ⟨_, bind_eq_some_iff.2 ⟨_, balance_below H h.blocks g.at_new,
    bind_eq_some_iff.2 ⟨_, hchg _ _ _ rfl rfl (by simp [hc]) (fun _ => ⟨rfl, hinfo⟩),
    bind_eq_some_iff.2 ⟨_, blockDel_eq (ht ▸ blockExistsType_at H h.blocks g.at_new),
    bind_eq_some_iff.2 ⟨_,
    frontierDel_eq (mem_frontiers_new g h.frontiers (by simp [chainLegacy, ht])),
    hclr _ (by rw [Entry.key, ht]; rfl)⟩⟩⟩⟩, ?_⟩
  refine ⟨ht', hta, fun key => ?_, lookup_frontiers_removed hl _, htf, fun r => ?_, rfl, rfl⟩
  · rw [pendingRemoved, hkind, hep' (by simp [ht]), hep]
    exact Finmap.lookup_insert_eq _ _ _ _
  · refine (representationGet_keep l (.inr hrep) (.inr rfl) ?_ r).trans (add_zero _).symm
    rw [chainBal, hbal]
    ring

include H g h in
theorem undoOpen_removes (hb : n.block.hashables = .openBlock source representative a)
    (hsrc : source ≠ p.genesisAccount) :
    ∃ y e d, L.At y e d ∧ e.hash p = source ∧
      ∃ l', l.undoOpen (n.hash p) source representative = some l' ∧
        Removes p l a (L.chain a) n ⟨y, e.sent d, e.details.epoch⟩ (fun _ => 0) l' := by
  have ht : n.type = BlockType.open := by rw [Entry.type, hb]; rfl
  have hkind : n.kind p (L.chain a) = .receive source := by
    unfold Entry.kind; rw [hb, Hashables.kind, if_neg hsrc]
  have hc : L.chain a = [] := by
    obtain ⟨_, _, hx⟩ := extends_at g.at_new
    exact hx.open_first ht
  have hrep : chainRep (n :: L.chain a) = representative := by
    rw [chainRep, hb]
    rfl
  obtain ⟨y, e, d, hat, rfl, hke, hbal, hep'⟩ := source_below g hkind
  refine ⟨y, e, d, hat, rfl, ?_⟩
  have hat' := g.at_of_at hat
  obtain ⟨ta, tf, hchg, hta, htf⟩ := changeLatest_pop H h.accounts h.confirmation g.chain_self
  unfold Ledger.undoOpen
  rw [amount_at H h.blocks hat' hke, account_at H h.blocks g.at_new, account_at H h.blocks hat']
  simp only [bind_eq_bind, bind_some]
  refine ⟨_, bind_eq_some_iff.2 ⟨_, hchg _ _ _ rfl rfl (fun _ => rfl) (absurd hc ·),
    bind_eq_some_iff.2 ⟨_, blockDel_eq (ht ▸ blockExistsType_at H h.blocks g.at_new),
    frontierDel_eq (mem_frontiers_new g h.frontiers (by simp [chainLegacy, ht]))⟩⟩, ?_⟩
  refine ⟨fun k => ?_, hta, fun key => ?_, fun x => ?_, htf, fun r => ?_, rfl, rfl⟩
  · refine lookup_removed_first H h.blocks hc (fun k => ?_) k
    rw [Entry.key, ht]
    exact Finmap.lookup_erase_eq _ _ _
  · rw [pendingRemoved, hkind, hep' (by simp [ht])]
    exact Finmap.lookup_insert_eq _ _ _ _
  · have hl : ¬ (chainLegacy (L.chain a) = true ∧ x = headHash p (L.chain a)) := by
      rw [hc]; exact fun h => Bool.false_ne_true h.1
    rw [if_neg hl]
    exact Finmap.lookup_erase_eq _ _ _
  · refine (representationGet_keep l (.inr hrep) (.inl hc) ?_ r).trans (add_zero _).symm
    rw [hc, chainBal, chainBal, hbal, hc, chainBal, zero_add]

include H g h in
theorem undoChange_removes (info : PendingInfo)
    (hb : n.block.hashables = .changeBlock (headHash p (L.chain a)) representative) :
    ∃ l', l.undoChange p (n.hash p) (headHash p (L.chain a)) representative = some l' ∧
      Removes p l a (L.chain a) n info (fun _ => 0) l' := by
  have ht : n.type = .change := by rw [Entry.type, hb]; rfl
  have hkind : n.kind p (L.chain a) = .neutral := by unfold Entry.kind; rw [hb]; rfl
  have hbal : n.balance = chainBal (L.chain a) := by
    obtain ⟨_, _, hx⟩ := extends_at g.at_new
    exact hx.neutral hkind
  have hrep' : chainRep (n :: L.chain a) = representative := by
    rw [chainRep, hb]
    rfl
  obtain ⟨x, d', hc, hl, hep⟩ := legacy_below g (by simp [ht]) (by simp [ht])
  have hatx : L'.At a x d' := g.at_of_at (at_head hc)
  obtain ⟨r, d, hatr, hloop, hrep⟩ := representative_at H h.blocks hatx
  have hinfo := chainInfo_below (p := p) (n := n) (c := L.chain a) (by simp [hc])
  obtain ⟨ta, tf, hchg, hta, htf⟩ := changeLatest_pop H h.accounts h.confirmation g.chain_self
  obtain ⟨t, hclr, ht'⟩ := blockDel_clear H g h.blocks hc
  have hhead : headHash p (L.chain a) = x.hash p := by rw [hc]; rfl
  have hinfo' : (chainInfo p (n :: L.chain a)).balance = chainBal (L.chain a) := hbal
  unfold undoChange
  rw [hhead, hloop, account_at H h.blocks hatx, balance_at H h.blocks hatx]
  simp only [bind_eq_bind, bind_some]
  rw [blockGet_at H h.blocks hatr, bind_some, Entry.stored_block, hrep, ← hc, accountGet_new g h, hinfo',
    ← hep, ← hhead]
  refine ⟨_, bind_eq_some_iff.2 ⟨_,
    blockDel_eq (ht ▸ blockExistsType_at H h.blocks g.at_new), bind_eq_some_iff.2 ⟨_,
    hchg _ _ _ rfl rfl (by simp [hc]) (fun _ => ⟨rfl, hinfo⟩), bind_eq_some_iff.2 ⟨_,
    frontierDel_eq (mem_frontiers_new g h.frontiers (by simp [chainLegacy, ht])),
    hclr _ (by rw [Entry.key, ht]; rfl)⟩⟩⟩, ?_⟩
  refine ⟨ht', hta, fun key => ?_, lookup_frontiers_removed hl _, htf, fun r => ?_, rfl, rfl⟩
  · rw [pendingRemoved, hkind]
    rfl
  · subst hrep'
    have hsame : chainBal (n :: L.chain a) = x.balance := by rw [chainBal, hbal, hc]; rfl
    have hx : chainBal (L.chain a) = x.balance := by rw [hc]; rfl
    exact (representationGet_exchange l hsame hx r).trans (add_zero _).symm

/-! ## State blocks -/

section

variable {previous : BlockHash} {link : Link}
  (hb : n.block.hashables = .stateBlock a previous representative n.balance link)

include H hb in
theorem undoStateWeight_eq {c : List Entry} (hbs : BlocksRep p l.blocks L.chain)
    (hat : L.At a n c) :
    ∃ w, l.undoStateWeight p (headHash p c) representative n.balance =
        some ({ l with repAmounts := w }, chainBal c, chainRep c) ∧
      ∀ r, { l with repAmounts := w }.representationGet r = l.representationGet r -
        weightFor r (chainInfo p (n :: c)) + weightFor r (chainInfo p c) := by
  have hrep : chainRep (n :: c) = representative := by
    rw [chainRep, hb]
    rfl
  unfold undoStateWeight undoStateRepBlock
  rw [balance_below H hbs hat]
  cases c with
  | nil =>
    rw [headHash, if_pos rfl]
    simp only [bind_eq_bind, bind_some, if_true]
    exact ⟨_, rfl, representationGet_keep l (.inr hrep) (.inl rfl) rfl⟩
  | cons x d =>
    obtain ⟨y, d', haty, hloop, hrep'⟩ := representative_at H hbs hat.below
    rw [headHash, if_neg (hash_ne_zero H hat.below), hloop]
    simp only [bind_eq_bind, bind_some]
    rw [if_neg (hash_ne_zero H haty)]
    have hget : (l.representationAdd representative (0 - n.balance)).blockGet (y.hash p) = _ :=
      blockGet_at H hbs haty
    rw [hget, bind_some, Entry.stored_block, hrep']
    subst hrep
    exact ⟨_, rfl, representationGet_exchange l rfl rfl⟩

include H g h hb

theorem frontiers_lookup_state : l.frontiers.lookup (n.hash p) = none := by
  cases hlk : l.frontiers.lookup (n.hash p) with
  | none => rfl
  | some y =>
    obtain ⟨hl, hh⟩ := (h.frontiers _ y).1 hlk
    have hself : headHash p (L'.chain a) = n.hash p := by rw [g.chain_self]; rfl
    by_cases hy : y = a
    · rw [hy, g.chain_self] at hl
      simp [chainLegacy, Entry.type, hb, Hashables.type] at hl
    · exact absurd (hh.trans hself.symm) (headHash_ne H hy hl)

theorem undoStatePrevious_removes :
    ∃ t f, (∀ l1 : Ledger, l1.blocks = l.blocks → l1.frontiers = l.frontiers →
        (l1.undoStatePrevious (headHash p (L.chain a)) a >>= fun l2 =>
          l2.blockDel .state (n.hash p)) = some { l1 with blocks := t, frontiers := f }) ∧
      (∀ k, t.lookup k =
        if k = n.key p then none
        else if k.2 = headHash p (L.chain a) then (l.blocks.lookup k).map (·.setSuccessor 0)
        else l.blocks.lookup k) ∧
      ∀ x, f.lookup x =
        if chainLegacy (L.chain a) ∧ x = headHash p (L.chain a) then some a
        else if x = n.hash p then none
        else l.frontiers.lookup x := by
  have ht : n.type = .state := by rw [Entry.type, hb]; rfl
  have hfro := frontiers_lookup_state H g h hb
  have hfro' (x : BlockHash) : l.frontiers.lookup x =
      if x = n.hash p then none else l.frontiers.lookup x := by
    split
    · rename_i hx; rw [hx, hfro]
    · rfl
  have hmem : l.blockExistsType .state (n.hash p) := ht ▸ blockExistsType_at H h.blocks g.at_new
  unfold undoStatePrevious
  cases hc : L.chain a with
  | nil =>
    refine ⟨l.blocks.erase (n.key p), l.frontiers, fun l1 h1 h2 => ?_, fun k => ?_, fun x => ?_⟩
    · have hz : l1.blockGet 0 = none := blockGet_zero H (L := L') (by rw [h1]; exact h.blocks)
      have hmem1 : l1.blockExistsType .state (n.hash p) := by
        unfold blockExistsType; rw [h1]; exact hmem
      rw [headHash, hz]
      simp only [bind_eq_bind, bind_some]
      rw [blockDel_eq hmem1, h1, ← h2, Entry.key, ht]
    · rw [← hc]
      exact lookup_removed_first H h.blocks hc (fun k => Finmap.lookup_erase_eq _ _ _) k
    · rw [if_neg (by simp [chainLegacy])]
      exact hfro' x
  | cons x d =>
    have hat := at_head hc
    have hat' : L'.At a x d := g.at_of_at hat
    have hne : x.hash p ≠ n.hash p := hash_ne_of_grows H g hat
    refine ⟨(l.blocks.insert (x.key p)
      ((x.stored a d (L'.chain.successor p a d)).setSuccessor 0)).erase (n.key p),
      if x.type ≠ .state then l.frontiers.insert (x.hash p) a else l.frontiers,
      fun l1 h1 h2 => ?_, fun k => ?_, fun y => ?_⟩
    · have hget : l1.blockGet (x.hash p) = _ := blockGet_at H (by rw [h1]; exact h.blocks) hat'
      have hraw : l1.blockRawGet (x.hash p) = _ :=
        blockRawGet_at H (by rw [h1]; exact h.blocks) hat'
      rw [headHash, hget]
      simp only [bind_eq_bind, Ledger.blockSuccessorClear, blockSuccessorSet_eq hraw, bind_some]
      have hmem2 (l2 : Ledger) (heq : l2.blocks = l.blocks.insert (x.key p)
          ((x.stored a d (L'.chain.successor p a d)).setSuccessor 0)) :
          l2.blockExistsType .state (n.hash p) := by
        unfold blockExistsType
        rw [heq, Finmap.lookup_insert_eq, if_neg (fun hk => hne (congrArg Prod.snd hk).symm)]
        exact hmem
      by_cases hl : x.type ≠ .state
      · rw [if_pos hl, if_pos (show (x.stored a d _).block.hashables.type ≠ .state from hl),
          blockDel_eq (hmem2 _ (by rw [← h1]; rfl)), ← h1, ← h2, n.key_eq p, ht]
        rfl
      · rw [if_neg hl, if_neg (show ¬ (x.stored a d _).block.hashables.type ≠ .state from hl),
          blockDel_eq (hmem2 _ (by rw [← h1]; rfl)), ← h1, ← h2, n.key_eq p, ht]
        rfl
    · rw [← hc]
      refine lookup_removed H h.blocks g hc (fun k => ?_) k
      rw [Finmap.lookup_erase_eq, Finmap.lookup_insert_eq]
    · rw [headHash, chainLegacy]
      by_cases hl : x.type = .state
      · rw [if_neg (by simp [hl]), if_neg (by simp [hl])]
        exact hfro' y
      · rw [if_pos hl, Finmap.lookup_insert_eq]
        simp only [bne_iff_ne, ne_eq, hl, not_false_eq_true, true_and]
        congr 1
        exact hfro' y

theorem undoStateBlock_removes {q : Table PendingKey PendingInfo}
    (hq : ∀ k, q.lookup k = pendingRemoved p l.pending a (L.chain a) n info k) :
    ∃ l', { l with pending := q }.undoStateBlock (n.hash p) (headHash p (L.chain a)) a
          (chainRep (L.chain a)) (chainBal (L.chain a))
          (chainInfo p (n :: L.chain a)) = some l' ∧
      Removes p l a (L.chain a) n info (fun r => weightFor r (chainInfo p (n :: L.chain a)) -
        weightFor r (chainInfo p (L.chain a))) l' := by
  obtain ⟨ta, tf, hchg, hta, htf⟩ := changeLatest_pop H h.accounts h.confirmation g.chain_self
  obtain ⟨t, f, hprev, ht, hf⟩ := undoStatePrevious_removes H g h hb
  have hver : { l with pending := q }.blockVersion (headHash p (L.chain a)) =
      chainEpoch (L.chain a) := by
    cases hc : L.chain a with
    | nil =>
      unfold blockVersion
      rw [headHash, blockGet_zero H (L := L') (l := { l with pending := q }) h.blocks]
      rfl
    | cons x d => exact blockVersion_at H h.blocks (g.at_of_at (at_head hc))
  unfold undoStateBlock
  dsimp only
  rw [hver]
  refine ⟨_, bind_eq_some_iff.2 ⟨_, hchg _ _ _ rfl rfl (fun hc => ?_)
    (fun hc => ⟨rfl, chainInfo_below hc⟩), hprev _ rfl rfl⟩, ?_⟩
  · rw [hc]; rfl
  · refine ⟨ht, hta, hq, hf, htf, fun r => ?_, rfl, rfl⟩
    change l.representationGet r = _
    ring

end

end Futurehead
