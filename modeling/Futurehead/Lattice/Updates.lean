import Futurehead.Lattice.Queries

/-!
# Store updates on a ledger that holds a lattice

The store functions that the visitors call in sequence, each with the update it makes when the
ledger holds a lattice. The results are stated as in `Appends` and `Removes`, so that a visitor's
update is assembled from those of the functions it calls.
-/

namespace Futurehead

open Ledger Futurehead.Lattice

variable {p : Params} {known : Block → Prop} (H : HashAssumptions p known) {L : Lattice p known}
  {l : Ledger} {a : Account} {n : Entry} {c : List Entry}

/-! ## Blocks -/

theorem blockRawGet_congr {l1 : Ledger} (hbs : l1.blocks = l.blocks) (h : BlockHash) :
    l1.blockRawGet h = l.blockRawGet h := by
  unfold Ledger.blockRawGet
  rw [hbs]

theorem blockRawGet_isSome (h : BlockHash) : (l.blockRawGet h).isSome = l.blockExists h := by
  unfold Ledger.blockRawGet Ledger.blockExists blockExistsType
  rw [Bool.eq_iff_iff, List.findSome?_isSome_iff]
  simp [Option.isSome_iff_exists, or_assoc]

theorem blockGet_isSome (h : BlockHash) : (l.blockGet h).isSome = l.blockExists h := by
  unfold Ledger.blockGet
  rw [Option.isSome_map, blockRawGet_isSome]

variable {h h' : BlockHash} {sideband : Sideband} {old new : AccountInfo} {b : StoredBlock}
  {type : BlockType} {L' : Lattice p known} {t : Table (BlockType × BlockHash) StoredBlock}

theorem blockExists_of_blockGet (hb : l.blockGet h = some b) : l.blockExists h := by
  rw [← blockGet_isSome, hb]
  rfl

theorem blockExists_insert (hex : l.blockExists h) (k : BlockType × BlockHash) (b : StoredBlock) :
    { l with blocks := l.blocks.insert k b }.blockExists h := by
  have hmono (type : BlockType) (hty : l.blockExistsType type h) :
      { l with blocks := l.blocks.insert k b }.blockExistsType type h := by
    unfold blockExistsType at hty ⊢
    rw [Finmap.lookup_insert_eq]
    split
    · rfl
    · exact hty
  simp only [Ledger.blockExists, Bool.or_eq_true] at hex ⊢
  exact hex.imp (.imp (.imp (.imp (hmono _) (hmono _)) (hmono _)) (hmono _)) (hmono _)

theorem blockRawGet_insert_ne (hne : h' ≠ h) (type : BlockType) (b : StoredBlock) :
    { l with blocks := l.blocks.insert (type, h) b }.blockRawGet h' = l.blockRawGet h' := by
  have hk (ty : BlockType) : (l.blocks.insert (type, h) b).lookup (ty, h') =
      l.blocks.lookup (ty, h') := by
    rw [Finmap.lookup_insert_eq, if_neg (fun heq => hne (congrArg Prod.snd heq))]
  unfold Ledger.blockRawGet
  simp only [hk]

theorem blockSuccessorSet_eq {s : BlockHash} (hraw : l.blockRawGet h = some (type, b)) :
    l.blockSuccessorSet h s =
      some { l with blocks := l.blocks.insert (type, h) (b.setSuccessor s) } := by
  unfold blockSuccessorSet
  rw [hraw]
  rfl

theorem blockPut_first {b : Block} (hprev : b.hashables.previous = 0)
    (ht : b.hashables.type = BlockType.open ∨ b.hashables.type = .state) :
    l.blockPut h b sideband = some { l with
      blocks := l.blocks.insert (b.hashables.type, h) ⟨b, sideband.stored b.hashables.type⟩ } := by
  unfold Ledger.blockPut
  cases hh : b.hashables <;> simp_all [Hashables.previous, Hashables.type]

theorem blockPut_next {b : Block} (hprev : b.hashables.previous ≠ 0) :
    l.blockPut h b sideband = { l with
      blocks := l.blocks.insert (b.hashables.type, h) ⟨b, sideband.stored b.hashables.type⟩
      }.blockSuccessorSet b.hashables.previous h := by
  unfold Ledger.blockPut
  cases hh : b.hashables <;> simp_all [Hashables.previous, Hashables.type]

include H in
theorem blockPut_extends (hb : BlocksRep p l.blocks L.chain) {amt : Amount} {epoch : Epoch}
    (hx : Extends p a (L.chain a) n amt epoch)
    (hfresh : ∀ {y e c}, L.At y e c → e.hash p ≠ n.hash p)
    (hs : sideband.stored n.type = n.sideband a (L.chain a) 0) :
    ∃ t, l.blockPut (n.hash p) n.block sideband = some { l with blocks := t } ∧
      ∀ k, t.lookup k =
        if k = n.key p then some (n.stored a (L.chain a) 0)
        else if k.2 = headHash p (L.chain a) then
          (l.blocks.lookup k).map (·.setSuccessor (n.hash p))
        else l.blocks.lookup k := by
  have hst : (⟨n.block, sideband.stored n.block.hashables.type⟩ : StoredBlock) =
      n.stored a (L.chain a) 0 := by
    unfold Entry.stored
    rw [← hs]
    rfl
  cases hc : L.chain a with
  | nil =>
    have hprev := hx.previous
    rw [hc] at hprev
    refine ⟨_, blockPut_first hprev (hx.opens hc), fun k => ?_⟩
    rw [hst, hc, Finmap.lookup_insert_eq]
    split
    · rename_i hk; exact (if_pos hk).symm
    · rename_i hk
      refine Eq.trans ?_ (if_neg hk).symm
      split
      · rename_i hz
        cases hlk : l.blocks.lookup k with
        | none => rfl
        | some b =>
          obtain ⟨y, e, d, hat, rfl⟩ := hb.only hlk
          exact absurd hz (hash_ne_zero H hat)
      · rfl
  | cons x d =>
    have hat := Chains.at_head hc
    have hprev := hx.previous
    rw [hc, headHash] at hprev
    have hraw : { l with blocks := l.blocks.insert (n.key p) (n.stored a (x :: d) 0)
        }.blockRawGet (x.hash p) = some (x.key p |>.1, x.stored a d (L.chain.successor p a d)) := by
      rw [Entry.key, blockRawGet_insert_ne (hfresh hat), blockRawGet_at H hb hat]
      rfl
    rw [hc] at hst
    rw [blockPut_next (hprev ▸ hash_ne_zero H hat), hprev, hst]
    refine ⟨_, blockSuccessorSet_eq hraw, fun k => ?_⟩
    change Finmap.lookup k ((l.blocks.insert (n.key p) _).insert (x.key p) _) = _
    rw [Finmap.lookup_insert_eq, Finmap.lookup_insert_eq]
    by_cases hkx : k = x.key p
    · have hkn : k ≠ n.key p := fun h => hfresh hat (congrArg Prod.snd (hkx ▸ h))
      rw [if_pos hkx, if_neg hkn, hkx, hb.stored hat, Entry.key_snd, headHash, if_pos rfl]
      rfl
    · rw [if_neg hkx]
      congr 1
      split
      · rename_i hh
        -- the hash of `x` is stored in the table of its type only
        obtain ⟨type, hash⟩ := k
        obtain rfl : hash = x.hash p := hh
        rw [lookup_at H hb hat, if_neg (fun ht => hkx (by rw [ht]; rfl))]
        rfl
      · rfl

theorem blockDel_eq (hex : l.blockExistsType type h) :
    l.blockDel type h = some { l with blocks := l.blocks.erase (type, h) } := by
  unfold Ledger.blockDel
  rw [if_pos hex]

theorem blockRawGet_erase_ne (hne : h' ≠ h) (type : BlockType) :
    { l with blocks := l.blocks.erase (type, h) }.blockRawGet h' = l.blockRawGet h' := by
  have hk (ty : BlockType) : (l.blocks.erase (type, h)).lookup (ty, h') =
      l.blocks.lookup (ty, h') := by
    rw [Finmap.lookup_erase_eq, if_neg (fun heq => hne (congrArg Prod.snd heq))]
  unfold Ledger.blockRawGet
  simp only [hk]

include H in
theorem lookup_removed (hb : BlocksRep p l.blocks L'.chain) (g : Chains.Grows L.chain a n L'.chain)
    {x : Entry} {d : List Entry} (hc : L.chain a = x :: d) (ht : ∀ k, t.lookup k =
      if k = n.key p then none
      else if k = x.key p then
        some ((x.stored a d (L'.chain.successor p a d)).setSuccessor 0)
      else l.blocks.lookup k) (k : BlockType × BlockHash) : t.lookup k =
      if k = n.key p then none
      else if k.2 = headHash p (L.chain a) then (l.blocks.lookup k).map (·.setSuccessor 0)
      else l.blocks.lookup k := by
  have hat : L'.At a x d := g.at_of_at (Chains.at_head hc)
  rw [ht, hc, headHash]
  congr 1
  by_cases hkx : k = x.key p
  · rw [if_pos hkx, hkx, Entry.key_snd, if_pos rfl, hb.stored hat, Option.map_some]
  · rw [if_neg hkx]
    split
    · rename_i hh
      obtain ⟨type, hash⟩ := k
      obtain rfl : hash = x.hash p := hh
      rw [lookup_at H hb hat, if_neg (fun ht => hkx (by rw [ht]; rfl))]
      rfl
    · rfl

include H in
theorem lookup_removed_first (hb : BlocksRep p l.blocks L'.chain) (hc : L.chain a = [])
    (ht : ∀ k, t.lookup k = if k = n.key p then none else l.blocks.lookup k)
    (k : BlockType × BlockHash) : t.lookup k =
      if k = n.key p then none
      else if k.2 = headHash p (L.chain a) then (l.blocks.lookup k).map (·.setSuccessor 0)
      else l.blocks.lookup k := by
  rw [ht, hc, headHash]
  congr 1
  split
  · rename_i hz; rw [blocks_lookup_zero H hb hz]; rfl
  · rfl

/-! ## Accounts -/

theorem accountDel_eq (h : a ∈ l.accounts) :
    l.accountDel a = some { l with accounts := l.accounts.erase a } := if_pos h

theorem confirmationHeightDel_eq (h : a ∈ l.confirmationHeight) :
    l.confirmationHeightDel a =
      some { l with confirmationHeight := l.confirmationHeight.erase a } := if_pos h

theorem pendingDel_eq {key : PendingKey} (h : key ∈ l.pending) :
    l.pendingDel key = some { l with pending := l.pending.erase key } := if_pos h

theorem frontierDel_eq (hm : h ∈ l.frontiers) :
    l.frontierDel h = some { l with frontiers := l.frontiers.erase h } := if_pos hm

theorem changeLatest_open (hold : old.head ≠ 0) (hnew : new.head ≠ 0) (hmem : a ∈ l.accounts) :
    l.changeLatest a old new = some { l with accounts := l.accounts.insert a new } := by
  have hnot : ¬ (old.head = 0 ∧ new.openBlock = new.head) := fun h => hold h.1
  unfold changeLatest
  simp only [if_pos hnew, if_neg hnot]
  by_cases he : old.epoch = new.epoch
  · rw [if_neg (fun h => h.2 he)]
    rfl
  · rw [if_pos ⟨hold, he⟩, accountDel_eq hmem]
    simp only [Option.bind_eq_bind, Option.bind_some, accountPut, Finmap.insert_erase]

theorem changeLatest_opens (hold : old.head = 0) (hnew : new.head ≠ 0)
    (hopen : new.openBlock = new.head) : l.changeLatest a old new = some { l with
      accounts := l.accounts.insert a new
      confirmationHeight := l.confirmationHeight.insert a ⟨0, 0⟩
      accountCount := l.accountCount + 1 } := by
  have hnot : ¬ (old.head ≠ 0 ∧ old.epoch ≠ new.epoch) := fun h => h.1 hold
  unfold changeLatest
  simp only [if_pos hnew, if_pos (And.intro hold hopen), if_neg hnot]
  rfl

theorem changeLatest_closes (hnew : new.head = 0) (hmem : a ∈ l.accounts)
    (hconf : a ∈ l.confirmationHeight) : l.changeLatest a old new = some { l with
      accounts := l.accounts.erase a
      confirmationHeight := l.confirmationHeight.erase a
      accountCount := l.accountCount - 1 } := by
  unfold changeLatest
  rw [if_neg (by simp [hnew]), confirmationHeightDel_eq hconf]
  simp only [Option.bind_eq_bind, Option.bind_some]
  rw [accountDel_eq (by exact hmem)]
  rfl

theorem mem_accounts (ha : AccountsRep p l.accounts L.chain) (hc : L.chain a ≠ []) :
    a ∈ l.accounts := by
  rw [← Finmap.lookup_isSome, ha a]
  simp [chainInfo?, hc]

include H

theorem changeLatest_push (ha : AccountsRep p l.accounts L.chain) (hn : n.hash p ≠ 0) :
    ∃ t f, (∀ (l1 : Ledger) (new : AccountInfo), l1.accounts = l.accounts →
        l1.confirmationHeight = l.confirmationHeight → new = chainInfo p (n :: L.chain a) →
        l1.changeLatest a (chainInfo p (L.chain a)) new = some { l1 with
          accounts := t, confirmationHeight := f,
          accountCount := if L.chain a = [] then l1.accountCount + 1 else l1.accountCount }) ∧
      (∀ x, t.lookup x =
        if x = a then some (chainInfo p (n :: L.chain a)) else l.accounts.lookup x) ∧
      (∀ x, f.lookup x =
        if L.chain a = [] ∧ x = a then some ⟨0, 0⟩ else l.confirmationHeight.lookup x) := by
  cases hc : L.chain a with
  | nil =>
    refine ⟨l.accounts.insert a (chainInfo p [n]), l.confirmationHeight.insert a ⟨0, 0⟩, ?_,
      fun x => Finmap.lookup_insert_eq _ _ x _, fun x => ?_⟩
    · rintro l1 _ h1 h2 rfl
      rw [changeLatest_opens rfl hn rfl, h1, h2]
      rfl
    · simp [Finmap.lookup_insert_eq]
  | cons y d =>
    refine ⟨l.accounts.insert a (chainInfo p (n :: y :: d)), l.confirmationHeight, ?_,
      fun x => Finmap.lookup_insert_eq _ _ x _, fun x => ?_⟩
    · rintro l1 _ h1 h2 rfl
      rw [changeLatest_open (hash_ne_zero H (Chains.at_head hc)) hn
        (h1 ▸ mem_accounts ha (by simp [hc])), h1, ← h2]
      rfl
    · simp

theorem changeLatest_pop (ha : AccountsRep p l.accounts L.chain)
    (hf : ConfirmationRep l.confirmationHeight L.chain) (hc : L.chain a = n :: c) :
    ∃ t f, (∀ (l1 : Ledger) (old new : AccountInfo), l1.accounts = l.accounts →
        l1.confirmationHeight = l.confirmationHeight → (c = [] → new.head = 0) →
        (c ≠ [] → old = chainInfo p (n :: c) ∧ new = chainInfo p c) →
        l1.changeLatest a old new = some { l1 with
          accounts := t, confirmationHeight := f,
          accountCount := if c = [] then l1.accountCount - 1 else l1.accountCount }) ∧
      (∀ x, t.lookup x = if x = a then chainInfo? p c else l.accounts.lookup x) ∧
      (∀ x, f.lookup x = if c = [] ∧ x = a then none else l.confirmationHeight.lookup x) := by
  have hopen : L.chain a ≠ [] := by simp [hc]
  have hat := Chains.at_head hc
  cases c with
  | nil =>
    refine ⟨l.accounts.erase a, l.confirmationHeight.erase a, fun l1 old new h1 h2 hnil _ => ?_,
      Finmap.lookup_erase_eq _ _, fun x => ?_⟩
    · rw [changeLatest_closes (hnil rfl) (h1 ▸ mem_accounts ha hopen) (h2 ▸ (hf a).2 hopen),
        h1, h2]
      rfl
    · simp [Finmap.lookup_erase_eq]
  | cons y d =>
    refine ⟨l.accounts.insert a (chainInfo p (y :: d)), l.confirmationHeight,
      fun l1 old new h1 h2 _ hcons => ?_, fun x => Finmap.lookup_insert_eq _ _ x _, fun x => ?_⟩
    · obtain ⟨rfl, rfl⟩ := hcons (by simp)
      rw [changeLatest_open (hash_ne_zero H hat) (hash_ne_zero H hat.below)
        (h1 ▸ mem_accounts ha hopen), h1, ← h2]
      rfl
    · simp

end Futurehead
