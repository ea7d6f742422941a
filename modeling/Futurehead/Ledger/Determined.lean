import Futurehead.Ledger.Scope

/-!
# The block set determines the ledger

Two lattices with the same blocks have the same chains: the previous field of a block says what it
stands on, and the send it receives says what it adds (`Lattice.at_of_blocks`). A ledger is a
function of its chains, up to entries of weight zero (`sameLedger_of_chain_eq`). So it does not
matter in which order blocks were accepted, nor what was rolled back in between, and taking back the
block that was accepted last restores the ledger.
-/

namespace Futurehead

variable {e n : Entry} {a : Account} {c : List Entry}

variable {p : Params} {known : Block → Prop} (H : HashAssumptions p known)

/-! ## Chains -/

variable {epoch epoch' : Epoch}

theorem chainDetails_congr {h : Hashables}
    (hrec : ∀ s, h.kind p (chainBal c) = .receive s → epoch = epoch') :
    chainDetails p h c epoch = chainDetails p h c epoch' := by
  cases h with
  | stateBlock account previous rep balance link =>
    unfold chainDetails
    dsimp only
    cases hk : Hashables.kind p (chainBal c) _ with
    | send d => rfl
    | receive s => rw [hrec s hk]
    | _ => cases p.epochInfo link <;> rfl
  | _ => rfl

theorem Extends.entry_unique {e' : Entry} {amount amount' : Amount}
    (hx : Extends p a c e amount epoch) (hx' : Extends p a c e' amount' epoch')
    (hb : e.block = e'.block)
    (hrec : ∀ s, e.kind p c = .receive s → amount = amount' ∧ epoch = epoch') : e = e' := by
  have hkind : e'.kind p c = e.kind p c := by unfold Entry.kind; rw [hb]
  have hdet : e.details = e'.details := by
    rw [hx.details, hx'.details, ← hb]
    exact chainDetails_congr fun s hk => (hrec s hk).2
  have hbalance : e.balance = e'.balance := by
    cases hk : e.kind p c with
    | send d =>
      -- every block that sends states its balance
      obtain ⟨balance, hst⟩ : ∃ balance, e.block.hashables.statedBalance = some balance := by
        unfold Entry.kind at hk
        cases hh : e.block.hashables with
        | sendBlock previous dest balance | stateBlock account previous rep balance link =>
          exact ⟨balance, rfl⟩
        | openBlock source rep account =>
          rw [hh, Hashables.kind] at hk
          split_ifs at hk
        | _ => rw [hh] at hk; cases hk
      rw [hx.stated balance hst, hx'.stated balance (hb ▸ hst)]
    | receive s =>
      have hbal := hx.receive s hk
      rw [(hrec s hk).1, ← hx'.receive s (hkind.trans hk)] at hbal
      exact BitVec.eq_of_toNat_eq hbal
    | neutral => rw [hx.neutral hk, hx'.neutral (hkind.trans hk)]
    | genesis => rw [(hx.genesis hk).2, (hx'.genesis (hkind.trans hk)).2]
  cases e
  cases e'
  simp_all

namespace Chains

variable {L L' : Chains}

theorem within_of_at (h : ∀ a e c, L.At a e c → L'.At a e c) : L.Within L' := fun a => by
  cases hc : L a with
  | nil => exact List.nil_suffix
  | cons e c => exact h a e c (at_head hc)

theorem Within.antisymm (w : L.Within L') (w' : L'.Within L) : L = L' :=
  funext fun a => (w a).eq_of_length_le (w' a).length_le

end Chains

namespace Lattice

variable {L L' : Lattice p known}

include H

theorem at_of_blocks
    (hbs : ∀ {a e c}, L.At a e c → ∃ a' e' c', L'.At a' e' c' ∧ e'.block = e.block)
    (hat : L.At a e c) : L'.At a e c := by
  -- what the block stands on and what it receives have smaller rank
  induction hrank : L.rank (e.hash p) using Nat.strong_induction_on generalizing a e c with
  | _ k ih =>
    subst hrank
    obtain ⟨a', e', c', hat', hb⟩ := hbs hat
    have hprev : headHash p c' = headHash p c := by
      rw [← previous_at hat', ← previous_at hat, hb]
    obtain ⟨amount, epoch, hx, hs⟩ := L.valid hat
    obtain ⟨amount', epoch', hx', hs'⟩ := L'.valid hat'
    obtain ⟨rfl, rfl⟩ : a' = a ∧ c' = c := by
      cases c with
      | nil =>
        obtain rfl := (headHash_eq_zero H hat').1 hprev
        rw [← hx.account (hx.opens rfl), ← hx'.account (hx'.opens rfl), hb]
        exact ⟨rfl, rfl⟩
      | cons x d =>
        have hblw := ih _ (L.rank_previous hat) hat.below rfl
        cases c' with
        | nil => exact absurd hprev.symm (hash_ne_zero H hat.below)
        | cons x' d' =>
          obtain ⟨rfl, rfl, rfl⟩ := at_unique H hat'.below hblw hprev
          exact ⟨rfl, rfl⟩
    have hrec : ∀ s, e'.kind p c' = .receive s → amount' = amount ∧ epoch' = epoch := by
      intro s hk'
      have hk : e.kind p c' = .receive s := by rw [← hk']; unfold Entry.kind; rw [hb]
      obtain ⟨y, w, f, hatw, rfl, -, rfl, rfl⟩ := hs s hk
      obtain ⟨y', w', f', hatw', hh, -, rfl, rfl⟩ := hs' _ hk'
      have hsrc := ih _ (L.rank_source hat hk) hatw rfl
      obtain ⟨rfl, rfl, rfl⟩ := at_unique H hatw' hsrc hh
      exact ⟨rfl, rfl⟩
    obtain rfl := hx'.entry_unique hx hb hrec
    exact hat'

theorem chain_eq_of_blocks
    (h : ∀ b, (∃ a e c, L.At a e c ∧ e.block = b) ↔ ∃ a e c, L'.At a e c ∧ e.block = b) :
    L.chain = L'.chain :=
  Chains.Within.antisymm
    (Chains.within_of_at fun _ _ _ => at_of_blocks H fun hat => (h _).1 ⟨_, _, _, hat, rfl⟩)
    (Chains.within_of_at fun _ _ _ => at_of_blocks H fun hat => (h _).2 ⟨_, _, _, hat, rfl⟩)

theorem eq_new_of_restsOn {y : Account}
    (g : Chains.Grows L.chain a n L'.chain) (hat : L'.At y e c)
    (hr : L'.RestsOn (e.hash p) (n.hash p)) : y = a ∧ e = n ∧ c = L.chain a := by
  rcases Relation.ReflTransGen.cases_tail hr with heq | ⟨h, -, x, w, d, hatw, -, hd⟩
  · exact at_unique H hat g.at_new heq.symm
  · rcases hd with ⟨hne, hhead⟩ | hk
    · cases d with
      | nil => exact absurd rfl hne
      | cons z d =>
        rcases g.at_iff.1 hatw with ⟨rfl, rfl, hc⟩ | hold
        · exact absurd (hhead.symm.trans (congrArg (headHash p) hc)) (hash_ne_headHash H g)
        · exact absurd hhead (hash_ne_of_grows H g hold.below)
    · exact absurd ⟨x, w, d, hatw, hk⟩ (not_received_new H g)

end Lattice

/-! ## Ledgers -/

def Ledger.Stores (p : Params) (l : Ledger) (b : Block) : Prop :=
  ∃ s, l.blockGet (p.hash b) = some s ∧ s.block = b

/-- The ledgers agree in every table and in what the cache says. -/
structure SameLedger (l l' : Ledger) : Prop where
  /-- The blocks with their sidebands. -/
  blocks : l.blocks = l'.blocks
  accounts : l.accounts = l'.accounts
  pending : l.pending = l'.pending
  frontiers : l.frontiers = l'.frontiers
  confirmationHeight : l.confirmationHeight = l'.confirmationHeight
  weights : ∀ r, l.representationGet r = l'.representationGet r
  blockCount : l.blockCount = l'.blockCount
  accountCount : l.accountCount = l'.accountCount

variable {l l' : Ledger} {L L' : Lattice p known}

include H in
theorem stores_iff (hb : BlocksRep p l.blocks L.chain) (b : Block) :
    l.Stores p b ↔ ∃ a e c, L.At a e c ∧ e.block = b := by
  constructor
  · rintro ⟨s, hget, rfl⟩
    obtain ⟨a, e, c, hat, hh⟩ := at_of_blockGet hb hget
    rw [← hh, blockGet_at H hb hat] at hget
    cases hget
    exact ⟨a, e, c, hat, rfl⟩
  · rintro ⟨a, e, c, hat, rfl⟩
    exact ⟨_, blockGet_at H hb hat, rfl⟩

theorem sameLedger_of_chain_eq (h : Uncemented l L) (h' : Uncemented l' L')
    (hc : L.chain = L'.chain) : SameLedger l l' := by
  have hr := h.holds.represents
  have hr' := h'.holds.represents
  have hbs : l.blocks = l'.blocks := hr.blocks.unique (hc ▸ hr'.blocks)
  have haccs : l.accounts = l'.accounts := hr.accounts.unique (hc ▸ hr'.accounts)
  refine ⟨hbs, haccs, hr.pending.unique (hc ▸ hr'.pending),
    hr.frontiers.unique (hc ▸ hr'.frontiers), Finmap.ext_lookup fun a => ?_, fun r => ?_, ?_, ?_⟩
  · exact (h.heights a).trans (hc ▸ (h'.heights a).symm)
  · rw [hr.weights, hr'.weights, haccs]
  · rw [hr.blockCount, hr'.blockCount, hbs]
  · rw [hr.accountCount, hr'.accountCount, haccs]

include H in
theorem rollback_new (h : Uncemented l L) (h' : Uncemented l' L')
    (g : Chains.Grows L.chain a n L'.chain) {fuel : Nat} (hf : l'.blocks.keys.card < fuel) :
    ∃ l'', Ledger.rollback p fuel l' (n.hash p) [] = some (false, l'', [n.block]) ∧
      SameLedger l'' l := by
  have hr := h'.holds.represents
  have cl : l'.StateClosed L' := fun hx _ hp =>
    cementedAt_of_pinned H hr.blocks (h'.cementedClosed H) hx hp
  have hnew : ¬ l'.CementedAt a (L.chain a) := fun hcem => by
    obtain ⟨rfl, rfl, hc⟩ := h'.eq_genesis g.at_new hcem
    exact hash_ne_of_grows H g h.genesis_at rfl
  have hpin : ¬ l'.Pinned L' (n.hash p) := fun hp =>
    hnew (cementedAt_of_pinned H hr.blocks (h'.cementedClosed H) g.at_new hp)
  obtain ⟨l'', removed, L'', hrun, hr'', r, hgone⟩ :=
    rollback_succeeds H hr cl g.at_new (h'.holds.genesis g.at_new) hpin hf []
  -- exactly the position of the new block is gone
  have hiff {y e c} (hat : L'.At y e c) :
      ¬ L''.At y e c ↔ y = a ∧ e = n ∧ c = L.chain a := by
    refine ⟨fun hnot => Lattice.eq_new_of_restsOn H g hat (r.restsOn hat hnot), ?_⟩
    rintro ⟨rfl, rfl, rfl⟩
    exact hgone
  have hch : L''.chain = L.chain := by
    refine Chains.Within.antisymm (Chains.within_of_at fun y e c hat => ?_)
      (Chains.within_of_at fun y e c hat => ?_)
    · rcases g.at_iff.1 (r.within.at hat) with ⟨rfl, rfl, rfl⟩ | hold
      · exact absurd hat hgone
      · exact hold
    · by_contra hnot
      obtain ⟨rfl, rfl, rfl⟩ := (hiff (g.at_of_at hat)).1 hnot
      exact Chains.Grows.not_at_self _ hat
  have hremoved : removed = [n.block] := by
    refine List.perm_singleton.1
      ((List.perm_ext_iff_of_nodup r.nodup.of_map (List.nodup_singleton _)).2 fun b => ?_)
    rw [r.mem, List.mem_singleton]
    constructor
    · rintro ⟨y, e, c, hat, hnot, rfl⟩
      rw [((hiff hat).1 hnot).2.1]
    · rintro rfl
      exact ⟨a, n, _, g.at_new, hgone, rfl⟩
  subst hremoved
  exact ⟨l'', hrun, sameLedger_of_chain_eq (uncemented_of_rolled h' hr'' r) h hch⟩

include H in
/-- Two ledgers that are reached by calls that keep to the chains and store the same blocks are the
same. Rolling back a block that was just accepted gives back the ledger before it. -/
theorem ledger_determined (hl : Reached p known (OwnCall p) l) :
    (∀ l2, Reached p known (OwnCall p) l2 → (∀ b, l.Stores p b ↔ l2.Stores p b) → SameLedger l l2) ∧
    ∀ b verification r l1 fuel, known b → OwnPrevious p l (.process b verification) →
      l.process p b verification = some (r, l1) → r.code = .progress →
      l1.blocks.keys.card < fuel →
      ∃ l2, Ledger.rollback p fuel l1 (p.hash b) [] = some (false, l2, [b]) ∧ SameLedger l2 l := by
  obtain ⟨L, h⟩ := hl.uncemented H
  constructor
  · intro l2 hl2 hsame
    obtain ⟨L2, h2⟩ := hl2.uncemented H
    refine sameLedger_of_chain_eq h h2 (Lattice.chain_eq_of_blocks H fun b => ?_)
    rw [← stores_iff H h.holds.represents.blocks, ← stores_iff H h2.holds.represents.blocks]
    exact hsame b
  · intro b verification r l1 fuel hkn hown hproc hcode hf
    rcases uncemented_of_process H h hkn hown hproc with
      ⟨hno, -⟩ | ⟨-, a, n, amount, epoch, hp, rfl, h1⟩
    · exact absurd hcode hno
    · exact rollback_new H h h1 (L.push_grows a n hp) hf

open Sample

/-- Account B is opened before or after the second send to it, which is taken back. -/
theorem ledger_determined_opens :
    ∃ l l2, run [put sendZero, put openB] = some l ∧
      run [put sendZero, put sendB, put openB, take sendB] = some l2 ∧ SameLedger l l2 ∧
      ∃ r l1 l3, l.process params sendB .unknown = some (r, l1) ∧
        Ledger.rollback params 20 l1 (Sample.hash sendB) [] =
          some (false, l3, [sendB]) ∧ SameLedger l3 l := by
  obtain ⟨l, hl, ⟨l2, hl2, hbs⟩, ⟨r, l1⟩, hproc, hcode, hcard⟩ :
    ∃ l ∈ run [put sendZero, put openB],
    (∃ l2 ∈ run [put sendZero, put sendB, put openB, take sendB], l.blocks = l2.blocks) ∧
    ∃ x ∈ l.process params sendB .unknown,
      x.1.code = .progress ∧ x.2.blocks.keys.card < 20 := by decide +kernel
  obtain ⟨hsame, hback⟩ := ledger_determined hashAssumptions
    (reached_of_legacy (by decide +kernel) hl)
  obtain ⟨l3, hroll, hl3⟩ := hback sendB .unknown r l1 20 (by decide +kernel)
    (fun _ _ _ _ ht => absurd ht (by decide)) hproc hcode hcard
  refine ⟨l, l2, hl, hl2, hsame l2 (reached_of_legacy (by decide +kernel) hl2) fun b => ?_, r, l1, l3,
    hproc, hroll, hl3⟩
  unfold Ledger.Stores Ledger.blockGet Ledger.blockRawGet
  rw [hbs]

end Futurehead
