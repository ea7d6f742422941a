import Futurehead.Ledger.Conservation
import Futurehead.Ledger.Structure

/-!
# The scope of a rollback

When the cemented blocks are closed under dependencies, a rollback of a block that is not cemented
removes the blocks that rest on it, and no others (`rollback_scope`). For heights that are not
closed, a rollback can fail after it has begun: `failure_harmless_iff` says for which tables it then
reports the error and leaves the account alone.
-/

namespace Futurehead

open Option Finmap

variable {p : Params} {known : Block → Prop} (H : HashAssumptions p known) {L : Lattice p known}
  {l : Ledger} {a : Account} {e : Entry} {c : List Entry}

/-- The block is stored and cemented (`ledger::block_confirmed`). -/
def Ledger.Confirmed (l : Ledger) (hash : BlockHash) : Prop := l.blockConfirmed hash = some true

/-- The cemented blocks are closed under `ledger::dependent_blocks`. -/
def Ledger.CementedClosed (p : Params) (l : Ledger) : Prop :=
  ∀ h' h, l.DependsOn p h' h → l.Confirmed h' → l.Confirmed h

include H in
theorem confirmed_at (hb : BlocksRep p l.blocks L.chain) (hat : L.At a e c) :
    l.Confirmed (e.hash p) ↔ l.CementedAt a c := by
  unfold Ledger.Confirmed Ledger.blockConfirmed Ledger.CementedAt
  rw [blockAccountHeight_at H hb hat, account_at H hb hat]
  simp only [bind_eq_bind, bind_some, Nat.succ_pos, if_true]
  cases l.confirmationHeightGet a with
  | none => simp
  | some i => simp

include H in
theorem cementedAt_of_pinned (hb : BlocksRep p l.blocks L.chain) (hcl : l.CementedClosed p)
    (hat : L.At a e c) (hp : l.Pinned L (e.hash p)) : l.CementedAt a c := by
  obtain ⟨y, x, d, hx, hr, hcem⟩ := hp
  have hall {h' h : BlockHash} (hr : L.RestsOn h' h) (hc : l.Confirmed h') : l.Confirmed h := by
    induction hr with
    | refl => exact hc
    | tail _ hd ih => exact hcl _ _ ((dependsOn_iff H hb _ _).2 hd) ih
  exact (confirmed_at H hb hat).1 (hall hr ((confirmed_at H hb hx).2 hcem))

variable {shift : Account → Amount} {hash : BlockHash}

include H in
theorem rollback_cemented (h : Represents l L shift) (hat : L.At a e c) (hcem : l.CementedAt a c)
    (fuel : Nat) (list : List Block) :
    Ledger.rollback p (fuel + 1) l (e.hash p) list = some (true, l, list) := by
  obtain ⟨i, hi, hle⟩ := hcem
  rw [Ledger.rollback, account_at H h.blocks hat, blockAccountHeight_at H h.blocks hat]
  simp only [bind_eq_bind, bind_some]
  rw [Ledger.rollbackLoop, if_pos (blockExists_at H h.blocks hat), hi]
  simp only [bind_eq_bind, bind_some]
  rw [if_neg (by omega)]

include H in
theorem blockExists_iff (hb : BlocksRep p l.blocks L.chain) (hash : BlockHash) :
    l.blockExists hash ↔ ∃ a e c, L.At a e c ∧ e.hash p = hash := by
  constructor
  · exact at_of_blockExists hb
  · rintro ⟨a, e, c, hat, rfl⟩
    exact blockExists_at H hb hat

include H in
theorem Rolled.gone_iff {l' : Ledger} {L' : Lattice p known} {removed : List Block}
    (r : Rolled l L (e.hash p) removed l' L') (hat : L.At a e c) (hgone : ¬ L'.At a e c)
    {y : Account} {x : Entry} {d : List Entry} (hx : L.At y x d) :
    ¬ L'.At y x d ↔ L.RestsOn (x.hash p) (e.hash p) := by
  refine ⟨r.restsOn hx, fun hr hx' => ?_⟩
  refine Lattice.not_at_of_restsOn H r.within hr (fun {z w f} hz heq => hgone ?_) hx' rfl
  obtain ⟨rfl, rfl, rfl⟩ := Lattice.at_unique H (r.within.at hz) hat heq
  exact hz

include H in
/-- `ledger::rollback` of a stored block, in every ledger that is reached without a foreign epoch
block and whose cemented blocks are closed under dependencies. -/
theorem rollback_scope (hl : Reached p known (NoForeignEpoch p) l) (hcl : l.CementedClosed p)
    {hash : BlockHash} (hex : l.blockExists hash) (list : List Block) {fuel : Nat}
    (hf : l.blocks.keys.card < fuel) :
    (l.Confirmed hash → Ledger.rollback p fuel l hash list = some (true, l, list)) ∧
    (¬ l.Confirmed hash → ∃ l' removed,
      Ledger.rollback p fuel l hash list = some (false, l', list ++ removed) ∧
      (removed.map p.hash).Nodup ∧
      (∀ b, b ∈ removed ↔
        (∃ s, l.blockGet (p.hash b) = some s ∧ s.block = b) ∧ l.RestsOn p (p.hash b) hash) ∧
      l.blockCount = l'.blockCount + removed.length ∧
      (∀ x, l'.blockExists x ↔ l.blockExists x ∧ ¬ l.RestsOn p x hash) ∧
      ∀ x, l'.blockExists x → (l'.blockGet x).map (·.block) = (l.blockGet x).map (·.block)) := by
  obtain ⟨L, hL⟩ := hl.holds H
  have h := hL.represents
  obtain ⟨a, e, c, hat, rfl⟩ := at_of_blockExists h.blocks hex
  rw [confirmed_at H h.blocks hat]
  constructor
  · intro hcem
    obtain ⟨k, rfl⟩ : ∃ k, fuel = k + 1 := ⟨fuel - 1, by omega⟩
    exact rollback_cemented H h hat hcem k list
  · intro hcem
    have cl : l.StateClosed L := fun hx _ hp => cementedAt_of_pinned H h.blocks hcl hx hp
    have hp : ¬ l.Pinned L (e.hash p) := fun hp =>
      hcem (cementedAt_of_pinned H h.blocks hcl hat hp)
    obtain ⟨l', removed, L', hrun, h', r, hgone⟩ :=
      rollback_succeeds H h cl hat (hL.genesis hat) hp hf list
    refine ⟨l', removed, hrun, r.nodup, fun b => ?_, r.blockCount, fun x => ?_, fun x hx => ?_⟩
    · rw [r.mem, restsOn_iff H h.blocks]
      constructor
      · rintro ⟨y, x, d, hx, hnot, rfl⟩
        exact ⟨⟨_, blockGet_at H h.blocks hx, rfl⟩, (r.gone_iff H hat hgone hx).1 hnot⟩
      · rintro ⟨⟨s, hget, rfl⟩, hr⟩
        obtain ⟨y, x, d, hx, hh⟩ := at_of_blockGet h.blocks hget
        rw [← hh, blockGet_at H h.blocks hx] at hget
        cases hget
        exact ⟨y, x, d, hx, (r.gone_iff H hat hgone hx).2 hr, rfl⟩
    · rw [blockExists_iff H h'.blocks, blockExists_iff H h.blocks, restsOn_iff H h.blocks]
      constructor
      · rintro ⟨y, x, d, hx, rfl⟩
        have hold := r.within.at hx
        exact ⟨⟨y, x, d, hold, rfl⟩, fun hr => (r.gone_iff H hat hgone hold).2 hr hx⟩
      · rintro ⟨⟨y, x, d, hx, rfl⟩, hr⟩
        exact ⟨y, x, d, not_not.1 (mt (r.gone_iff H hat hgone hx).1 hr), rfl⟩
    · obtain ⟨y, w, d, hat', rfl⟩ := at_of_blockExists h'.blocks hx
      rw [blockGet_at H h'.blocks hat', blockGet_at H h.blocks (r.within.at hat')]
      rfl

def Ledger.withHeights (l : Ledger) (heights : Table Account ConfirmationHeightInfo) : Ledger :=
  { l with confirmationHeight := heights }

theorem Represents.withHeights {heights : Table Account ConfirmationHeightInfo}
    (h : Represents l L shift) (hmem : ∀ acc, acc ∈ heights ↔ acc ∈ l.accounts) :
    Represents (l.withHeights heights) L shift :=
  { h with
    confirmation := fun acc => by
      refine (hmem acc).trans ?_
      rw [← lookup_isSome, h.accounts acc]
      cases L.chain acc <;> simp [chainInfo?] }

theorem cementedClosed_of_only (h0 : BlockHash) (honly : ∀ h, l.Confirmed h → h = h0)
    (hdep : ∀ b, l.blockGet h0 = some b → Ledger.dependentBlocks p b = (0, 0)) :
    l.CementedClosed p := by
  rintro h' h ⟨b, hget, hne, hd⟩ hc
  obtain rfl := honly h' hc
  rw [hdep b hget] at hd
  exact absurd (hd.elim Eq.symm Eq.symm) hne

theorem mem_keys_of_blockGet {b : StoredBlock} (h : l.blockGet hash = some b) :
    ∃ k ∈ l.blocks.keys, k.2 = hash := by
  obtain ⟨⟨type, b'⟩, hraw, -⟩ := map_eq_some_iff.1 h
  obtain ⟨type', -, hfnd⟩ := List.exists_of_findSome?_eq_some hraw
  obtain ⟨b'', hlk, -⟩ := map_eq_some_iff.1 hfnd
  exact ⟨(type', hash), mem_keys.2 (mem_iff.2 ⟨b'', hlk⟩), rfl⟩

theorem blockGet_of_confirmed (h : l.Confirmed hash) : ∃ b, l.blockGet hash = some b := by
  obtain ⟨height, hht, -⟩ := bind_eq_some_iff.1 h
  obtain ⟨b, hget, -⟩ := map_eq_some_iff.1 hht
  exact ⟨b, hget⟩

include H in
theorem Uncemented.cementedClosed (h : Uncemented l L) : l.CementedClosed p := by
  have hb := h.holds.represents.blocks
  refine cementedClosed_of_only ((genesisEntry p).hash p) (fun x hx => ?_) fun b hget => ?_
  · obtain ⟨b, hget⟩ := blockGet_of_confirmed hx
    obtain ⟨y, w, d, hat, rfl⟩ := at_of_blockGet hb hget
    rw [(h.eq_genesis hat ((confirmed_at H hb hat).1 hx)).2.1]
  · obtain rfl := Option.some.inj ((blockGet_at H hb h.genesis_at).symm.trans hget)
    simp [Ledger.dependentBlocks, genesisEntry, Params.genesisBlock]

open Sample

/-- Only blocks of the sample are stored, and of those only the genesis block is cemented. -/
abbrev Sample.GenesisCemented (l : Ledger) : Prop :=
  l.blocks.keys.image (·.2) ⊆ (blocks.map Sample.hash).toFinset ∧
    (∀ b ∈ blocks, l.blockConfirmed (Sample.hash b) = some true → b = params.genesisBlock) ∧
    (l.blockGet (Sample.hash params.genesisBlock)).map
      (Ledger.dependentBlocks params) = some (0, 0)

theorem Sample.GenesisCemented.closed {l : Ledger} (h : GenesisCemented l) :
    l.CementedClosed params := by
  obtain ⟨hkeys, hconf, hgen⟩ := h
  refine cementedClosed_of_only (Sample.hash params.genesisBlock) (fun x hx => ?_)
    fun b hget => ?_
  · obtain ⟨b, hget⟩ := blockGet_of_confirmed hx
    have hmem := hkeys (Finset.mem_image.2 (mem_keys_of_blockGet hget))
    obtain ⟨b', hb', rfl⟩ := List.mem_map.1 (List.mem_toFinset.1 hmem)
    rw [hconf b' hb' hx]
  · rw [hget] at hgen
    exact Option.some.inj hgen

theorem rollback_scope_opens :
    ∃ l, run opens = some l ∧
      Ledger.rollback params 20 l (Sample.hash params.genesisBlock) [] = some (true, l, []) ∧
      ∃ l' removed, Ledger.rollback params 20 l (Sample.hash sendZero) [] =
        some (false, l', removed) ∧ l.blockCount = l'.blockCount + removed.length := by
  obtain ⟨l, hl, hf, hex, hconf, hex', hnot⟩ : ∃ l ∈ run opens,
    l.blocks.keys.card < 20 ∧ l.blockExists (Sample.hash params.genesisBlock) ∧
    l.blockConfirmed (Sample.hash params.genesisBlock) = some true ∧
    l.blockExists (Sample.hash sendZero) ∧
    ¬ l.blockConfirmed (Sample.hash sendZero) = some true := by decide +kernel
  obtain ⟨L, hL⟩ := (reached_of_legacy (by decide +kernel) hl).uncemented hashAssumptions
  have hcl := hL.cementedClosed hashAssumptions
  have hrch : Reached params (· ∈ blocks) (NoForeignEpoch params) l :=
    reached_of_no_epochLink (by decide +kernel) hl
  refine ⟨l, hl, (rollback_scope hashAssumptions hrch hcl hex [] hf).1 hconf, ?_⟩
  obtain ⟨l', removed, hrun, -, -, hcnt, -⟩ :=
    (rollback_scope hashAssumptions hrch hcl hex' [] hf).2 hnot
  exact ⟨l', removed, hrun, hcnt⟩

/-- The epoch block of A stands on the open block of B, and stays when that block is rolled back. -/
theorem rollback_scope_fails :
    ∃ l, Reached params (· ∈ blocks) (fun _ action => action.LedgerCall) l ∧
      l.CementedClosed params ∧ ¬ l.Confirmed (Sample.hash openB) ∧
      l.RestsOn params (Sample.hash epochA) (Sample.hash openB) ∧
      ∃ l' list, Ledger.rollback params 20 l (Sample.hash openB) [] =
        some (false, l', list) ∧ l'.blockExists (Sample.hash epochA) := by
  obtain ⟨l, hl, hgen, hnot, ⟨b, hget, hb⟩, ⟨error, l', list⟩, hrun, rfl, hstays⟩ :
    ∃ l ∈ run straddles, GenesisCemented l ∧
    ¬ l.blockConfirmed (Sample.hash openB) = some true ∧
    (∃ b ∈ l.blockGet (Sample.hash epochA),
      Ledger.dependentBlocks params b = (Sample.hash openB, 0)) ∧
    ∃ r ∈ Ledger.rollback params 20 l (Sample.hash openB) [],
      r.1 = false ∧ r.2.1.blockExists (Sample.hash epochA) := by decide +kernel
  exact ⟨l, reached_of_ledgerCalls (by decide +kernel) hl, hgen.closed, hnot,
    .single ⟨b, hget, by decide +kernel, .inl (congrArg Prod.fst hb)⟩, l', list, hrun, hstays⟩

end Futurehead
