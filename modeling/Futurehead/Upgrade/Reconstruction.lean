import Futurehead.Base.OrderedTable
import Futurehead.Ledger.Structure

/-!
# Frontiers and flags that are reconstructed (`upgrade_v16_to_v17`, `upgrade_v17_to_v18`)

Version 17 stores the hash of the last confirmed block of each account, which is found by a walk along the
chain, from the end that is nearer. Version 18 stores with each state block whether it is a send, a receive
or an epoch block, which is told from balances and links alone.
-/

namespace Futurehead

open List Option

variable {fuel k height : Nat} {hash : BlockHash} {a : Account} {info : AccountInfo}

variable {p : Params} {known : Block → Prop}

/-! ## Confirmed frontiers -/

/-- A database of version 16, with the tables that the upgrade iterates. -/
structure DatabaseV16 where
  store : Ledger
  accounts : OrderedTable Account AccountInfo BitVec.toNat
  confirmationHeight : OrderedTable Account Nat BitVec.toNat

/-- The loop that works up. Its counter is an `int`, which must not overflow. -/
def walkUp (l : Ledger) (confirmationHeight : Nat) : (fuel : Nat) → StoredBlock → Nat → Option StoredBlock
  | 0, _, _ => none
  | fuel + 1, block, height =>
    if height = confirmationHeight then some block
    else (l.blockGet block.sideband.successor).bind fun block =>
      if height + 1 < 2 ^ 31 then walkUp l confirmationHeight fuel block (height + 1) else none

def walkDown (l : Ledger) (confirmationHeight : Nat) :
    (fuel : Nat) → StoredBlock → Nat → Option StoredBlock
  | 0, _, _ => none
  | fuel + 1, block, height =>
    if height = confirmationHeight then some block
    else (l.blockGet block.block.hashables.previous).bind fun block =>
      walkDown l confirmationHeight fuel block (height - 1)

/-- The block at the confirmation height, from the end of the chain that it is closer to. -/
def confirmedBlock (l : Ledger) (info : AccountInfo) (confirmationHeight : Nat) : Option StoredBlock :=
  if confirmationHeight ≤ info.blockCount / 2 then
    (l.blockGet info.openBlock).bind fun block => walkUp l confirmationHeight (2 ^ 31) block 1
  else
    (l.blockGet info.head).bind fun block =>
      walkDown l confirmationHeight (block.sideband.height + 1) block block.sideband.height

def confirmedFrontier (p : Params) (l : Ledger) (info : AccountInfo) (confirmationHeight : Nat) :
    Option ConfirmationHeightInfo :=
  if confirmationHeight = 0 then some ⟨0, 0⟩
  else (confirmedBlock l info confirmationHeight).map fun block => ⟨confirmationHeight, p.hash block.block⟩

/-- `upgrade_v16_to_v17`. The two tables are iterated side by side. -/
def upgradeV16ToV17 (p : Params) (db : DatabaseV16) :
    Option (OrderedTable Account ConfirmationHeightInfo BitVec.toNat) :=
  ((db.confirmationHeight.entries.zip db.accounts.entries).mapM fun x =>
    (confirmedFrontier p db.store x.2.2 x.1.2).map (x.1.1, ·)).map
      (List.foldl OrderedTable.appendOrSkip .empty)

section

variable {l : Ledger} {x y : BlockHash × StoredBlock}

theorem blockGet_of_walk (h : x ∈ l.walk fuel hash) : l.blockGet x.1 = some x.2 := by
  induction fuel generalizing hash with
  | zero => cases h
  | succ fuel ih =>
    unfold Ledger.walk at h
    cases hget : l.blockGet hash with
    | none => rw [hget] at h; cases h
    | some b =>
      rw [hget] at h
      obtain rfl | h := mem_cons.1 h
      · exact hget
      · exact ih h

theorem previous_of_walk {i : Nat} (hx : (l.walk fuel hash)[i]? = some x)
    (hy : (l.walk fuel hash)[i + 1]? = some y) : x.2.block.hashables.previous = y.1 := by
  induction fuel generalizing hash i with
  | zero => cases hx
  | succ fuel ih =>
    unfold Ledger.walk at hx hy
    cases hget : l.blockGet hash with
    | none => rw [hget] at hx; cases hx
    | some b =>
      rw [hget] at hx hy
      simp only [getElem?_cons_succ] at hy
      cases i with
      | succ i => exact ih hx hy
      | zero =>
        cases hx
        cases fuel with
        | zero => cases hy
        | succ fuel =>
          unfold Ledger.walk at hy
          split at hy
          · cases hy
          · cases hy
            rfl

def Ledger.AtHeight (l : Ledger) (info : AccountInfo) (height : Nat) (x : BlockHash × StoredBlock) : Prop :=
  ∃ i, (l.chainOf info)[i]? = some x ∧ height + i = info.blockCount

namespace Ledger.AtHeight

theorem unique (hx : l.AtHeight info height x) (hy : l.AtHeight info height y) : x = y := by
  obtain ⟨i, hi, hht⟩ := hx
  obtain ⟨j, hj, hht'⟩ := hy
  obtain rfl : i = j := by omega
  exact Option.some.inj (hi.symm.trans hj)

theorem blockGet (hx : l.AtHeight info height x) : l.blockGet x.1 = some x.2 := by
  obtain ⟨i, hi, -⟩ := hx
  exact blockGet_of_walk (mem_of_getElem? hi)

theorem previous (hx : l.AtHeight info height x) (hy : l.AtHeight info (height + 1) y) :
    y.2.block.hashables.previous = x.1 := by
  obtain ⟨i, hi, hht⟩ := hx
  obtain ⟨j, hj, hht'⟩ := hy
  obtain rfl : i = j + 1 := by omega
  exact previous_of_walk hj hi

end Ledger.AtHeight

namespace Ledger.ChainAgrees

variable (h : l.ChainAgrees a info)
include h

theorem exists_atHeight (hpos : 0 < height) (hle : height ≤ info.blockCount) :
    ∃ x, l.AtHeight info height x := by
  have hlen := h.length
  have hi : info.blockCount - height < (l.chainOf info).length := by omega
  exact ⟨_, _, getElem?_eq_getElem hi, by omega⟩

theorem successor_atHeight (hx : l.AtHeight info height x) (hy : l.AtHeight info (height + 1) y) :
    x.2.sideband.successor = y.1 := by
  obtain ⟨i, hi, hht⟩ := hx
  obtain ⟨j, hj, hht'⟩ := hy
  obtain rfl : i = j + 1 := by omega
  exact h.successor j y x hj hi

theorem openBlock_eq (hx : l.AtHeight info 1 x) : info.openBlock = x.1 := by
  obtain ⟨i, hi, hht⟩ := hx
  have hfst := h.first
  have hlen := h.length
  rw [getLast?_eq_getElem?, hlen, ← hht, Nat.add_sub_cancel_left, hi] at hfst
  exact (congrArg Prod.fst (Option.some.inj hfst)).symm

theorem head_eq (hx : l.AtHeight info info.blockCount x) :
    info.head = x.1 ∧ x.2.sideband.height = info.blockCount := by
  obtain ⟨i, hi, hht⟩ := hx
  obtain rfl : i = 0 := by omega
  refine ⟨?_, h.height 0 x hi⟩
  unfold chainOf walk at hi
  split at hi
  · cases hi
  · cases hi
    rfl

theorem walkUp_spec (hx : l.AtHeight info height x) (hy : l.AtHeight info k y)
    (hle : height ≤ k) (hk : k < 2 ^ 31) (hfuel : k < height + fuel) :
    walkUp l k fuel x.2 height = some y.2 := by
  induction fuel generalizing height x with
  | zero => omega
  | succ fuel ih =>
    obtain rfl | hlt : height = k ∨ height < k := by omega
    · rw [walkUp, if_pos rfl, hx.unique hy]
    · obtain ⟨_, -, hcnt⟩ := hy
      obtain ⟨z, hz⟩ := h.exists_atHeight (Nat.succ_pos height) (by omega)
      rw [walkUp, if_neg (by omega), h.successor_atHeight hx hz, hz.blockGet, bind_some,
        if_pos (by omega)]
      exact ih hz (by omega) (by omega)

theorem walkDown_spec (hx : l.AtHeight info height x) (hy : l.AtHeight info k y) (hpos : 0 < k)
    (hle : k ≤ height) (hfuel : height < k + fuel) : walkDown l k fuel x.2 height = some y.2 := by
  induction fuel generalizing height x with
  | zero => omega
  | succ fuel ih =>
    obtain rfl | hlt : height = k ∨ k < height := by omega
    · rw [walkDown, if_pos rfl, hx.unique hy]
    · obtain ⟨height, rfl⟩ := Nat.exists_eq_succ_of_ne_zero (show height ≠ 0 by omega)
      obtain ⟨z, hz⟩ := h.exists_atHeight (show 0 < height by omega) (by
        obtain ⟨_, -, hcnt⟩ := hx
        omega)
      rw [walkDown, if_neg (by omega), hz.previous hx, hz.blockGet, bind_some]
      exact ih hz (by omega) (by omega)

end Ledger.ChainAgrees

theorem walkUp_eq_none {b : StoredBlock} (hk : 2 ^ 31 ≤ k) (hlt : height < 2 ^ 31) :
    walkUp l k fuel b height = none := by
  induction fuel generalizing b height with
  | zero => rfl
  | succ fuel ih =>
    rw [walkUp, if_neg (by omega), bind_eq_none_iff]
    intro b' _
    split
    · exact ih ‹_›
    · rfl

/-- The counter of the walk up overflows. -/
def Overflows (info : AccountInfo) (height : Nat) : Prop := 2 ^ 31 ≤ height ∧ height ≤ info.blockCount / 2

theorem confirmedBlock_eq (h : l.ChainAgrees a info) (hpos : 0 < k) (hx : l.AtHeight info k x) :
    (¬ Overflows info k → confirmedBlock l info k = some x.2) ∧
      (Overflows info k → confirmedBlock l info k = none) := by
  have hle : k ≤ info.blockCount := by
    obtain ⟨_, -, hcnt⟩ := hx
    omega
  unfold confirmedBlock Overflows
  split
  · obtain ⟨first, hfst⟩ := h.exists_atHeight (Nat.succ_pos 0) (by omega)
    rw [h.openBlock_eq hfst, hfst.blockGet, bind_some]
    refine ⟨fun hk => h.walkUp_spec hfst hx hpos (by omega) (by omega), fun hk => ?_⟩
    exact walkUp_eq_none hk.1 (by omega)
  · obtain ⟨newest, hnewest⟩ := h.exists_atHeight (show 0 < info.blockCount by omega) le_rfl
    obtain ⟨hhead, hht⟩ := h.head_eq hnewest
    rw [hhead, hnewest.blockGet, bind_some, hht]
    exact ⟨fun _ => h.walkDown_spec hnewest hx hpos hle (by omega), fun hk => absurd hk.2 ‹_›⟩

end

/-- Both tables have the same accounts, the blocks are stored under their hashes, and every account has the
chain that its record says and a confirmation height on it. -/
structure DatabaseV16.WellFormed (p : Params) (db : DatabaseV16) : Prop where
  keys : db.confirmationHeight.entries.map Prod.fst = db.accounts.entries.map Prod.fst
  hash : ∀ hash b, db.store.blockGet hash = some b → p.hash b.block = hash
  chain : ∀ a info, (a, info) ∈ db.accounts.entries → db.store.ChainAgrees a info
  height_le : ∀ a info height, (a, info) ∈ db.accounts.entries →
    (a, height) ∈ db.confirmationHeight.entries → height ≤ info.blockCount

/-- The frontier is the hash of the block at the height, zero for no block. -/
def Ledger.IsFrontier (l : Ledger) (info : AccountInfo) (c : ConfirmationHeightInfo) : Prop :=
  c.height = 0 ∧ c.frontier = 0 ∨ 0 < c.height ∧ ∃ b, l.AtHeight info c.height (c.frontier, b)

theorem confirmedFrontier_spec {l : Ledger}
    (hhash : ∀ hash b, l.blockGet hash = some b → p.hash b.block = hash) (h : l.ChainAgrees a info)
    (hle : k ≤ info.blockCount) :
    ((confirmedFrontier p l info k).isSome ↔ ¬ Overflows info k) ∧
      ∀ c, ¬ Overflows info k →
        (confirmedFrontier p l info k = some c ↔ c.height = k ∧ l.IsFrontier info c) := by
  unfold confirmedFrontier Ledger.IsFrontier
  obtain rfl | hpos := Nat.eq_zero_or_pos k
  · rw [if_pos rfl]
    refine ⟨⟨fun _ hover => absurd hover.1 (by omega), fun _ => rfl⟩, fun c _ => ?_⟩
    obtain ⟨height, frontier⟩ := c
    simp only [Option.some.injEq, ConfirmationHeightInfo.mk.injEq]
    constructor
    · rintro ⟨rfl, rfl⟩
      exact ⟨rfl, .inl ⟨rfl, rfl⟩⟩
    · rintro ⟨rfl, ⟨-, rfl⟩ | ⟨hpos, -⟩⟩
      · exact ⟨rfl, rfl⟩
      · omega
  · rw [if_neg (by omega)]
    obtain ⟨x, hx⟩ := h.exists_atHeight hpos hle
    obtain ⟨hfnd, hnone⟩ := confirmedBlock_eq h hpos hx
    refine ⟨⟨fun hsome hover => ?_, fun hover => ?_⟩, fun c hover => ?_⟩
    · rw [hnone hover] at hsome
      cases hsome
    · rw [hfnd hover]
      rfl
    · rw [hfnd hover, map_some, hhash _ _ hx.blockGet, some_inj]
      constructor
      · rintro rfl
        exact ⟨rfl, .inr ⟨hpos, x.2, hx⟩⟩
      · rintro ⟨rfl, ⟨hzero, -⟩ | ⟨-, b, hb⟩⟩
        · omega
        · rw [hx.unique hb]

theorem frontiers_iff {db : DatabaseV16} (h : db.WellFormed p) :
    (∃ t, upgradeV16ToV17 p db = some t ∧ ∀ a c, (a, c) ∈ t.entries ↔ ∃ info,
      (a, info) ∈ db.accounts.entries ∧ (a, c.height) ∈ db.confirmationHeight.entries ∧
        db.store.IsFrontier info c) ↔
      ∀ a info height, (a, info) ∈ db.accounts.entries → (a, height) ∈ db.confirmationHeight.entries →
        ¬ Overflows info height := by
  have hspec (x : (Account × Nat) × Account × AccountInfo)
      (hx : x ∈ db.confirmationHeight.entries.zip db.accounts.entries) := by
    obtain ⟨hht, hacc, hkey⟩ := (OrderedTable.mem_zip_iff h.keys).1 hx
    exact confirmedFrontier_spec h.hash (h.chain _ _ hacc)
      (h.height_le x.1.1 x.2.2 x.1.2 (hkey ▸ hacc) hht)
  constructor
  · rintro ⟨t, ht, -⟩ a info height hacc hht
    obtain ⟨infos, hinfos, -⟩ := map_eq_some_iff.1 ht
    have hmem := (OrderedTable.mem_zip_iff h.keys).2 ⟨hht, hacc, rfl⟩
    have hsome := (mapM_eq_some_iff.1 hinfos).1 _ hmem
    rw [isSome_map] at hsome
    exact (hspec _ hmem).1.1 hsome
  · intro hover
    have hfits : ∀ x ∈ db.confirmationHeight.entries.zip db.accounts.entries, ¬ Overflows x.2.2 x.1.2 := by
      intro x hx
      obtain ⟨hht, hacc, hkey⟩ := (OrderedTable.mem_zip_iff h.keys).1 hx
      exact hover x.1.1 x.2.2 x.1.2 (hkey ▸ hacc) hht
    have hord : (db.confirmationHeight.entries.zip db.accounts.entries).Pairwise
        fun x y => x.1.1.toNat < y.1.1.toNat := by
      have hlen := congrArg List.length h.keys
      rw [length_map, length_map] at hlen
      have hconf := db.confirmationHeight.ordered
      rw [← map_fst_zip hlen.le, pairwise_map] at hconf
      exact hconf
    obtain ⟨t, happend, hents⟩ := OrderedTable.appendAll_filterMap
      (f := fun x => confirmedFrontier p db.store x.2.2 x.1.2) hord
    refine ⟨t, map_eq_some_iff.2 ⟨_, mapM_eq_some_iff.2 ⟨fun x hx => ?_, rfl⟩,
      OrderedTable.foldl_appendOrSkip happend⟩, fun a c => ?_⟩
    · rw [isSome_map]
      exact (hspec x hx).1.2 (hfits x hx)
    · rw [hents]
      constructor
      · rintro ⟨x, hx, rfl, hc⟩
        obtain ⟨hht, hacc, hkey⟩ := (OrderedTable.mem_zip_iff h.keys).1 hx
        obtain ⟨hc, hfr⟩ := ((hspec x hx).2 c (hfits x hx)).1 hc
        exact ⟨x.2.2, hkey ▸ hacc, hc ▸ hht, hfr⟩
      · rintro ⟨info, hacc, hht, hfr⟩
        have hmem := (OrderedTable.mem_zip_iff h.keys).2 ⟨hht, hacc, rfl⟩
        exact ⟨_, hmem, rfl, ((hspec _ hmem).2 c (hfits _ hmem)).2 ⟨rfl, hfr⟩⟩

/-! ## Flags of state blocks -/

/-- What a state block is, by its balance and its link. -/
def reconstructDetails (p : Params) (epoch : Epoch) (prevBalance balance : Amount) (link : Link) :
    BlockDetails :=
  if balance = prevBalance ∧ p.isEpochLink link then ⟨epoch, false, false, true⟩
  else if balance < prevBalance then ⟨epoch, true, false, false⟩
  else if link ≠ 0 then ⟨epoch, false, true, false⟩
  else ⟨epoch, false, false, false⟩

def StoredBlock.setDetails (details : BlockDetails) (b : StoredBlock) : StoredBlock :=
  ⟨b.block, { b.sideband with details }⟩

/-- A state block with its new sideband. The previous block is not checked to be there. -/
def upgradedBlock (p : Params) (l : Ledger) (b : StoredBlock) : Option StoredBlock :=
  (l.balance b.block.hashables.previous).map fun prevBalance =>
    b.setDetails
      (reconstructDetails p b.sideband.details.epoch prevBalance b.balance b.block.hashables.link)

/-- The block at the cursor is written back. -/
def upgradeSideband (p : Params) (l : Ledger) (hash : BlockHash) : Option Ledger :=
  ((l.blocks.lookup (.state, hash)).bind (upgradedBlock p l)).map fun b =>
    { l with blocks := l.blocks.insert (.state, hash) b }

/-- `upgrade_v17_to_v18`, with the hashes of the state blocks as the cursor goes through them. -/
def upgradeV17ToV18 (p : Params) (hashes : List BlockHash) (l : Ledger) : Option Ledger :=
  hashes.foldlM (upgradeSideband p) l

/-- A block without the flags that version 18 adds. -/
def StoredBlock.withoutFlags (b : StoredBlock) : StoredBlock :=
  b.setDetails { epoch := b.sideband.details.epoch }

/-- Two tables differ in the flags of state blocks only. -/
structure SameUpToFlags (t t' : Table (BlockType × BlockHash) StoredBlock) : Prop where
  block : ∀ k, (t.lookup k).map StoredBlock.withoutFlags = (t'.lookup k).map StoredBlock.withoutFlags
  legacy : ∀ k, k.1 ≠ .state → t.lookup k = t'.lookup k

section

variable (H : HashAssumptions p known) {l : Ledger} {L : Lattice p known} {e : Entry}
  {c : List Entry} {t : Table (BlockType × BlockHash) StoredBlock}

theorem balance_of_sameUpToFlags (h : SameUpToFlags t l.blocks) (hash : BlockHash) :
    ({ l with blocks := t } : Ledger).balance hash = l.balance hash := by
  have hblk (l : Ledger) : l.blockBalance hash =
      [BlockType.state, .send, .receive, BlockType.open, .change].findSome? fun type =>
        ((l.blocks.lookup (type, hash)).map StoredBlock.withoutFlags).map StoredBlock.balance := by
    unfold Ledger.blockBalance Ledger.blockGet Ledger.blockRawGet
    simp only [map_findSome?]
    congr 1
    funext type
    rw [Function.comp_apply, Function.comp_apply]
    cases l.blocks.lookup (type, hash) <;> rfl
  unfold Ledger.balance
  rw [hblk, hblk]
  simp only [h.block]

theorem reconstruct_eq (hat : L.At a e c) (hsta : e.type = .state) :
    reconstructDetails p e.details.epoch (chainBal c) e.balance e.block.hashables.link = e.details := by
  obtain ⟨amount, epoch, hx⟩ := Lattice.extends_at hat
  have hstated := hx.stated
  have hneu := hx.neutral
  rw [hx.details]
  unfold Entry.type at hsta
  unfold Entry.kind at hneu
  cases hh : e.block.hashables with
  | stateBlock account previous rep balance link =>
    rw [hh] at hstated hneu
    obtain rfl := (hstated balance rfl).symm
    unfold reconstructDetails chainDetails Hashables.link
    by_cases hlt : e.balance < chainBal c
    · have hkind : Hashables.kind p (chainBal c)
          (.stateBlock account previous rep e.balance link) = .send link := if_pos hlt
      have hne : e.balance ≠ chainBal c := fun heq => BitVec.lt_irrefl _ (heq ▸ hlt)
      simp [hkind, hlt, hne]
    · by_cases hlink : link = 0 ∨ p.isEpochLink link
      · have hkind : Hashables.kind p (chainBal c)
            (.stateBlock account previous rep e.balance link) = .neutral :=
          (if_neg hlt).trans (if_pos hlink)
        have hbal := hneu hkind
        obtain rfl | hep := hlink
        · have hnone : p.epochInfo 0 = none := epochInfo_eq_none isEpochLink_zero
          simp only [hkind, hnone]
          rw [if_neg (fun hep => Bool.false_ne_true hep.2), if_neg hlt, if_neg (not_not.2 rfl)]
        · obtain ⟨info, hinfo⟩ := exists_epochInfo hep
          simp only [hkind, hinfo]
          exact if_pos ⟨hbal, hep⟩
      · have hkind : Hashables.kind p (chainBal c)
            (.stateBlock account previous rep e.balance link) = .receive link :=
          (if_neg hlt).trans (if_neg hlink)
        obtain ⟨hzero, hep⟩ := not_or.1 hlink
        simp only [hkind]
        rw [if_neg (fun hboth => hep hboth.2), if_neg hlt, if_pos hzero]
  | _ => rw [hh] at hsta; cases hsta

theorem StoredBlock.of_withoutFlags {b b' : StoredBlock} (h : b.withoutFlags = b'.withoutFlags) :
    b.block = b'.block ∧ b.sideband.details.epoch = b'.sideband.details.epoch ∧ b.balance = b'.balance ∧
      b.setDetails b'.sideband.details = b' := by
  have hbal : b.withoutFlags.balance = b'.withoutFlags.balance := congrArg StoredBlock.balance h
  obtain ⟨block, successor, account, balance, height, details⟩ := b
  obtain ⟨block', successor', account', balance', height', details'⟩ := b'
  simp only [withoutFlags, setDetails, StoredBlock.mk.injEq, Sideband.mk.injEq, BlockDetails.mk.injEq] at h
  obtain ⟨rfl, rfl, rfl, rfl, rfl, hep, -⟩ := h
  exact ⟨rfl, hep, hbal, rfl⟩

include H

theorem upgradeSideband_spec (hb : BlocksRep p l.blocks L.chain) (h : SameUpToFlags t l.blocks)
    (hhash : (BlockType.state, hash) ∈ l.blocks) :
    ∃ stored, l.blocks.lookup (.state, hash) = some stored ∧
      upgradeSideband p { l with blocks := t } hash =
        some { l with blocks := t.insert (.state, hash) stored } := by
  obtain ⟨_, hst⟩ := Finmap.mem_iff.1 hhash
  obtain ⟨a, e, c, hat, hkey⟩ := hb.only hst
  obtain ⟨htype, rfl⟩ := Prod.mk.inj hkey
  obtain ⟨amount, epoch, hx⟩ := Lattice.extends_at hat
  have hlk := hb.stored hat
  rw [← hkey] at hlk
  refine ⟨_, hlk, ?_⟩
  have hsame := h.block (.state, e.hash p)
  rw [hlk, map_some] at hsame
  obtain ⟨b, hlk', hsame⟩ := map_eq_some_iff.1 hsame
  obtain ⟨hblk, hep, hbal, hst⟩ := StoredBlock.of_withoutFlags hsame
  rw [hx.stored_details] at hep hst
  have hprv : ({ l with blocks := t } : Ledger).balance b.block.hashables.previous =
      some (chainBal c) := by
    rw [balance_of_sameUpToFlags h, hblk, Entry.stored_block, hx.previous]
    exact balance_below H hb hat
  refine map_eq_some_iff.2 ⟨_, bind_eq_some_iff.2
    ⟨b, hlk', map_eq_some_iff.2 ⟨_, hprv, ?_⟩⟩, rfl⟩
  rw [hep, hbal, hx.stored_balance, congrArg (·.hashables.link) hblk, Entry.stored_block,
    reconstruct_eq hat htype.symm]
  exact hst

theorem upgradeV17ToV18_spec (hb : BlocksRep p l.blocks L.chain) {hashes : List BlockHash}
    (hhs : ∀ hash ∈ hashes, (BlockType.state, hash) ∈ l.blocks) (h : SameUpToFlags t l.blocks) :
    ∃ t', upgradeV17ToV18 p hashes { l with blocks := t } = some { l with blocks := t' } ∧
      SameUpToFlags t' l.blocks ∧
      ∀ k, t.lookup k = l.blocks.lookup k ∨ k.1 = .state ∧ k.2 ∈ hashes → t'.lookup k = l.blocks.lookup k := by
  induction hashes generalizing t with
  | nil => exact ⟨t, rfl, h, fun k hk => hk.elim id fun hk => by cases hk.2⟩
  | cons hash hashes ih =>
    obtain ⟨hhash, hhs⟩ := forall_mem_cons.1 hhs
    obtain ⟨stored, hst, hstep⟩ := upgradeSideband_spec H hb h hhash
    have hlk (k : BlockType × BlockHash) : (t.insert (.state, hash) stored).lookup k =
        if k = (.state, hash) then l.blocks.lookup k else t.lookup k := by
      rw [Finmap.lookup_insert_eq]
      split
      · rename_i hk
        rw [hk, hst]
      · rfl
    obtain ⟨t', hrun, hsame, hwritten⟩ := @ih (t.insert (.state, hash) stored) hhs
      ⟨fun k => by
        rw [hlk]
        split
        · rfl
        · exact h.block k,
      fun k hk => by
        rw [hlk]
        split
        · rfl
        · exact h.legacy k hk⟩
    refine ⟨t', ?_, hsame, fun k hk => hwritten k ?_⟩
    · unfold upgradeV17ToV18
      rw [foldlM_cons, hstep]
      exact hrun
    · rw [hlk]
      by_cases hkey : k = (.state, hash)
      · exact .inl (if_pos hkey)
      · rw [if_neg hkey]
        refine hk.imp id fun ⟨htype, hmem⟩ => ⟨htype, (mem_cons.1 hmem).resolve_left fun heq => ?_⟩
        exact hkey (Prod.ext htype heq)

end

/-- `upgrade_v16_to_v17` stores the block at the confirmation height of each account, exactly if no counter
overflows. `upgrade_v17_to_v18` restores what the ledger wrote, if it processed no foreign epoch block. -/
theorem upgrades_reconstruct (H : HashAssumptions p known) :
    (∀ db : DatabaseV16, db.WellFormed p →
      ((∃ t, upgradeV16ToV17 p db = some t ∧ ∀ a c, (a, c) ∈ t.entries ↔ ∃ info,
        (a, info) ∈ db.accounts.entries ∧ (a, c.height) ∈ db.confirmationHeight.entries ∧
          db.store.IsFrontier info c) ↔
        ∀ a info height, (a, info) ∈ db.accounts.entries → (a, height) ∈ db.confirmationHeight.entries →
          ¬ Overflows info height)) ∧
    ∀ l, Reached p known (NoForeignEpoch p) l → ∀ hashes : List BlockHash,
      (∀ hash, hash ∈ hashes ↔ (BlockType.state, hash) ∈ l.blocks) →
      ∀ blocks, SameUpToFlags blocks l.blocks → upgradeV17ToV18 p hashes { l with blocks } = some l := by
  refine ⟨fun db h => frontiers_iff h, fun l hl hashes hhs blocks hsame => ?_⟩
  obtain ⟨L, hL⟩ := hl.holds H
  obtain ⟨t, hrun, hsame', hwritten⟩ := upgradeV17ToV18_spec H hL.represents.blocks
    (fun hash => (hhs hash).1) hsame
  obtain rfl : t = l.blocks := by
    refine Finmap.ext_lookup fun k => ?_
    by_cases hk : k.1 = .state
    · by_cases hmem : k ∈ l.blocks
      · exact hwritten k (.inr ⟨hk, (hhs k.2).2 (by rwa [← hk])⟩)
      · have hnone := hsame'.block k
        rw [Finmap.lookup_eq_none.2 hmem] at hnone ⊢
        exact map_eq_none_iff.1 hnone
    · exact hsame'.legacy k hk
  exact hrun

open Sample

/-- The frontier of B at height 1 is found, and the flags of the block that B receives with are
restored. -/
theorem upgrades_reconstruct_receives :
    ∃ l info stored, run receives = some l ∧ l.accountGet accountB = some info ∧
      (∃ t, upgradeV16ToV17 params ⟨l, ⟨[(accountB, info)], pairwise_singleton _ _⟩,
        ⟨[(accountB, 1)], pairwise_singleton _ _⟩⟩ = some t ∧
        (accountB, ⟨1, Sample.hash openB⟩) ∈ t.entries) ∧
      l.blocks.lookup (.state, Sample.hash receiveB) = some stored ∧
      stored.sideband.details.isReceive ∧
      upgradeV17ToV18 params [Sample.hash receiveB] { l with
        blocks := l.blocks.insert (.state, Sample.hash receiveB) stored.withoutFlags } = some l := by
  obtain ⟨l, hl, hkeys, info, hinfo, hcnt, ⟨first, hfst⟩, stored, hst, hrcv⟩ :
    ∃ l ∈ run receives,
    l.blocks.keys.filter (·.1 = BlockType.state) = {(BlockType.state, Sample.hash receiveB)} ∧
    ∃ info ∈ l.accountGet accountB, info.blockCount = 2 ∧
    (∃ first ∈ (l.chainOf info)[1]?, first.1 = Sample.hash openB) ∧
    ∃ stored ∈ l.blocks.lookup (BlockType.state, Sample.hash receiveB),
      stored.sideband.details.isReceive := by decide +kernel
  have hrch : Reached params (· ∈ Sample.blocks) (NoForeignEpoch params) l :=
    reached_of_no_epochLink (by decide +kernel) hl
  obtain ⟨hfrs, hflags⟩ := upgrades_reconstruct hashAssumptions
  refine ⟨l, info, stored, hl, hinfo, ?_, hst, hrcv, hflags l hrch _ (fun hash => ?_) _
    ⟨fun k => ?_, fun k hk => ?_⟩⟩
  · obtain ⟨L, hL⟩ := hrch.holds hashAssumptions
    have hwf : DatabaseV16.WellFormed params ⟨l, ⟨[(accountB, info)], pairwise_singleton _ _⟩,
        ⟨[(accountB, 1)], pairwise_singleton _ _⟩⟩ := by
      refine ⟨rfl, fun hash b hget => ?_, fun a i hmem => ?_, fun a i height hmem hht => ?_⟩
      · obtain ⟨y, e, c, hat, rfl⟩ := at_of_blockGet hL.represents.blocks hget
        rw [blockGet_at hashAssumptions hL.represents.blocks hat] at hget
        rw [← Option.some.inj hget, Entry.stored_block]
        rfl
      · obtain ⟨rfl, rfl⟩ := Prod.mk.inj (mem_singleton.1 hmem)
        exact (hL.represents.chainStructure hashAssumptions).agrees _ _ hinfo
      · obtain ⟨rfl, rfl⟩ := Prod.mk.inj (mem_singleton.1 hmem)
        obtain ⟨-, rfl⟩ := Prod.mk.inj (mem_singleton.1 hht)
        omega
    obtain ⟨t, ht, hents⟩ := (hfrs _ hwf).2 fun a i height _ hht hover => by
      obtain ⟨-, rfl⟩ := Prod.mk.inj (mem_singleton.1 hht)
      exact absurd hover.1 (by decide)
    refine ⟨t, ht, (hents _ _).2 ⟨info, mem_singleton_self _, mem_singleton_self _,
      .inr ⟨Nat.one_pos, first.2, 1, ?_, hcnt.symm⟩⟩⟩
    rw [← hfst.2]
    exact hfst.1
  · have hmem := congrArg ((BlockType.state, hash) ∈ ·) hkeys
    simpa [Finmap.mem_keys, eq_comm] using hmem
  · rw [Finmap.lookup_insert_eq]
    split
    · rename_i hk
      rw [hk, hst]
      rfl
    · rfl
  · rw [Finmap.lookup_insert_eq, if_neg (fun heq => hk (congrArg Prod.fst heq))]

/-- The previous block of the only state block was rolled back. -/
theorem upgrade_misses_previous :
    ∃ l, Reached params (· ∈ Sample.blocks) (fun _ action => action.LedgerCall) l ∧
      l.blocks.keys.filter (·.1 = BlockType.state) = {(BlockType.state, Sample.hash epochA)} ∧
      upgradeV17ToV18 params [Sample.hash epochA] l = none := by
  obtain ⟨l, hl, hkeys, hnone⟩ : ∃ l ∈ run (straddles ++ [take openB]),
    l.blocks.keys.filter (·.1 = BlockType.state) = {(BlockType.state, Sample.hash epochA)} ∧
    (upgradeV17ToV18 params [Sample.hash epochA] l).isNone := by decide +kernel
  exact ⟨l, reached_of_ledgerCalls (by decide +kernel) hl, hkeys, isNone_iff_eq_none.1 hnone⟩

end Futurehead
