import Futurehead.Base.OrderedTable
import Futurehead.Upgrade.BlockEntries

/-!
# The merge of epochs (`upgrade_v14_to_v15`)

A database of version 14 has two tables for accounts, for state blocks and for pending entries: one for
epoch 0 and one for epoch 1. Version 15 has one of each, and the epoch in every entry. The upgrade goes
through both tables with a merge iterator and appends what it finds. The confirmation heights get a table
of their own, and an account has its representative instead of a block that names it.
-/

namespace Futurehead

open Wire List Option

/-! ## Version 14 -/

/-- `account_info_v14`. -/
structure AccountInfoV14 extends AccountInfoV13 where
  confirmationHeight : BitVec 64 := 0

def AccountInfoV14.bytes (info : AccountInfoV14) : Bytes :=
  info.toAccountInfoV13.bytes ++ u64.write info.confirmationHeight

/-- `pending_info_v14`, without its epoch, which is not stored. -/
structure PendingInfoV14 where
  source : Account
  amount : Amount

def PendingInfoV14.bytes (info : PendingInfoV14) : Bytes := u256.write info.source ++ u128.write info.amount

/-- The number that the bytes of a key make. -/
def PendingKey.rank (key : PendingKey) : Nat := key.account.toNat * 2 ^ 256 + key.hash.toNat

abbrev OrderedAccounts (V : Type) := OrderedTable Account V BitVec.toNat

abbrev OrderedPending (V : Type) := OrderedTable PendingKey V PendingKey.rank

structure DatabaseV14 where
  accountsV0 : OrderedAccounts AccountInfoV14
  accountsV1 : OrderedAccounts AccountInfoV14
  stateBlocksV0 : OrderedTable BlockHash Bytes BitVec.toNat
  stateBlocksV1 : OrderedTable BlockHash Bytes BitVec.toNat
  pendingV0 : OrderedPending PendingInfoV14
  pendingV1 : OrderedPending PendingInfoV14
  legacyBlocks : Table (BlockType × BlockHash) Bytes
  confirmationHeight : OrderedAccounts (BitVec 64)

/-- `account_info` of version 15. -/
structure AccountInfoV15 where
  head : BlockHash
  representative : Account
  openBlock : BlockHash
  balance : Amount
  modified : BitVec 64
  blockCount : BitVec 64
  epoch : Epoch

structure DatabaseV15 where
  accounts : OrderedAccounts AccountInfoV15
  stateBlocks : OrderedTable BlockHash Bytes BitVec.toNat
  pending : OrderedPending PendingInfo
  confirmationHeight : OrderedAccounts (BitVec 64)

/-! ## The upgrade -/

/-- The loop over `mdb_merge_iterator`: the entries of two tables, with the epoch of their table. -/
def mergeTables {K V : Type} {rank : K → Nat} (bytes : V → Bytes) (t0 t1 : OrderedTable K V rank) :
    List (K × V × Epoch) :=
  let it : MergeIterator K V := ⟨t0.entries, t1.entries⟩
  (it.visits rank (fun x y => bytes x < bytes y) (t0.entries.length + t1.entries.length)).map
    fun (x, fromFirstDatabase) => (x.1, x.2, if fromFirstDatabase then .epoch0 else .epoch1)

namespace DatabaseV14

variable (db : DatabaseV14)

/-- `block_get_v14`. -/
def blockGetV14 (hash : BlockHash) : Option Block := do
  let (type, value) ←
    (((db.stateBlocksV1.find? hash).or (db.stateBlocksV0.find? hash)).map (BlockType.state, ·)).or
      ([BlockType.send, .receive, BlockType.open, .change].findSome? fun type =>
        (db.legacyBlocks.lookup (type, hash)).map (type, ·))
  let (block, _) ← readBlock type value
  return block

/-- Upgrade rep block to representative account. There has to be one. -/
def upgradeAccount (info : AccountInfoV14) (epoch : Epoch) : Option AccountInfoV15 := do
  let repBlock ← db.blockGetV14 info.repBlock
  return ⟨info.head, repBlock.hashables.representative, info.openBlock, info.balance, info.modified,
    info.blockCount, epoch⟩

end DatabaseV14

/-- The entry of a state block with the latest sideband. -/
def upgradeStateBlock (value : Bytes) (epoch : Epoch) : Option Bytes := do
  let (block, rest) ← readBlock .state value
  let (sideband, _) ← ({} : SidebandV14).deserialize .state rest
  return block.serialize ++ (⟨sideband, { epoch }⟩ : BlockSideband).serialize .state

/-- The values of the entries that a loop visits, each as it is in the new table. -/
def upgradeEntries {K V W : Type} (upgrade : V → Epoch → Option W) (entries : List (K × V × Epoch)) :
    Option (List (K × W)) :=
  entries.mapM fun (key, value, epoch) => (upgrade value epoch).map (key, ·)

/-- `upgrade_v14_to_v15`. Only for state blocks it is checked that they could be appended. -/
def upgradeV14ToV15 (db : DatabaseV14) : Option DatabaseV15 := do
  let accounts := mergeTables AccountInfoV14.bytes db.accountsV0 db.accountsV1
  let accountInfos ← upgradeEntries db.upgradeAccount accounts
  -- Move confirmation height from account_info database to its own table
  let heights ← upgradeEntries (fun info _ => some info.confirmationHeight) accounts
  let stateBlocks ← upgradeEntries upgradeStateBlock (mergeTables id db.stateBlocksV0 db.stateBlocksV1)
  let stateBlocks ← stateBlocks.foldlM OrderedTable.append .empty
  let pendingInfos ← upgradeEntries (fun info epoch => some ⟨info.source, info.amount, epoch⟩)
    (mergeTables PendingInfoV14.bytes db.pendingV0 db.pendingV1)
  return {
    accounts := accountInfos.foldl OrderedTable.appendOrSkip .empty
    stateBlocks
    pending := pendingInfos.foldl OrderedTable.appendOrSkip .empty
    confirmationHeight := heights.foldl OrderedTable.appendOrSkip db.confirmationHeight }

/-! ## Merged tables -/

section

variable {K V W : Type} {rank : K → Nat} {t0 t1 : OrderedTable K V rank}

/-- A table with the entries of two others, each with the epoch of its table. -/
def Union (t0 t1 : OrderedTable K V rank) (upgraded : V → Epoch → W → Prop) (t : OrderedTable K W rank) :
    Prop :=
  ∀ key new, (key, new) ∈ t.entries ↔
    (∃ old, (key, old) ∈ t0.entries ∧ upgraded old .epoch0 new) ∨
      ∃ old, (key, old) ∈ t1.entries ∧ upgraded old .epoch1 new

def Separate (t0 t1 : OrderedTable K V rank) : Prop :=
  ∀ x ∈ t0.entries, ∀ y ∈ t1.entries, rank x.1 ≠ rank y.1

theorem mergeTables_spec (bytes : V → Bytes) (h : Separate t0 t1) :
    (∀ key value epoch, (key, value, epoch) ∈ mergeTables bytes t0 t1 ↔
      epoch = .epoch0 ∧ (key, value) ∈ t0.entries ∨ epoch = .epoch1 ∧ (key, value) ∈ t1.entries) ∧
      (mergeTables bytes t0 t1).Pairwise fun x y => rank x.1 < rank y.1 := by
  have hdisj : MergeIterator.Disjoint rank ⟨t0.entries, t1.entries⟩ := ⟨t0.ordered, t1.ordered, h⟩
  obtain ⟨hmem, hord⟩ :=
    @MergeIterator.visits_spec _ _ _ (fun x y => bytes x < bytes y) _ _ hdisj le_rfl
  refine ⟨fun key value epoch => ?_, pairwise_map.2 hord⟩
  simp only [mergeTables, List.mem_map, hmem, MergeIterator.Has]
  constructor
  · rintro ⟨⟨x, first⟩, ⟨rfl, hx⟩ | ⟨rfl, hx⟩, heq⟩
    · cases heq
      exact .inl ⟨rfl, hx⟩
    · cases heq
      exact .inr ⟨rfl, hx⟩
  · rintro (⟨rfl, hx⟩ | ⟨rfl, hx⟩)
    · exact ⟨((key, value), true), .inl ⟨rfl, hx⟩, rfl⟩
    · exact ⟨((key, value), false), .inr ⟨rfl, hx⟩, rfl⟩

variable {upgrade : V → Epoch → Option W} {entries : List (K × V × Epoch)}

theorem upgradeEntries_eq (h : ∀ x ∈ entries, (upgrade x.2.1 x.2.2).isSome) :
    upgradeEntries upgrade entries =
      some (entries.filterMap fun x => (upgrade x.2.1 x.2.2).map (x.1, ·)) :=
  mapM_eq_some_iff.2 ⟨fun x hx => by rw [isSome_map]; exact h x hx, rfl⟩

theorem union_upgradeEntries (bytes : V → Bytes) (upgrade : V → Epoch → Option W)
    (upgraded : V → Epoch → W → Prop) (hseparate : Separate t0 t1)
    (hsome : ∀ x ∈ t0.entries ++ t1.entries, ∀ epoch, (upgrade x.2 epoch).isSome)
    (hiff : ∀ x ∈ t0.entries ++ t1.entries, ∀ epoch new,
      upgrade x.2 epoch = some new ↔ upgraded x.2 epoch new) :
    ∃ news t, upgradeEntries upgrade (mergeTables bytes t0 t1) = some news ∧
      news.foldlM OrderedTable.append (.empty : OrderedTable K W rank) = some t ∧
      Union t0 t1 upgraded t := by
  obtain ⟨hmem, hord⟩ := mergeTables_spec bytes hseparate
  have hboth : ∀ x ∈ mergeTables bytes t0 t1, (x.1, x.2.1) ∈ t0.entries ++ t1.entries := by
    intro x hx
    exact mem_append.2 (((hmem _ _ _).1 hx).imp And.right And.right)
  obtain ⟨t, happend, hents⟩ := OrderedTable.appendAll_filterMap hord
  refine ⟨_, t, upgradeEntries_eq fun x hx => hsome _ (hboth x hx) x.2.2, happend, fun key new => ?_⟩
  rw [hents]
  constructor
  · rintro ⟨⟨key, old, epoch⟩, hx, rfl, hnew⟩
    have hnew := (hiff _ (hboth _ hx) _ _).1 hnew
    obtain ⟨rfl, hold⟩ | ⟨rfl, hold⟩ := (hmem _ _ _).1 hx
    · exact .inl ⟨old, hold, hnew⟩
    · exact .inr ⟨old, hold, hnew⟩
  · rintro (⟨old, hold, hnew⟩ | ⟨old, hold, hnew⟩)
    · exact ⟨(key, old, .epoch0), (hmem _ _ _).2 (.inl ⟨rfl, hold⟩), rfl,
        (hiff _ (mem_append_left _ hold) _ _).2 hnew⟩
    · exact ⟨(key, old, .epoch1), (hmem _ _ _).2 (.inr ⟨rfl, hold⟩), rfl,
        (hiff _ (mem_append_right _ hold) _ _).2 hnew⟩

end

/-! ## The upgraded database -/

/-- A state block and its sideband, as version 14 stores them. -/
def StoredV14 (value : Bytes) (block : Block) (sideband : SidebandV14) : Prop :=
  block.hashables.type = .state ∧ value = block.serialize ++ sideband.serialize .state

/-- A database of version 14: the representative blocks and the state blocks can be read, no key is in the
tables of both epochs, and no confirmation height has its own entry. -/
structure DatabaseV14.WellFormed (db : DatabaseV14) : Prop where
  accounts : Separate db.accountsV0 db.accountsV1
  stateBlocks : Separate db.stateBlocksV0 db.stateBlocksV1
  pending : Separate db.pendingV0 db.pendingV1
  repBlock : ∀ x ∈ db.accountsV0.entries ++ db.accountsV1.entries, (db.blockGetV14 x.2.repBlock).isSome
  stored : ∀ x ∈ db.stateBlocksV0.entries ++ db.stateBlocksV1.entries,
    ∃ block sideband, StoredV14 x.2 block sideband
  confirmationHeight : db.confirmationHeight = .empty

/-- The account has the representative of its representative block, and its other fields. -/
def DatabaseV14.AccountUpgraded (db : DatabaseV14) (old : AccountInfoV14) (epoch : Epoch)
    (new : AccountInfoV15) : Prop :=
  ∃ repBlock, db.blockGetV14 old.repBlock = some repBlock ∧
    new = ⟨old.head, repBlock.hashables.representative, old.openBlock, old.balance, old.modified,
      old.blockCount, epoch⟩

/-- The block and its sideband are the same, and the sideband has the epoch. -/
def StateBlockUpgraded (old : Bytes) (epoch : Epoch) (new : Bytes) : Prop :=
  ∃ block sideband, StoredV14 old block sideband ∧
    new = block.serialize ++ (⟨sideband, { epoch }⟩ : BlockSideband).serialize .state

theorem DatabaseV14.upgradeAccount_iff {db : DatabaseV14} {old : AccountInfoV14} {epoch : Epoch}
    {new : AccountInfoV15} : db.upgradeAccount old epoch = some new ↔ db.AccountUpgraded old epoch new := by
  constructor
  · intro h
    obtain ⟨repBlock, hrep, hnew⟩ := bind_eq_some_iff.1 h
    exact ⟨repBlock, hrep, (Option.some.inj hnew).symm⟩
  · rintro ⟨repBlock, hrep, rfl⟩
    exact bind_eq_some_iff.2 ⟨repBlock, hrep, rfl⟩

theorem upgradeStateBlock_eq {value : Bytes} {block : Block} {sideband : SidebandV14} (epoch : Epoch)
    (h : StoredV14 value block sideband) :
    upgradeStateBlock value epoch =
      some (block.serialize ++ (⟨sideband, { epoch }⟩ : BlockSideband).serialize .state) := by
  obtain ⟨htype, rfl⟩ := h
  have hread := readBlock_serialize block (sideband.serialize .state)
  rw [htype] at hread
  have hsideband := @SidebandV14.deserialize_serialize .state {} sideband
  refine bind_eq_some_iff.2 ⟨_, hread, bind_eq_some_iff.2 ⟨_, hsideband, ?_⟩⟩
  rfl

theorem upgradeStateBlock_iff {old new : Bytes} {epoch : Epoch}
    (h : ∃ block sideband, StoredV14 old block sideband) :
    upgradeStateBlock old epoch = some new ↔ StateBlockUpgraded old epoch new := by
  constructor
  · intro hnew
    obtain ⟨block, sideband, hst⟩ := h
    rw [upgradeStateBlock_eq epoch hst] at hnew
    exact ⟨block, sideband, hst, (Option.some.inj hnew).symm⟩
  · rintro ⟨block, sideband, hst, rfl⟩
    exact upgradeStateBlock_eq epoch hst

/-- The four tables that the upgrade writes are unions of the tables of both epochs. -/
theorem upgrade_merges (db : DatabaseV14) (h : db.WellFormed) :
    ∃ db', upgradeV14ToV15 db = some db' ∧
      Union db.accountsV0 db.accountsV1 db.AccountUpgraded db'.accounts ∧
      Union db.stateBlocksV0 db.stateBlocksV1 StateBlockUpgraded db'.stateBlocks ∧
      Union db.pendingV0 db.pendingV1 (fun old epoch new => new = ⟨old.source, old.amount, epoch⟩)
        db'.pending ∧
      Union db.accountsV0 db.accountsV1 (fun old _ new => new = old.confirmationHeight)
        db'.confirmationHeight := by
  have hrep : ∀ x ∈ db.accountsV0.entries ++ db.accountsV1.entries, ∀ epoch,
      (db.upgradeAccount x.2 epoch).isSome := by
    intro x hx epoch
    obtain ⟨repBlock, hrep⟩ := isSome_iff_exists.1 (h.repBlock x hx)
    exact isSome_iff_exists.2 ⟨_, DatabaseV14.upgradeAccount_iff.2 ⟨repBlock, hrep, rfl⟩⟩
  have hread : ∀ x ∈ db.stateBlocksV0.entries ++ db.stateBlocksV1.entries, ∀ epoch,
      (upgradeStateBlock x.2 epoch).isSome := by
    intro x hx epoch
    obtain ⟨block, sideband, hst⟩ := h.stored x hx
    rw [upgradeStateBlock_eq epoch hst]
    rfl
  obtain ⟨infos, accounts, hinfos, haccs, hunion⟩ := union_upgradeEntries
    AccountInfoV14.bytes _ _ h.accounts hrep fun _ _ _ _ => DatabaseV14.upgradeAccount_iff
  obtain ⟨entries, stateBlocks, hents, hstate, hunionState⟩ := union_upgradeEntries
    id _ _ h.stateBlocks hread fun x hx _ _ => upgradeStateBlock_iff (h.stored x hx)
  obtain ⟨pendings, pending, hpendings, hpnd, hunionPending⟩ := union_upgradeEntries
    PendingInfoV14.bytes (fun info epoch => some (⟨info.source, info.amount, epoch⟩ : PendingInfo))
    (fun old epoch new => new = ⟨old.source, old.amount, epoch⟩) h.pending
    (fun _ _ _ => rfl) (fun _ _ _ _ => some_inj.trans eq_comm)
  obtain ⟨heights, confirmationHeight, hheights, hconf, hunionHeights⟩ := union_upgradeEntries
    AccountInfoV14.bytes (fun info _ => some info.confirmationHeight)
    (fun old _ new => new = old.confirmationHeight) h.accounts
    (fun _ _ _ => rfl) (fun _ _ _ _ => some_inj.trans eq_comm)
  refine ⟨⟨accounts, stateBlocks, pending, confirmationHeight⟩, ?_, hunion, hunionState, hunionPending,
    hunionHeights⟩
  simp [upgradeV14ToV15, hinfos, hheights, hents, hstate, hpendings, h.confirmationHeight,
    OrderedTable.foldl_appendOrSkip haccs, OrderedTable.foldl_appendOrSkip hconf,
    OrderedTable.foldl_appendOrSkip hpnd]

namespace Sample

def repBlockV14 : Block := ⟨.stateBlock 1 0 7 5 0, 0, 0⟩

def storedV14 : Bytes := repBlockV14.serialize ++ ({} : SidebandV14).serialize .state

/-- An account, a state block and a pending entry of each epoch. The representative block of both
accounts is of epoch 0. -/
def databaseV14 : DatabaseV14 where
  accountsV0 := ⟨[(2, { repBlock := 9, confirmationHeight := 4 })], pairwise_singleton _ _⟩
  accountsV1 := ⟨[(1, { repBlock := 9, confirmationHeight := 3 })], pairwise_singleton _ _⟩
  stateBlocksV0 := ⟨[(9, storedV14)], pairwise_singleton _ _⟩
  stateBlocksV1 := ⟨[(10, storedV14)], pairwise_singleton _ _⟩
  pendingV0 := ⟨[(⟨2, 9⟩, ⟨1, 5⟩)], pairwise_singleton _ _⟩
  pendingV1 := ⟨[(⟨1, 10⟩, ⟨2, 6⟩)], pairwise_singleton _ _⟩
  legacyBlocks := ∅
  confirmationHeight := .empty

theorem blockGetV14_databaseV14 : databaseV14.blockGetV14 9 = some repBlockV14 := by
  have hread : readBlock .state storedV14 = _ :=
    readBlock_serialize repBlockV14 (({} : SidebandV14).serialize .state)
  have hfind : databaseV14.stateBlocksV0.find? 9 = some storedV14 := by
    simp [databaseV14, OrderedTable.find?]
  have hnone : databaseV14.stateBlocksV1.find? 9 = none := by
    simp [databaseV14, OrderedTable.find?]
  rw [DatabaseV14.blockGetV14, hfind, hnone]
  exact bind_eq_some_iff.2 ⟨(.state, storedV14), rfl, bind_eq_some_iff.2 ⟨_, hread, rfl⟩⟩

theorem wellFormed_databaseV14 : databaseV14.WellFormed where
  accounts x hx y hy := by
    rw [mem_singleton.1 hx, mem_singleton.1 hy]
    decide
  stateBlocks x hx y hy := by
    rw [mem_singleton.1 hx, mem_singleton.1 hy]
    decide
  pending x hx y hy := by
    rw [mem_singleton.1 hx, mem_singleton.1 hy]
    decide
  repBlock x hx := by
    have hrep : x.2.repBlock = 9 := by
      rcases mem_cons.1 hx with rfl | hx
      · rfl
      · rw [mem_singleton.1 hx]
    rw [hrep, blockGetV14_databaseV14]
    rfl
  stored x hx := by
    have hval : x.2 = storedV14 := by
      rcases mem_cons.1 hx with rfl | hx
      · rfl
      · rw [mem_singleton.1 hx]
    exact ⟨repBlockV14, {}, rfl, hval⟩
  confirmationHeight := rfl

end Sample

/-- The accounts of both epochs are in the table, each with its epoch. -/
theorem upgrade_merges_account :
    ∃ db', upgradeV14ToV15 Sample.databaseV14 = some db' ∧
      (2, ⟨0, 7, 0, 0, 0, 0, .epoch0⟩) ∈ db'.accounts.entries ∧
      (1, ⟨0, 7, 0, 0, 0, 0, .epoch1⟩) ∈ db'.accounts.entries ∧
      (⟨2, 9⟩, ⟨1, 5, .epoch0⟩) ∈ db'.pending.entries ∧
      (⟨1, 10⟩, ⟨2, 6, .epoch1⟩) ∈ db'.pending.entries ∧ (1, 3) ∈ db'.confirmationHeight.entries := by
  obtain ⟨db', hdb', haccs, -, hpnd, hheights⟩ :=
    upgrade_merges Sample.databaseV14 Sample.wellFormed_databaseV14
  have hrep := Sample.blockGetV14_databaseV14
  exact ⟨db', hdb', (haccs _ _).2 (.inl ⟨_, mem_singleton_self _, Sample.repBlockV14, hrep, rfl⟩),
    (haccs _ _).2 (.inr ⟨_, mem_singleton_self _, Sample.repBlockV14, hrep, rfl⟩),
    (hpnd _ _).2 (.inl ⟨_, mem_singleton_self _, rfl⟩),
    (hpnd _ _).2 (.inr ⟨_, mem_singleton_self _, rfl⟩),
    (hheights _ _).2 (.inr ⟨_, mem_singleton_self _, rfl⟩)⟩

end Futurehead
