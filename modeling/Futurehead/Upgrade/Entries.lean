import Futurehead.Base.MergeJoin
import Futurehead.Ledger.Summation
import Futurehead.Wire.Block

/-!
# Block entries of a version 12 database (`futurehead/node/lmdb`, `futurehead/secure/versioning`)

In a database of version 12 an entry of a block table is the block and the hash of its successor.
Version 13 puts a sideband after the block. While a database is upgraded it has entries of both
kinds, and the readers tell them apart by their size.

A function that dereferences a null block or reads outside an entry has no result (`none`).
-/

namespace Futurehead

open Wire List Option

variable {account : Account} {value : Bytes}

/-! ## Sidebands -/

namespace BlockType

/-- The other types name their account. -/
def hasSidebandAccount (type : BlockType) : Bool := type ≠ .state ∧ type ≠ BlockType.open

/-- An open block has height 1. -/
def hasSidebandHeight (type : BlockType) : Bool := type ≠ BlockType.open

/-- The other types state their balance. -/
def hasSidebandBalance (type : BlockType) : Bool :=
  type = .receive ∨ type = .change ∨ type = BlockType.open

end BlockType

/-- `block_sideband_v14`. Its type is an argument of the functions that use it. -/
structure SidebandV14 where
  successor : BlockHash := 0
  account : Account := 0
  balance : Amount := 0
  height : BitVec 64 := 0
  timestamp : BitVec 64 := 0
  deriving DecidableEq

namespace SidebandV14

variable (type : BlockType)

def size : Nat :=
  32 + (if type.hasSidebandAccount then 32 else 0) + (if type.hasSidebandHeight then 8 else 0) +
    (if type.hasSidebandBalance then 16 else 0) + 8

def serialize (s : SidebandV14) : Bytes :=
  u256.write s.successor ++ (if type.hasSidebandAccount then u256.write s.account else []) ++
    (if type.hasSidebandHeight then u64Big.write s.height else []) ++
    (if type.hasSidebandBalance then u128.write s.balance else []) ++ u64Big.write s.timestamp

/-- `deserialize` into the object `s`, which keeps the fields that are not written. -/
def deserialize (s : SidebandV14) : Reader SidebandV14 := do
  let successor ← u256.read
  let account ← if type.hasSidebandAccount then u256.read else pure s.account
  let height ← if type.hasSidebandHeight then u64Big.read else pure 1
  let balance ← if type.hasSidebandBalance then u128.read else pure s.balance
  let timestamp ← u64Big.read
  return ⟨successor, account, balance, height, timestamp⟩

/-- The object `s` once the sideband `stored` has been read into it. -/
def overwrite (s stored : SidebandV14) : SidebandV14 where
  successor := stored.successor
  account := if type.hasSidebandAccount then stored.account else s.account
  balance := if type.hasSidebandBalance then stored.balance else s.balance
  height := if type.hasSidebandHeight then stored.height else 1
  timestamp := stored.timestamp

theorem length_serialize (s : SidebandV14) : (s.serialize type).length = size type := by
  cases type <;> simp [serialize, size, BlockType.hasSidebandAccount, BlockType.hasSidebandHeight,
    BlockType.hasSidebandBalance, u256, u128, u64Big, Format.word, length_bytesLE]

theorem deserialize_append (s stored : SidebandV14) (rest : Bytes) :
    s.deserialize type (stored.serialize type ++ rest) = some (s.overwrite type stored, rest) := by
  cases type <;> simp [-bind_pure_comp, serialize, deserialize, overwrite, Reader.pure_apply,
    BlockType.hasSidebandAccount, BlockType.hasSidebandHeight, BlockType.hasSidebandBalance]

theorem deserialize_serialize (s stored : SidebandV14) :
    s.deserialize type (stored.serialize type) = some (s.overwrite type stored, []) := by
  simpa using deserialize_append type s stored []

end SidebandV14

/-- `block_sideband::size`, of the latest version: a state block also has its details there. -/
def Sideband.size (type : BlockType) : Nat :=
  32 + (if type.hasSidebandAccount then 32 else 0) + (if type.hasSidebandHeight then 8 else 0) +
    (if type.hasSidebandBalance then 16 else 0) + 8 + (if type = .state then 1 else 0)

/-! ## Tables -/

/-- `account_info_v13`, without its epoch, which is not stored. -/
structure AccountInfoV13 where
  head : BlockHash := 0
  repBlock : BlockHash := 0
  openBlock : BlockHash := 0
  balance : Amount := 0
  modified : BitVec 64 := 0
  blockCount : BitVec 64 := 0

def AccountInfoV13.bytes (info : AccountInfoV13) : Bytes :=
  u256.write info.head ++ u256.write info.repBlock ++ u256.write info.openBlock ++
    u128.write info.balance ++ u64.write info.modified ++ u64.write info.blockCount

/-- An account table of version 12, in the order in which the database iterates it. -/
structure AccountsV13 where
  entries : List (Account × AccountInfoV13)
  ascending : Ascending entries

def AccountsV13.empty : AccountsV13 := ⟨[], List.Pairwise.nil⟩

/-- The iterator that starts at an account (`MDB_SET_RANGE`). -/
def AccountsV13.lowerBound (t : AccountsV13) (account : Account) :
    Option (Account × AccountInfoV13) :=
  t.entries.find? fun x => account ≤ x.1

/-- `x` is the first entry from an account on. -/
structure FirstFrom (entries : Account × AccountInfoV13 → Prop) (account : Account)
    (x : Account × AccountInfoV13) : Prop where
  mem : entries x
  from_le : account ≤ x.1
  least : ∀ y, entries y → account ≤ y.1 → x.1 ≤ y.1

theorem AccountsV13.firstFrom_lowerBound {t : AccountsV13}
    {x : Account × AccountInfoV13} (h : t.lowerBound account = some x) :
    FirstFrom (· ∈ t.entries) account x := by
  obtain ⟨hx, before, after, heq, hbef⟩ := find?_eq_some_iff_append.1 h
  refine ⟨by rw [heq]; simp, of_decide_eq_true hx, fun y hy hle => ?_⟩
  have hasc := t.ascending
  rw [heq] at hy hasc
  rcases mem_append.1 hy with hy | hy
  · have := hbef y hy
    simp [hle] at this
  · rcases mem_cons.1 hy with rfl | hy
    · exact BitVec.le_refl _
    · exact BitVec.le_of_lt (hasc.append_right.head_lt hy)

theorem AccountsV13.lowerBound_eq_none {t : AccountsV13}
    (h : t.lowerBound account = none) {y : Account × AccountInfoV13} (hy : y ∈ t.entries) :
    ¬ account ≤ y.1 := by
  have := List.find?_eq_none.1 h y hy
  simpa using this

/-- The tables that the upgrade uses. The table of state blocks in `blocks` is that of epoch 0. -/
structure Database where
  version : Nat
  accountsV0 : AccountsV13
  accountsV1 : AccountsV13
  blocks : Table (BlockType × BlockHash) Bytes
  stateBlocksV1 : Table BlockHash Bytes
  blocksInfo : Table BlockHash BlockInfo
  frontiers : Table BlockHash Account

/-- An entry of a block table, with the type of the table and whether it is that of state blocks of
epoch 1. -/
structure RawEntry where
  type : BlockType
  value : Bytes
  isStateV1 : Bool
  deriving DecidableEq

namespace Database

variable (db : Database)

/-- The entry of `mdb_merge_iterator` from an account on: the lesser one of both tables. -/
def leastAccount (account : Account) : Option (Account × AccountInfoV13) :=
  match db.accountsV0.lowerBound account, db.accountsV1.lowerBound account with
  | none, y => y
  | x, none => x
  | some x, some y =>
    if x.1 < y.1 then some x
    else if y.1 < x.1 then some y
    else if x.2.bytes < y.2.bytes then some x
    else some y

def HasAccount (x : Account × AccountInfoV13) : Prop :=
  x ∈ db.accountsV0.entries ∨ x ∈ db.accountsV1.entries

section Accounts

variable {db} {x y : Account × AccountInfoV13}

theorem firstFrom_left (h : FirstFrom (· ∈ db.accountsV0.entries) account x)
    (hle : ∀ y ∈ db.accountsV1.entries, account ≤ y.1 → x.1 ≤ y.1) :
    FirstFrom db.HasAccount account x where
  mem := .inl h.mem
  from_le := h.from_le
  least y hy hfrom := hy.elim (fun hy => h.least y hy hfrom) fun hy => hle y hy hfrom

theorem firstFrom_right (h : FirstFrom (· ∈ db.accountsV1.entries) account x)
    (hle : ∀ y ∈ db.accountsV0.entries, account ≤ y.1 → x.1 ≤ y.1) :
    FirstFrom db.HasAccount account x where
  mem := .inr h.mem
  from_le := h.from_le
  least y hy hfrom := hy.elim (fun hy => hle y hy hfrom) fun hy => h.least y hy hfrom

theorem firstFrom_leastAccount (h : db.leastAccount account = some x) :
    FirstFrom db.HasAccount account x := by
  unfold leastAccount at h
  cases h0 : db.accountsV0.lowerBound account with
  | none =>
    rw [h0] at h
    exact firstFrom_right (AccountsV13.firstFrom_lowerBound h) fun y hy hfrom =>
      absurd hfrom (AccountsV13.lowerBound_eq_none h0 hy)
  | some x0 =>
    have hx0 := AccountsV13.firstFrom_lowerBound h0
    cases h1 : db.accountsV1.lowerBound account with
    | none =>
      rw [h0, h1] at h
      cases h
      exact firstFrom_left hx0 fun y hy hfrom => absurd hfrom (AccountsV13.lowerBound_eq_none h1 hy)
    | some x1 =>
      have hx1 := AccountsV13.firstFrom_lowerBound h1
      -- the lesser one of the two is before all entries of the other table, too
      have hleft (hle : x0.1 ≤ x1.1) : FirstFrom db.HasAccount account x0 :=
        firstFrom_left hx0 fun y hy hfrom => BitVec.le_trans hle (hx1.least y hy hfrom)
      have hright (hle : x1.1 ≤ x0.1) : FirstFrom db.HasAccount account x1 :=
        firstFrom_right hx1 fun y hy hfrom => BitVec.le_trans hle (hx0.least y hy hfrom)
      rw [h0, h1] at h
      simp only at h
      split at h
      · cases h
        exact hleft (BitVec.le_of_lt ‹_›)
      · split at h
        · cases h
          exact hright (BitVec.le_of_lt ‹_›)
        · split at h
          · cases h
            exact hleft (BitVec.not_lt.1 ‹_›)
          · cases h
            exact hright (BitVec.not_lt.1 ‹_›)

theorem leastAccount_eq_none (h : db.leastAccount account = none) (hy : db.HasAccount y) :
    ¬ account ≤ y.1 := by
  unfold leastAccount at h
  cases h0 : db.accountsV0.lowerBound account with
  | none =>
    rw [h0] at h
    rcases hy with hy | hy
    · exact AccountsV13.lowerBound_eq_none h0 hy
    · exact AccountsV13.lowerBound_eq_none h hy
  | some x0 =>
    cases h1 : db.accountsV1.lowerBound account with
    | none =>
      rw [h0, h1] at h
      cases h
    | some x1 =>
      rw [h0, h1] at h
      simp only at h
      split at h
      · cases h
      · split at h
        · cases h
        · split at h <;> cases h

end Accounts

def fullSideband : Bool := 12 < db.version

/-- `block_raw_get`: the first table that has the hash, in the order of the source. -/
def blockRawGet (hash : BlockHash) : Option (BlockType × Bytes) :=
  [BlockType.state, .send, .receive, BlockType.open, .change].findSome? fun type =>
    (db.blocks.lookup (type, hash)).map fun value => (type, value)

def blockRawGetV14 (hash : BlockHash) : Option RawEntry :=
  match db.stateBlocksV1.lookup hash with
  | some value => some ⟨.state, value, true⟩
  | none => (db.blockRawGet hash).map fun x => ⟨x.1, x.2, false⟩

/-- `mdb_put` into the table of an entry. -/
def blockRawPut (hash : BlockHash) (entry : RawEntry) : Database :=
  if entry.isStateV1 then
    { db with stateBlocksV1 := db.stateBlocksV1.insert hash entry.value }
  else { db with blocks := db.blocks.insert (entry.type, hash) entry.value }

variable {db} {hash : BlockHash} {entry : RawEntry}

@[simp] theorem blockRawPut_version : (db.blockRawPut hash entry).version = db.version := by
  unfold blockRawPut
  split <;> rfl

@[simp] theorem blockRawPut_accountsV0 :
    (db.blockRawPut hash entry).accountsV0 = db.accountsV0 := by
  unfold blockRawPut
  split <;> rfl

@[simp] theorem blockRawPut_accountsV1 :
    (db.blockRawPut hash entry).accountsV1 = db.accountsV1 := by
  unfold blockRawPut
  split <;> rfl

@[simp] theorem blockRawPut_blocksInfo :
    (db.blockRawPut hash entry).blocksInfo = db.blocksInfo := by
  unfold blockRawPut
  split <;> rfl

theorem type_eq_state (h : db.blockRawGetV14 hash = some entry) (hv1 : entry.isStateV1) :
    entry.type = .state := by
  unfold blockRawGetV14 at h
  cases hv : db.stateBlocksV1.lookup hash with
  | some value =>
    rw [hv] at h
    cases h
    rfl
  | none =>
    rw [hv] at h
    obtain ⟨x, -, rfl⟩ := map_eq_some_iff.1 h
    cases hv1

theorem blockRawGet_of_v14 (h : db.blockRawGetV14 hash = some entry)
    (hv0 : entry.isStateV1 = false) :
    db.stateBlocksV1.lookup hash = none ∧ db.blockRawGet hash = some (entry.type, entry.value) := by
  unfold blockRawGetV14 at h
  cases hv : db.stateBlocksV1.lookup hash with
  | some value =>
    rw [hv] at h
    cases h
    cases hv0
  | none =>
    rw [hv] at h
    obtain ⟨x, hx, rfl⟩ := map_eq_some_iff.1 h
    exact ⟨rfl, hx⟩

theorem findSome?_lookup_insert {m : Table (BlockType × BlockHash) Bytes} {types : List BlockType}
    {type : BlockType}
    (h : (types.findSome? fun t => (m.lookup (t, hash)).map fun v => (t, v)) = some (type, value))
    (value' : Bytes) :
    (types.findSome? fun t => ((m.insert (type, hash) value').lookup (t, hash)).map fun v => (t, v)) =
      some (type, value') := by
  induction types with
  | nil => cases h
  | cons t types ih =>
    rw [findSome?_cons, Finmap.lookup_insert_eq]
    by_cases ht : t = type
    · rw [ht, if_pos rfl]
      rfl
    · rw [if_neg (by simp [ht])]
      cases hv : m.lookup (t, hash) with
      | some v =>
        rw [findSome?_cons, hv] at h
        cases h
        exact absurd rfl ht
      | none =>
        rw [findSome?_cons, hv] at h
        exact ih h

theorem blockRawGet_insert {type : BlockType}
    (h : db.blockRawGet hash = some (type, value)) (value' : Bytes) (k : BlockHash) :
    ({ db with blocks := db.blocks.insert (type, hash) value' } : Database).blockRawGet k =
      if k = hash then some (type, value') else db.blockRawGet k := by
  by_cases hk : k = hash
  · rw [if_pos hk, hk]
    exact findSome?_lookup_insert h value'
  · simp only [blockRawGet, findSome?_cons, Finmap.lookup_insert_eq, Prod.mk.injEq, hk,
      and_false, if_false]

theorem blockRawGetV14_put (h : db.blockRawGetV14 hash = some entry) (value : Bytes)
    (k : BlockHash) :
    (db.blockRawPut hash { entry with value := value }).blockRawGetV14 k =
      if k = hash then some { entry with value := value } else db.blockRawGetV14 k := by
  cases hv : entry.isStateV1 with
  | true =>
    have htype := type_eq_state h hv
    simp only [blockRawPut, if_true, blockRawGetV14, Finmap.lookup_insert_eq, htype]
    by_cases hk : k = hash
    · simp only [if_pos hk]
    · simp only [if_neg hk]
      rfl
  | false =>
    obtain ⟨hnone, hraw⟩ := blockRawGet_of_v14 h hv
    simp only [blockRawPut, Bool.false_eq_true, if_false, blockRawGetV14, blockRawGet_insert hraw]
    by_cases hk : k = hash
    · subst hk
      simp only [if_true, hnone, map_some]
    · simp only [if_neg hk]

theorem blockRawPut_self {type : BlockType}
    (h : db.blockRawGet hash = some (type, value)) :
    db.blockRawPut hash ⟨type, value, false⟩ = db := by
  obtain ⟨t, -, ht⟩ := exists_of_findSome?_eq_some h
  obtain ⟨v, hlk, hv⟩ := map_eq_some_iff.1 ht
  cases hv
  have hsame : db.blocks.insert (type, hash) value = db.blocks := by
    apply Finmap.ext_lookup
    intro k
    rw [Finmap.lookup_insert_eq]
    split
    · rename_i hk
      rw [hk, hlk]
    · rfl
  simp only [blockRawPut, Bool.false_eq_true, if_false, hsame]

end Database

/-! ## Readers -/

/-- The size of an entry, and whether it has a sideband after the block. -/
def entryHasSidebandV14 (size : Nat) (type : BlockType) : Bool :=
  size = type.size + SidebandV14.size type

def entryHasSideband (size : Nat) (type : BlockType) : Bool := size = type.size + Sideband.size type

/-- The place that is `n` bytes before the end of an entry. -/
def fromEnd (size n : Nat) : Option Nat := if n ≤ size then some (size - n) else none

namespace Database

variable (db : Database)

def blockSuccessorOffsetV14 (size : Nat) (type : BlockType) : Option Nat :=
  if db.fullSideband || entryHasSidebandV14 size type then fromEnd size (SidebandV14.size type)
  else fromEnd size 32

def blockSuccessorOffset (size : Nat) (type : BlockType) : Option Nat :=
  if db.fullSideband || entryHasSideband size type then fromEnd size (Sideband.size type)
  else fromEnd size 32

/-- `block_get_v14` without a sideband: null if the hash has no entry. -/
def blockV14 (hash : BlockHash) : Option Block := do
  let entry ← db.blockRawGetV14 hash
  let (block, _) ← readBlock entry.type entry.value
  return block

/-- What the summation visitor reads during the upgrade. -/
def blockStore : BlockStore where
  blockGet := db.blockV14
  blockInfoGet hash := some (db.blocksInfo.lookup hash)

def blockBalanceComputedV14 (p : Params) (fuel : Nat) (hash : BlockHash) : Option Amount :=
  SummationVisitor.computeBalance p db.blockStore fuel hash

def blockSuccessorV14 (hash : BlockHash) : Option BlockHash :=
  match db.blockRawGetV14 hash with
  | none => some 0
  | some entry => do
    if entry.value = [] then return 0
    let offset ← db.blockSuccessorOffsetV14 entry.value.length entry.type
    let (successor, _) ← u256.read (entry.value.drop offset)
    return successor

/-- `block_account_v14`, of an entry with a sideband. -/
def blockAccountV14 (hash : BlockHash) : Option Account := do
  let entry ← db.blockRawGetV14 hash
  let (block, rest) ← readBlock entry.type entry.value
  let (sideband, _) ← ({} : SidebandV14).deserialize entry.type rest
  return if block.hashables.account = 0 then sideband.account else block.hashables.account

/-- `block_account_computed_v14`. The loop goes up the chain until some block tells the account. -/
def blockAccountComputedV14 : Nat → BlockHash → Option Account
  | 0, _ => none
  | fuel + 1, hash => do
    let block ← db.blockV14 hash
    if block.hashables.account ≠ 0 then return block.hashables.account
    let hasSideband := (db.blockRawGetV14 block.hashables.previous).any fun entry =>
      entryHasSidebandV14 entry.value.length entry.type
    if hasSideband then
      let account ← db.blockAccountV14 block.hashables.previous
      if account ≠ 0 then return account else blockAccountComputedV14 fuel hash
    else
      match db.blocksInfo.lookup hash with
      | some info =>
        if info.account ≠ 0 then return info.account else blockAccountComputedV14 fuel hash
      | none =>
        let account := (db.frontiers.lookup hash).getD 0
        if account ≠ 0 then return account
        else blockAccountComputedV14 fuel (← db.blockSuccessorV14 hash)

end Database

end Futurehead
