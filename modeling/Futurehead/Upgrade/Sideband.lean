import Futurehead.Base.Run
import Futurehead.Upgrade.Entries

/-!
# The sideband upgrade (`upgrade_v12_to_v13` of `futurehead/node/lmdb`)

The upgrade goes through all accounts and up the chain of each, and gives every entry the sideband
of version 13. It commits from time to time, so that a node that is stopped goes on from its last
commit when it is started again: it goes through all accounts again, and finds the entries it has
written by their size.
-/

namespace Futurehead

open Wire List Option Futurehead.Lattice

/-! ## Reading and writing entries -/

namespace Database

variable (p : Params) (db : Database)

/-- `block_get_v14`: the block, null if the hash has no entry, its sideband, and whether it is in
the table of state blocks of epoch 1. The object `sideband` keeps the fields that are not read. -/
def blockGetV14 (fuel : Nat) (hash : BlockHash) (sideband : SidebandV14) :
    Option (Option Block × SidebandV14 × Bool) :=
  match db.blockRawGetV14 hash with
  | none => some (none, sideband, false)
  | some entry => do
    if entry.value = [] then return (none, sideband, entry.isStateV1)
    let (block, rest) ← readBlock entry.type entry.value
    if db.fullSideband || entryHasSidebandV14 entry.value.length entry.type then
      let (sideband, _) ← sideband.deserialize entry.type rest
      return (some block, sideband, entry.isStateV1)
    else
      let account ← db.blockAccountComputedV14 fuel hash
      let balance ← db.blockBalanceComputedV14 p fuel hash
      let successor ← db.blockSuccessorV14 hash
      return (some block, ⟨successor, account, balance, 0, 0⟩, entry.isStateV1)

/-- Bytes in the middle of an entry are replaced. -/
def overwriteAt (value : Bytes) (offset : Nat) (bytes : Bytes) : Option Bytes :=
  if offset + bytes.length ≤ value.length then
    some (value.take offset ++ bytes ++ value.drop (offset + bytes.length))
  else none

/-- `block_predecessor_set::fill_value`: the block becomes the successor of its previous block. -/
def fillValue (b : Block) : Option Database := do
  let (type, value) ← db.blockRawGet b.hashables.previous
  let offset ← db.blockSuccessorOffset value.length type
  let data ← overwriteAt value offset (u256.write (p.hash b))
  return db.blockRawPut b.hashables.previous ⟨type, data, false⟩

def blockPredecessorSet (b : Block) : Option Database :=
  match b.hashables with
  | .openBlock .. => some db
  | .stateBlock _ previous _ _ _ => if previous = 0 then some db else db.fillValue p b
  | _ => db.fillValue p b

end Database

/-! ## The upgrade -/

/-- Where the upgrade is: between two accounts, in the chain of an account, or at its end. -/
inductive UpgradePosition where
  | accounts (account : Account)
  | chain (first : Account) (hash : BlockHash) (height : BitVec 64) (sideband : SidebandV14)
  | finished
  deriving DecidableEq

/-- A run of `upgrade_v12_to_v13`: the database as its transaction sees it and as it was last
committed, and the local variables. -/
structure SidebandUpgrade where
  batchSize : BitVec 64
  notAnAccount : Account
  db : Database
  committed : Database
  cost : BitVec 64 := 0
  position : UpgradePosition := .accounts 0

namespace SidebandUpgrade

variable (p : Params)

/-- The upgrade is started, or started again, on a database. -/
def start (batchSize : BitVec 64) (notAnAccount : Account) (db : Database) : SidebandUpgrade where
  batchSize := batchSize
  notAnAccount := notAnAccount
  db := db
  committed := db

/-- The upgrade commits what it has written if that was enough. -/
def commit (s : SidebandUpgrade) : SidebandUpgrade :=
  if s.batchSize ≤ s.cost then { s with committed := s.db, cost := 0 } else s

/-- One round of the outer loop, up to the inner one. -/
def nextAccount (account : Account) (s : SidebandUpgrade) : SidebandUpgrade :=
  if account ≠ s.notAnAccount then
    match s.db.leastAccount account with
    | some (first, info) =>
      if first ≠ 0 then { s with position := .chain first info.openBlock 1 {} }
      else { s with position := .accounts s.notAnAccount }
    | none => { s with position := .accounts s.notAnAccount }
  else { s with db := { s.db with version := 13 }, position := .finished }

def nextBlock (fuel : Nat) (first : Account) (hash : BlockHash) (height : BitVec 64)
    (sideband : SidebandV14) (s : SidebandUpgrade) : Option SidebandUpgrade :=
  if hash = 0 then some { s with position := .accounts (first + 1) }
  else do
    let s := s.commit
    let (block, sideband, isStateV1) ← s.db.blockGetV14 p fuel hash sideband
    if sideband.height = 0 then
      let sideband := { sideband with height := height }
      let block ← block
      let type := block.hashables.type
      let value := block.serialize ++ sideband.serialize type
      let db := s.db.blockRawPut hash ⟨type, value, isStateV1⟩
      let db ← db.blockPredecessorSet p block
      return { s with db := db, cost := s.cost + 16,
                      position := .chain first sideband.successor (height + 1) sideband }
    else
      return { s with cost := s.cost + 1,
                      position := .chain first sideband.successor (height + 1) sideband }

def iterate (fuel : Nat) (s : SidebandUpgrade) : Option SidebandUpgrade :=
  match s.position with
  | .accounts account => some (s.nextAccount account)
  | .chain first hash height sideband => s.nextBlock p fuel first hash height sideband
  | .finished => none

/-- What happens to an upgrade: it goes on, or the node is stopped and started again. -/
inductive Action where
  | iterate
  | restart (batchSize : BitVec 64) (notAnAccount : Account)

inductive Step : SidebandUpgrade → Action → SidebandUpgrade → Prop
  | iterate {s t : SidebandUpgrade} (fuel : Nat) (h : s.iterate p fuel = some t) : Step s .iterate t
  | restart {s : SidebandUpgrade} (batchSize : BitVec 64) (notAnAccount : Account) :
      Step s (.restart batchSize notAnAccount) (start batchSize notAnAccount s.committed)

end SidebandUpgrade

/-! ## Entries of both kinds -/

theorem readBlock_serialize (b : Block) (rest : Bytes) :
    readBlock b.hashables.type (b.serialize ++ rest) = some (b, rest) := by
  simpa [deserializeBlock] using deserializeBlock_serialize b rest

/-- The account of a block with its sideband, as in `block_account_v14`. -/
def SidebandV14.accountOf (sideband : SidebandV14) (b : Block) : Account :=
  if b.hashables.account = 0 then sideband.account else b.hashables.account

/-- The balance after a block with its sideband: a send or state block states it itself. -/
def SidebandV14.balanceOf (sideband : SidebandV14) (b : Block) : Amount :=
  b.hashables.statedBalance.getD sideband.balance

section

variable {p : Params} {known : Block → Prop} (db : Database) (L : Lattice p known) (a : Account)
  (e : Entry) (c : List Entry)

/-- The successor of the block on top of `c` in the chain of `a`, zero for the newest one. -/
def Lattice.successor : BlockHash := hashAt p (L.chain a) (c.length + 2)

/-- The sideband of the place that `e` has in the lattice. -/
def Lattice.sidebandAt : SidebandV14 where
  successor := L.successor a c
  account := a
  balance := e.balance
  height := BitVec.ofNat 64 (c.length + 1)

/-- The entry of version 12: the block and its successor. -/
def Database.OldEntry : Prop :=
  ∃ v1, db.blockRawGetV14 (e.hash p) =
    some ⟨e.type, e.block.serialize ++ u256.write (L.successor a c), v1⟩

/-- The entry of version 13: the block and its sideband. -/
def Database.NewEntry : Prop :=
  ∃ v1, db.blockRawGetV14 (e.hash p) =
    some ⟨e.type, e.block.serialize ++ (L.sidebandAt a e c).serialize e.type, v1⟩

end

/-- The tables of the database are those of the lattice, up to what stands after the blocks. -/
structure Database.Covers {p : Params} {known : Block → Prop} (db : Database)
    (L : Lattice p known) : Prop where
  version : db.version = 12
  account : ∀ {a info}, db.HasAccount (a, info) →
    L.chain a ≠ [] ∧ info.openBlock = chainOpen p (L.chain a)
  listed : ∀ {a}, L.chain a ≠ [] → ∃ info, db.HasAccount (a, info)
  only : ∀ {hash entry}, db.blockRawGetV14 hash = some entry → ∃ a e c, L.At a e c ∧ e.hash p = hash
  info : ∀ {a e c}, L.At a e c → ∀ info ∈ db.blocksInfo.lookup (e.hash p), info = ⟨a, e.balance⟩

structure Database.HoldsV12 {p : Params} {known : Block → Prop} (db : Database)
    (L : Lattice p known) : Prop extends db.Covers L where
  entry : ∀ {a e c}, L.At a e c → db.OldEntry L a e c

structure Database.Upgrading {p : Params} {known : Block → Prop} (db : Database)
    (L : Lattice p known) : Prop extends db.Covers L where
  entry : ∀ {a e c}, L.At a e c → db.OldEntry L a e c ∨ db.NewEntry L a e c

section

variable {p : Params} {known : Block → Prop} {db : Database} {L : Lattice p known} {a : Account}
  {e : Entry} {c : List Entry}

theorem entryHasSidebandV14_new (b : Block) (side : SidebandV14) :
    entryHasSidebandV14 (b.serialize ++ side.serialize b.hashables.type).length
      b.hashables.type = true := by
  rw [length_append, Block.length_serialize, SidebandV14.length_serialize]
  exact decide_eq_true rfl

theorem entryHasSidebandV14_old (b : Block) (successor : BlockHash) :
    entryHasSidebandV14 (b.serialize ++ u256.write successor).length b.hashables.type = false := by
  rw [length_append, Block.length_serialize, Format.length_write]
  cases b.hashables.type <;> rfl

theorem Block.serialize_ne_nil (b : Block) (rest : Bytes) : b.serialize ++ rest ≠ [] := by
  intro h
  have hlen := congrArg List.length h
  rw [length_append, Block.length_serialize] at hlen
  cases ht : b.hashables.type <;> rw [ht] at hlen <;> simp [BlockType.size] at hlen

namespace Database

theorem NewEntry.blockGetV14 (h : db.NewEntry L a e c) (fuel : Nat) (s : SidebandV14) :
    ∃ v1, db.blockRawGetV14 (e.hash p) =
        some ⟨e.type, e.block.serialize ++ (L.sidebandAt a e c).serialize e.type, v1⟩ ∧
      db.blockGetV14 p fuel (e.hash p) s =
        some (some e.block, s.overwrite e.type (L.sidebandAt a e c), v1) := by
  obtain ⟨v1, hraw⟩ := h
  refine ⟨v1, hraw, ?_⟩
  unfold Database.blockGetV14
  rw [hraw]
  simp only [Block.serialize_ne_nil, if_false, Entry.type, readBlock_serialize,
    entryHasSidebandV14_new, Bool.or_true, if_true, bind_eq_bind, bind_some,
    SidebandV14.deserialize_serialize, Option.pure_def]

theorem NewEntry.blockAccountV14 (hat : L.At a e c) (h : db.NewEntry L a e c) :
    db.blockAccountV14 (e.hash p) = some a := by
  obtain ⟨v1, hraw⟩ := h
  obtain ⟨amt, epoch, hx⟩ := extends_at hat
  have hacc := hx.account
  have hne := hx.account_ne_zero
  unfold Database.blockAccountV14
  simp only [hraw, Entry.type, readBlock_serialize, bind_eq_bind, bind_some,
    SidebandV14.deserialize_serialize, Option.pure_def, Option.some.injEq]
  unfold Entry.type at hacc
  cases hh : e.block.hashables <;>
    simp_all [Hashables.account, Hashables.type, SidebandV14.overwrite,
      BlockType.hasSidebandAccount, sidebandAt]

namespace Upgrading

variable (hdb : db.Upgrading L)
include hdb

theorem stored (hat : L.At a e c) : ∃ rest v1,
    db.blockRawGetV14 (e.hash p) = some ⟨e.type, e.block.serialize ++ rest, v1⟩ := by
  rcases hdb.entry hat with ⟨v1, hraw⟩ | ⟨v1, hraw⟩
  · exact ⟨_, v1, hraw⟩
  · exact ⟨_, v1, hraw⟩

theorem blockV14 (hat : L.At a e c) : db.blockV14 (e.hash p) = some e.block := by
  obtain ⟨rest, v1, hraw⟩ := hdb.stored hat
  simp [Database.blockV14, hraw, Entry.type, readBlock_serialize]

theorem hasBlocks (H : HashAssumptions p known) : db.blockStore.HasBlocks L where
  block := hdb.blockV14
  genesisAccount := by
    cases hraw : db.blockRawGetV14 p.genesisAccount with
    | none => simp [blockStore, Database.blockV14, hraw]
    | some entry =>
      obtain ⟨a, e, c, hat, hhash⟩ := hdb.only hraw
      exact absurd hhash (H.ne_genesisAccount (L.known_at hat))
  info hat := ⟨_, rfl, fun info hinfo => by rw [hdb.info hat info hinfo]⟩

end Upgrading

theorem OldEntry.blockSuccessorV14 (hv : db.version = 12) (h : db.OldEntry L a e c) :
    db.blockSuccessorV14 (e.hash p) = some (L.successor a c) := by
  obtain ⟨v1, hraw⟩ := h
  have hoffset : db.blockSuccessorOffsetV14
      (e.block.serialize ++ u256.write (L.successor a c)).length e.type =
        some e.block.serialize.length := by
    unfold blockSuccessorOffsetV14 Entry.type
    rw [entryHasSidebandV14_old, fullSideband, hv, length_append, Format.length_write]
    simp [fromEnd, u256, Format.word]
  unfold Database.blockSuccessorV14
  simp only [hraw, hoffset, Block.serialize_ne_nil, if_false, bind_eq_bind, bind_some,
    drop_left, Format.read_write_nil, Option.pure_def]

theorem Upgrading.blockAccountComputedV14 (hdb : db.Upgrading L) (hat : L.At a e c)
    (hblw : ∀ x d, c = x :: d → db.NewEntry L a x d) (fuel : Nat) :
    db.blockAccountComputedV14 (fuel + 1) (e.hash p) = some a := by
  obtain ⟨amt, epoch, hx⟩ := extends_at hat
  simp only [Database.blockAccountComputedV14, hdb.blockV14 hat, bind_eq_bind, bind_some]
  by_cases hzero : e.block.hashables.account = 0
  · -- the block does not name its account, so there is a block below
    have hleg : e.type ≠ BlockType.open ∧ e.type ≠ .state := by
      refine ⟨fun ht => hx.account_ne_zero ?_, fun ht => hx.account_ne_zero ?_⟩
      · rw [← hx.account (.inl ht), hzero]
      · rw [← hx.account (.inr ht), hzero]
    obtain ⟨x, d, rfl, -⟩ := hx.exists_below hleg.1 hleg.2
    have hnew := hblw x d rfl
    have hprv : e.block.hashables.previous = x.hash p := hx.previous
    have hacc := hnew.blockAccountV14 hat.below
    obtain ⟨v1, hraw⟩ := hnew
    simp only [ne_eq, hzero, not_true, if_false, hprv, hraw, hacc, any_some,
      Entry.type, entryHasSidebandV14_new, if_true, bind_some, hx.account_ne_zero,
      not_false_eq_true, Option.pure_def]
  · have hacc : e.block.hashables.account = a := by
      apply hx.account
      unfold Entry.type
      cases hh : e.block.hashables <;> simp_all [Hashables.account, Hashables.type]
    rw [if_pos hzero, hacc]
    rfl

variable {v1 : Bool} {fuel : Nat} {s : SidebandV14} {r : Option Block × SidebandV14 × Bool}
  {x : Entry} {d : List Entry} {value : Bytes}

theorem blockGetV14_old (hv : db.version = 12) (hraw : db.blockRawGetV14 (e.hash p) =
      some ⟨e.type, e.block.serialize ++ u256.write (L.successor a c), v1⟩) (fuel : Nat)
    (s : SidebandV14) : db.blockGetV14 p fuel (e.hash p) s =
      (db.blockAccountComputedV14 fuel (e.hash p)).bind fun acc =>
        (db.blockBalanceComputedV14 p fuel (e.hash p)).map fun bal =>
          (some e.block, ⟨L.successor a c, acc, bal, 0, 0⟩, v1) := by
  have hsucc := OldEntry.blockSuccessorV14 hv ⟨v1, hraw⟩
  have hfull : db.fullSideband = false := by rw [fullSideband, hv]; rfl
  unfold Database.blockGetV14
  simp only [hraw, Block.serialize_ne_nil, if_false, Entry.type, readBlock_serialize,
    entryHasSidebandV14_old, hfull, Bool.or_self, Bool.false_eq_true, bind_eq_bind,
    bind_some, hsucc, Option.pure_def]
  cases db.blockAccountComputedV14 fuel (e.hash p) <;>
    cases db.blockBalanceComputedV14 p fuel (e.hash p) <;> rfl

/-- What the upgrade reads for the block of `e`: written again with its height, the sideband is that
of its place in the lattice. -/
structure Reading (db : Database) (L : Lattice p known) (a : Account) (e : Entry) (c : List Entry)
    (r : Option Block × SidebandV14 × Bool) : Prop where
  block : r.1 = some e.block
  successor : r.2.1.successor = L.successor a c
  entry : ∃ value, db.blockRawGetV14 (e.hash p) = some ⟨e.type, value, r.2.2⟩
  written : { r.2.1 with height := BitVec.ofNat 64 (c.length + 1) }.serialize e.type =
    (L.sidebandAt a e c).serialize e.type
  full : r.2.1.height ≠ 0 → db.NewEntry L a e c

theorem NewEntry.reading (h : db.NewEntry L a e c)
    (hr : db.blockGetV14 p fuel (e.hash p) s = some r) : db.Reading L a e c r := by
  obtain ⟨v1, hraw, hget⟩ := h.blockGetV14 fuel s
  rw [hget] at hr
  cases hr
  exact ⟨rfl, rfl, ⟨_, hraw⟩, by cases e.type <;> rfl, fun _ => h⟩

theorem Upgrading.reading (H : HashAssumptions p known) (hdb : db.Upgrading L) (hat : L.At a e c)
    (hblw : ∀ x d, c = x :: d → db.NewEntry L a x d)
    (hr : db.blockGetV14 p fuel (e.hash p) s = some r) : db.Reading L a e c r := by
  rcases hdb.entry hat with ⟨v1, hraw⟩ | hnew
  · rw [blockGetV14_old hdb.version hraw] at hr
    obtain ⟨acc, hacc, hrest⟩ := bind_eq_some_iff.1 hr
    obtain ⟨bal, hbal, rfl⟩ := map_eq_some_iff.1 hrest
    obtain rfl := computeInternal_unique (computeBalance_eq H (hdb.hasBlocks H) hat) hbal
    cases fuel with
    | zero => cases hacc
    | succ fuel =>
      rw [hdb.blockAccountComputedV14 hat hblw] at hacc
      cases hacc
      exact ⟨rfl, rfl, ⟨_, hraw⟩, rfl, fun h => absurd rfl h⟩
  · exact hnew.reading hr

theorem Upgrading.exists_reading (H : HashAssumptions p known) (hdb : db.Upgrading L)
    (hat : L.At a e c) (hblw : ∀ x d, c = x :: d → db.NewEntry L a x d) (s : SidebandV14) :
    ∃ fuel r, db.blockGetV14 p fuel (e.hash p) s = some r := by
  rcases hdb.entry hat with ⟨v1, hraw⟩ | hnew
  · obtain ⟨n, hn⟩ := computeBalance_eq H (hdb.hasBlocks H) hat
    refine ⟨n + 1, (some e.block, ⟨L.successor a c, a, e.balance, 0, 0⟩, v1), ?_⟩
    rw [blockGetV14_old hdb.version hraw, hdb.blockAccountComputedV14 hat hblw, bind_some,
      blockBalanceComputedV14, hn (n + 1) (by omega), map_some]
  · obtain ⟨v1, -, hget⟩ := hnew.blockGetV14 0 s
    exact ⟨0, _, hget⟩

/-! ## Writing entries -/

theorem successor_below (hat : L.At a e (x :: d)) : L.successor a d = e.hash p := hashAt_suffix hat

theorem overwriteAt_append (before rest : Bytes) {old bytes : Bytes} (h : old.length = bytes.length) :
    overwriteAt (before ++ (old ++ rest)) before.length bytes =
      some (before ++ (bytes ++ rest)) := by
  unfold overwriteAt
  rw [if_pos (by simp [h]), take_left, drop_append, drop_of_length_le (by omega),
    Nat.add_sub_cancel_left, ← h, drop_left, nil_append, append_assoc]

theorem blockSuccessorOffset_append {type : BlockType} {rest : Bytes}
    (hval : value.length = type.size) (hrest : rest.length = Sideband.size type) :
    db.blockSuccessorOffset (value ++ rest).length type = some value.length := by
  have hhas : entryHasSideband (value.length + Sideband.size type) type = true :=
    decide_eq_true (by rw [hval])
  rw [blockSuccessorOffset, length_append, hrest, hhas, Bool.or_true, if_pos rfl, fromEnd,
    if_pos (Nat.le_add_left _ _), Nat.add_sub_cancel]

theorem fillValue_eq (hat : L.At a e (x :: d)) (hleg : x.type ≠ .state)
    (hnew : db.NewEntry L a x d) : db.fillValue p e.block = some db := by
  obtain ⟨v1, hraw⟩ := hnew
  have hprv : e.block.hashables.previous = x.hash p := previous_at hat
  have hv0 : v1 = false := by
    cases v1 with
    | false => rfl
    | true => exact absurd (type_eq_state hraw rfl) hleg
  subst hv0
  obtain ⟨-, hget⟩ := blockRawGet_of_v14 hraw rfl
  have hsize : Sideband.size x.type = SidebandV14.size x.type := by
    unfold Sideband.size SidebandV14.size
    rw [if_neg hleg]
  have hoffset : db.blockSuccessorOffset
      (x.block.serialize ++ (L.sidebandAt a x d).serialize x.type).length x.type =
        some x.block.serialize.length :=
    blockSuccessorOffset_append (Block.length_serialize _)
      ((SidebandV14.length_serialize ..).trans hsize.symm)
  have hdata : overwriteAt (x.block.serialize ++ (L.sidebandAt a x d).serialize x.type)
      x.block.serialize.length (u256.write (p.hash e.block)) =
        some (x.block.serialize ++ (L.sidebandAt a x d).serialize x.type) := by
    have hsucc : (L.sidebandAt a x d).successor = p.hash e.block := successor_below hat
    simp only [SidebandV14.serialize, hsucc, append_assoc]
    exact overwriteAt_append _ _ rfl
  unfold fillValue
  simp only [hprv, hget, bind_eq_bind, bind_some, hoffset, hdata, Option.pure_def,
    blockRawPut_self hget]

theorem blockPredecessorSet_eq (H : HashAssumptions p known) (hat : L.At a e c)
    (hleg : ∀ x d, c = x :: d → x.type ≠ .state)
    (hblw : ∀ x d, c = x :: d → db.NewEntry L a x d) :
    db.blockPredecessorSet p e.block = some db := by
  obtain ⟨amt, epoch, hx⟩ := extends_at hat
  have hfill (hne : c ≠ []) : db.fillValue p e.block = some db := by
    obtain ⟨x, d, rfl⟩ := exists_cons_of_ne_nil hne
    exact fillValue_eq hat (hleg x d rfl) (hblw x d rfl)
  have hopens (ht : e.type ≠ BlockType.open) (hs : e.type ≠ .state) : c ≠ [] := by
    obtain ⟨x, d, rfl, -⟩ := hx.exists_below ht hs
    exact cons_ne_nil x d
  unfold blockPredecessorSet
  unfold Entry.type at hopens
  cases hh : e.block.hashables with
  | openBlock source rep acc => rfl
  | stateBlock acc prev rep bal link =>
    have hprv : prev = headHash p c := by
      have := hx.previous
      rwa [hh] at this
    by_cases hc : c = []
    · simp only [hprv, (headHash_eq_zero H hat).2 hc, if_true]
    · simp only [hprv, mt (headHash_eq_zero H hat).1 hc, if_false]
      exact hfill hc
  | sendBlock | receiveBlock | changeBlock =>
    exact hfill (hopens (by simp [hh, Hashables.type]) (by simp [hh, Hashables.type]))

theorem Upgrading.put (H : HashAssumptions p known) (hdb : db.Upgrading L) (hat : L.At a e c)
    (hraw : db.blockRawGetV14 (e.hash p) = some ⟨e.type, value, v1⟩) :
    let db' := db.blockRawPut (e.hash p)
      ⟨e.type, e.block.serialize ++ (L.sidebandAt a e c).serialize e.type, v1⟩
    db'.Upgrading L ∧ db'.NewEntry L a e c ∧
      ∀ {a' e' c'}, L.At a' e' c' → db.NewEntry L a' e' c' → db'.NewEntry L a' e' c' := by
  intro db'
  have hget := blockRawGetV14_put hraw
    (e.block.serialize ++ (L.sidebandAt a e c).serialize e.type)
  have hnew : db'.NewEntry L a e c := ⟨v1, by rw [hget, if_pos rfl]⟩
  have hkeep {a' e' c'} (hat' : L.At a' e' c') (h : db.NewEntry L a' e' c') :
      db'.NewEntry L a' e' c' := by
    by_cases hhash : e'.hash p = e.hash p
    · obtain ⟨rfl, rfl, rfl⟩ := at_unique H hat' hat hhash
      exact hnew
    · obtain ⟨v1', hraw'⟩ := h
      exact ⟨v1', by rw [hget, if_neg hhash, hraw']⟩
  refine ⟨⟨⟨?_, ?_, ?_, ?_, ?_⟩, ?_⟩, hnew, hkeep⟩
  · rw [blockRawPut_version, hdb.version]
  · unfold HasAccount
    rw [blockRawPut_accountsV0, blockRawPut_accountsV1]
    exact hdb.account
  · unfold HasAccount
    rw [blockRawPut_accountsV0, blockRawPut_accountsV1]
    exact hdb.listed
  · intro hash entry h
    by_cases hhash : hash = e.hash p
    · exact ⟨a, e, c, hat, hhash.symm⟩
    · rw [hget, if_neg hhash] at h
      exact hdb.only h
  · rw [blockRawPut_blocksInfo]
    exact hdb.info
  · intro a' e' c' hat'
    rcases hdb.entry hat' with ⟨v1', hraw'⟩ | h
    · by_cases hhash : e'.hash p = e.hash p
      · obtain ⟨rfl, rfl, rfl⟩ := at_unique H hat' hat hhash
        exact .inr hnew
      · exact .inl ⟨v1', by rw [hget, if_neg hhash, hraw']⟩
    · exact .inr (hkeep hat' h)

end Database

end

end Futurehead
