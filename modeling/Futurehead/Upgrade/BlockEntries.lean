import Futurehead.Upgrade.Sideband

/-!
# Block entries (`block_put`, `block_get`, `block_successor_clear`)

An entry is a block and its sideband, and the type decides which fields of the sideband are written. The
successor is changed in place, at an offset from the end of the entry.
-/

namespace Futurehead

open Wire List Option Finmap BlockType Database

/-! ## Details -/

/-- `std::bitset::set`. -/
def setBit (x : Byte) (i : Nat) (value : Bool) : Byte :=
  if value then x ||| (1 : Byte) <<< i else x &&& ~~~((1 : Byte) <<< i)

def Epoch.ofCode : Nat → Option Epoch
  | 0 => some invalid
  | 1 => some unspecified
  | 2 => some epoch0
  | 3 => some epoch1
  | 4 => some epoch2
  | _ => none

namespace BlockDetails

def packed (details : BlockDetails) : Byte :=
  setBit (setBit (setBit (BitVec.ofNat 8 details.epoch.toNat) 7 details.isSend) 6 details.isReceive) 5
    details.isEpoch

/-- `unpack`. A number that is no epoch has no result. -/
def unpack (packed : Byte) : Option BlockDetails :=
  (Epoch.ofCode (packed &&& 0b00011111).toNat).map fun epoch =>
    ⟨epoch, packed.getLsbD 7, packed.getLsbD 6, packed.getLsbD 5⟩

theorem unpack_packed (details : BlockDetails) : unpack details.packed = some details := by
  obtain ⟨epoch, isSend, isReceive, isEpoch⟩ := details
  cases epoch <;> cases isSend <;> cases isReceive <;> cases isEpoch <;> rfl

end BlockDetails

/-! ## Sidebands -/

/-- `block_sideband`: the fields of version 14, and the details. -/
structure BlockSideband extends SidebandV14 where
  details : BlockDetails := {}
  deriving DecidableEq

namespace BlockSideband

variable (type : BlockType)

def serialize (s : BlockSideband) : Bytes :=
  s.toSidebandV14.serialize type ++ if type = .state then u8.write s.details.packed else []

/-- `deserialize` into a new object. -/
def deserialize : Reader BlockSideband := do
  let s ← ({} : SidebandV14).deserialize type
  let details ← if type = .state then do StateT.lift (BlockDetails.unpack (← u8.read)) else pure {}
  return ⟨s, details⟩

/-- What comes back: a field that is not written has its default, and an open block has height 1. -/
def stored (s : BlockSideband) : BlockSideband :=
  ⟨({} : SidebandV14).overwrite type s.toSidebandV14, if type = .state then s.details else {}⟩

/-- A sideband with nothing in the fields that are not written. -/
structure Possible (s : BlockSideband) : Prop where
  account : type.hasSidebandAccount = false → s.account = 0
  balance : type.hasSidebandBalance = false → s.balance = 0
  height : type.hasSidebandHeight = false → s.height = 1
  details : type ≠ .state → s.details = {}

variable {type} {s : BlockSideband}

theorem length_serialize (s : BlockSideband) : (s.serialize type).length = Sideband.size type := by
  unfold serialize Sideband.size
  rw [length_append, SidebandV14.length_serialize, SidebandV14.size, apply_ite List.length,
    Format.length_write]
  rfl

theorem deserialize_serialize (s : BlockSideband) :
    deserialize type (s.serialize type) = some (s.stored type, []) := by
  unfold deserialize serialize stored
  simp only [bind, StateT.bind, SidebandV14.deserialize_append, bind_some]
  by_cases hsta : type = .state
  · simp only [if_pos hsta, bind, StateT.bind, Format.read_write_nil, bind_some, StateT.lift,
      BlockDetails.unpack_packed]
    rfl
  · simp only [if_neg hsta]
    rfl

theorem serialize_successor (s : BlockSideband) (type : BlockType) : ∃ rest, ∀ successor,
    ({ s with successor } : BlockSideband).serialize type = u256.write successor ++ rest := by
  refine ⟨?rest, fun successor => ?eq⟩
  case eq =>
    simp only [serialize, SidebandV14.serialize, append_assoc]
    exact rfl

theorem stored_of_possible (h : s.Possible type) : s.stored type = s := by
  obtain ⟨⟨successor, account, balance, height, timestamp⟩, details⟩ := s
  obtain ⟨hacc, hbal, hht, hdet⟩ := h
  cases type
  case state => simp_all [stored, SidebandV14.overwrite, hasSidebandAccount,
    hasSidebandBalance, hasSidebandHeight]
  all_goals simp_all [stored, SidebandV14.overwrite, hasSidebandAccount,
    hasSidebandBalance, hasSidebandHeight]

end BlockSideband

/-! ## Entries -/

namespace Database

variable (p : Params) (db : Database) (hash : BlockHash)

def blockPut (b : Block) (sideband : BlockSideband) : Option Database :=
  let type := b.hashables.type
  (db.blockRawPut hash ⟨type, b.serialize ++ sideband.serialize type, false⟩).blockPredecessorSet p b

/-- `block_get`, of an entry with a sideband. -/
def blockGet : Option (Block × BlockSideband) := do
  let (type, value) ← db.blockRawGet hash
  let (block, rest) ← readBlock type value
  if db.fullSideband || entryHasSideband value.length type then
    let (sideband, _) ← BlockSideband.deserialize type rest
    return (block, sideband)
  else none

def blockSuccessor : Option BlockHash :=
  match db.blockRawGet hash with
  | none => some 0
  | some (type, value) => do
    let offset ← db.blockSuccessorOffset value.length type
    let (successor, _) ← u256.read (value.drop offset)
    return successor

/-- The bytes of the successor in an entry are replaced. -/
def patchSuccessor (bytes : Bytes) : Option Database := do
  let (type, value) ← db.blockRawGet hash
  let offset ← db.blockSuccessorOffset value.length type
  let data ← overwriteAt value offset bytes
  return db.blockRawPut hash ⟨type, data, false⟩

def blockSuccessorClear : Option Database := db.patchSuccessor hash (List.replicate 32 0)

theorem fillValue_eq_patch (b : Block) :
    db.fillValue p b = db.patchSuccessor b.hashables.previous (u256.write (p.hash b)) := rfl

def Stored (b : Block) (sideband : BlockSideband) : Prop :=
  db.blockRawGet hash = some (b.hashables.type, b.serialize ++ sideband.serialize b.hashables.type)

variable {p db hash} {b : Block} {sideband : BlockSideband}

namespace Stored

theorem offset : db.blockSuccessorOffset (b.serialize ++ sideband.serialize b.hashables.type).length
    b.hashables.type = some b.serialize.length :=
  blockSuccessorOffset_append (Block.length_serialize b) sideband.length_serialize

theorem blockGet (h : db.Stored hash b sideband) :
    db.blockGet hash = some (b, sideband.stored b.hashables.type) := by
  have hhas : entryHasSideband (b.serialize ++ sideband.serialize b.hashables.type).length
      b.hashables.type = true := by
    rw [length_append, Block.length_serialize, BlockSideband.length_serialize]
    exact decide_eq_true rfl
  unfold Database.blockGet
  rw [h]
  simp only [bind_eq_bind, bind_some, readBlock_serialize, hhas, Bool.or_true, if_true,
    BlockSideband.deserialize_serialize]
  rfl

theorem blockSuccessor (h : db.Stored hash b sideband) :
    db.blockSuccessor hash = some sideband.successor := by
  obtain ⟨rest, hrest⟩ := sideband.serialize_successor b.hashables.type
  have hserialize : sideband.serialize b.hashables.type = _ := hrest sideband.successor
  unfold Database.blockSuccessor
  rw [h]
  simp only [offset, bind_eq_bind, bind_some, drop_left]
  rw [hserialize, Format.read_write]
  rfl

theorem patchSuccessor (h : db.Stored hash b sideband) (successor : BlockHash) :
    ∃ db', db.patchSuccessor hash (u256.write successor) = some db' ∧
      (∀ k, db'.blockRawGet k = if k = hash then some (b.hashables.type, b.serialize ++
        ({ sideband with successor } : BlockSideband).serialize b.hashables.type)
        else db.blockRawGet k) := by
  have hdata : overwriteAt (b.serialize ++ sideband.serialize b.hashables.type) b.serialize.length
      (u256.write successor) = some (b.serialize ++
        ({ sideband with successor } : BlockSideband).serialize b.hashables.type) := by
    obtain ⟨rest, hrest⟩ := sideband.serialize_successor b.hashables.type
    rw [show sideband.serialize b.hashables.type = _ from hrest sideband.successor, hrest]
    exact overwriteAt_append _ _ (by simp)
  refine ⟨_, ?_, blockRawGet_insert h _⟩
  unfold Database.patchSuccessor
  rw [h]
  simp only [offset, hdata, bind_eq_bind, bind_some]
  rfl

end Stored

end Database

/-! ## Sequences -/

/-- The block whose successor `block_predecessor_set` sets. -/
def Block.predecessor (b : Block) : Option BlockHash :=
  match b.hashables with
  | .openBlock .. => none
  | .stateBlock _ previous _ _ _ => if previous = 0 then none else some previous
  | h => some h.previous

inductive SuccessorCall where
  | predecessorSet (b : Block)
  | successorClear (hash : BlockHash)

namespace SuccessorCall

variable (p : Params)

def exec (db : Database) : SuccessorCall → Option Database
  | predecessorSet b => db.blockPredecessorSet p b
  | successorClear hash => db.blockSuccessorClear hash

def target : SuccessorCall → Option BlockHash
  | predecessorSet b => b.predecessor
  | successorClear hash => some hash

def value : SuccessorCall → BlockHash
  | predecessorSet b => p.hash b
  | successorClear _ => 0

/-- The last successor that a list of calls gives to an entry. -/
def last (hash : BlockHash) (calls : List SuccessorCall) (successor : BlockHash) : BlockHash :=
  calls.foldl (fun successor call => if call.target = some hash then call.value p else successor)
    successor

variable {p} {db : Database}

theorem blockPredecessorSet_eq_patch (b : Block) : db.blockPredecessorSet p b =
    b.predecessor.elim (some db) fun previous => db.patchSuccessor previous (u256.write (p.hash b)) := by
  unfold blockPredecessorSet Block.predecessor
  cases hb : b.hashables with
  | openBlock source rep account => rfl
  | stateBlock account previous rep balance link =>
    dsimp only
    split
    · rfl
    · rw [fillValue_eq_patch, hb]
      rfl
  | sendBlock | receiveBlock | changeBlock =>
    rw [fillValue_eq_patch, hb]
    rfl

theorem exec_eq (call : SuccessorCall) : call.exec p db =
    call.target.elim (some db) fun hash => db.patchSuccessor hash (u256.write (call.value p)) := by
  cases call with
  | predecessorSet b => exact blockPredecessorSet_eq_patch b
  | successorClear hash =>
    have hzero : u256.write 0 = List.replicate 32 0 := by decide +kernel
    exact congrArg (db.patchSuccessor hash) hzero.symm

variable {content : BlockHash → Option (Block × BlockSideband)}

theorem exec_spec
    (hst : ∀ k b sideband, content k = some (b, sideband) → db.Stored k b sideband)
    {call : SuccessorCall} (htgt : ∀ k, call.target = some k → (content k).isSome) :
    ∃ db', call.exec p db = some db' ∧ ∀ k b sideband, content k = some (b, sideband) →
      db'.Stored k b { sideband with
        successor := if call.target = some k then call.value p else sideband.successor } := by
  rw [exec_eq]
  cases hcall : call.target with
  | none => exact ⟨db, rfl, fun k b sideband hk => by simpa using hst k b sideband hk⟩
  | some hash =>
    obtain ⟨⟨b, sideband⟩, hhash⟩ := isSome_iff_exists.1 (htgt hash hcall)
    obtain ⟨db', hpatch, hget⟩ := (hst hash b sideband hhash).patchSuccessor (call.value p)
    refine ⟨db', hpatch, fun k b' sideband' hk => ?_⟩
    unfold Database.Stored
    rw [hget]
    by_cases hkey : k = hash
    · subst hkey
      cases hhash.symm.trans hk
      rw [if_pos rfl, if_pos rfl]
    · rw [if_neg hkey, if_neg (by simpa using Ne.symm hkey)]
      exact hst k b' sideband' hk

theorem run_spec (calls : List SuccessorCall)
    (hst : ∀ k b sideband, content k = some (b, sideband) → db.Stored k b sideband)
    (htargets : ∀ call ∈ calls, ∀ k, call.target = some k → (content k).isSome) :
    ∃ db', calls.foldlM (exec p) db = some db' ∧ ∀ k b sideband, content k = some (b, sideband) →
      db'.Stored k b { sideband with successor := last p k calls sideband.successor } := by
  induction calls generalizing db content with
  | nil => exact ⟨db, rfl, hst⟩
  | cons call calls ih =>
    obtain ⟨htgt, htargets⟩ := forall_mem_cons.1 htargets
    obtain ⟨db1, hexec, hst1⟩ := exec_spec (p := p) hst htgt
    obtain ⟨db', hrun, hst'⟩ := @ih db1 (fun k => (content k).map fun x =>
        (x.1, { x.2 with successor := if call.target = some k then call.value p else x.2.successor }))
      (fun k b sideband hk => by
        obtain ⟨⟨b', sideband'⟩, hk', heq⟩ := map_eq_some_iff.1 hk
        cases heq
        exact hst1 k b' sideband' hk')
      (fun call' hcall' k hk => by
        rw [isSome_map]
        exact htargets call' hcall' k hk)
    refine ⟨db', ?_, fun k b sideband hk => ?_⟩
    · rw [foldlM_cons, hexec]
      exact hrun
    · exact hst' k b { sideband with
        successor := if call.target = some k then call.value p else sideband.successor } (by
          rw [hk]
          rfl)

end SuccessorCall

theorem Database.blockRawGet_put {db : Database} {hash : BlockHash} {type : BlockType} (value : Bytes)
    (hfresh : ∀ t, t ≠ type → db.blocks.lookup (t, hash) = none) (k : BlockHash) :
    (db.blockRawPut hash ⟨type, value, false⟩).blockRawGet k =
      if k = hash then some (type, value) else db.blockRawGet k := by
  unfold blockRawPut blockRawGet
  by_cases hk : k = hash
  · subst hk
    have hlk (t : BlockType) : (db.blocks.insert (type, k) value).lookup (t, k) =
        if t = type then some value else none := by
      rw [Finmap.lookup_insert_eq]
      by_cases ht : t = type
      · simp [ht]
      · simp [ht, hfresh t ht]
    rw [if_neg Bool.false_ne_true, if_pos rfl]
    simp only [hlk]
    cases type <;> rfl
  · rw [if_neg Bool.false_ne_true, if_neg hk]
    simp only [Finmap.lookup_insert_eq, Prod.mk.injEq, hk, and_false, if_false]

theorem Database.blockPut_spec {p : Params} {db : Database} {hash : BlockHash} {b : Block}
    (sideband : BlockSideband)
    (hfresh : ∀ type, type ≠ b.hashables.type → db.blocks.lookup (type, hash) = none)
    (hprv : ∀ previous, b.predecessor = some previous →
      previous ≠ hash ∧ ∃ b' sideband', db.Stored previous b' sideband') :
    ∃ db', db.blockPut p hash b sideband = some db' ∧ db'.Stored hash b sideband := by
  have hget := blockRawGet_put (b.serialize ++ sideband.serialize b.hashables.type) hfresh
  have hself : (db.blockRawPut hash ⟨b.hashables.type, b.serialize ++
      sideband.serialize b.hashables.type, false⟩).Stored hash b sideband :=
    (hget hash).trans (if_pos rfl)
  unfold blockPut
  dsimp only
  rw [SuccessorCall.blockPredecessorSet_eq_patch]
  cases hb : b.predecessor with
  | none => exact ⟨_, rfl, hself⟩
  | some previous =>
    obtain ⟨hne, b', sideband', hst⟩ := hprv previous hb
    have hkept : (db.blockRawPut hash ⟨b.hashables.type, b.serialize ++
        sideband.serialize b.hashables.type, false⟩).Stored previous b' sideband' :=
      (hget previous).trans ((if_neg hne).trans hst)
    obtain ⟨db', hpatch, hget'⟩ := hkept.patchSuccessor (p.hash b)
    exact ⟨db', hpatch, ((hget' hash).trans (if_neg hne.symm)).trans hself⟩

/-- A block and its sideband are read back from the entry that was put, and after any calls that change
successors they are read back with the last one. -/
theorem block_entries_faithful (p : Params) (db : Database) :
    (∀ details : BlockDetails, BlockDetails.unpack details.packed = some details) ∧
    (∀ hash b sideband,
      (∀ type, type ≠ b.hashables.type → db.blocks.lookup (type, hash) = none) →
      (∀ previous, b.predecessor = some previous →
        previous ≠ hash ∧ ∃ b' sideband', db.Stored previous b' sideband') →
      ∃ db', db.blockPut p hash b sideband = some db' ∧
        db'.blockGet hash = some (b, sideband.stored b.hashables.type) ∧
        (sideband.Possible b.hashables.type → db'.blockGet hash = some (b, sideband))) ∧
    ∀ (content : BlockHash → Option (Block × BlockSideband)) calls,
      (∀ k b sideband, content k = some (b, sideband) →
        sideband.Possible b.hashables.type ∧ db.Stored k b sideband) →
      (∀ call ∈ calls, ∀ k, SuccessorCall.target call = some k → (content k).isSome) →
      ∃ db', calls.foldlM (SuccessorCall.exec p) db = some db' ∧
        ∀ k b sideband, content k = some (b, sideband) →
          db'.blockGet k =
            some (b, { sideband with successor := SuccessorCall.last p k calls sideband.successor }) ∧
          db'.blockSuccessor k = some (SuccessorCall.last p k calls sideband.successor) := by
  refine ⟨BlockDetails.unpack_packed, fun hash b sideband hfresh hprv => ?_,
    fun content calls hst htargets => ?_⟩
  · obtain ⟨db', hput, hst⟩ := blockPut_spec (p := p) sideband hfresh hprv
    exact ⟨db', hput, hst.blockGet, fun hpossible => by
      rw [hst.blockGet, BlockSideband.stored_of_possible hpossible]⟩
  · obtain ⟨db', hrun, hst'⟩ := SuccessorCall.run_spec (p := p) calls
      (fun k b sideband hk => (hst k b sideband hk).2) htargets
    refine ⟨db', hrun, fun k b sideband hk => ⟨?_, (hst' k b sideband hk).blockSuccessor⟩⟩
    obtain ⟨hacc, hbal, hht, hdet⟩ := (hst k b sideband hk).1
    rw [(hst' k b sideband hk).blockGet, BlockSideband.stored_of_possible]
    exact ⟨hacc, hbal, hht, hdet⟩

open Sample

namespace Sample

def emptyDatabase : Database := ⟨18, .empty, .empty, ∅, ∅, ∅, ∅⟩

/-- A block that follows the one with the hash 1. -/
def spendFirst : Block := ⟨.sendBlock 1 12 3, 7, 8⟩

end Sample

/-- Two blocks are put one after the other. On the first, the second is set as the successor, taken
back, and set again. -/
theorem block_entries_faithful_genesis :
    ∃ db, emptyDatabase.blockPut byteParams 1 byteParams.genesisBlock
        { balance := 5, height := 1 } = some db ∧
      (∃ db', db.blockPut byteParams 2 spendFirst { account := 1, height := 2 } = some db' ∧
        db'.blockGet 2 = some (spendFirst, { account := 1, height := 2 })) ∧
      ∃ db', [SuccessorCall.predecessorSet spendFirst, .successorClear 1,
          .predecessorSet spendFirst].foldlM (SuccessorCall.exec byteParams) db = some db' ∧
        db'.blockSuccessor 1 = some (byteParams.hash spendFirst) := by
  obtain ⟨db, hput, hst⟩ : ∃ db, emptyDatabase.blockPut byteParams 1 byteParams.genesisBlock
      { balance := 5, height := 1 } = some db ∧ db.Stored 1 _ _ :=
    blockPut_spec _ (fun _ _ => lookup_empty _) (fun _ h => by cases h)
  have hfresh : ∀ type, type ≠ spendFirst.hashables.type → db.blocks.lookup (type, 2) = none := by
    obtain rfl := Option.some.inj hput
    exact fun type _ => (lookup_insert_of_ne _ (by simp)).trans (lookup_empty _)
  have hprv : ∀ previous, spendFirst.predecessor = some previous →
      previous ≠ 2 ∧ ∃ b sideband, db.Stored previous b sideband := by
    intro previous h
    obtain rfl := Option.some.inj h
    exact ⟨by decide, _, _, hst⟩
  have hpossible : ({ balance := 5, height := 1 } : BlockSideband).Possible .open :=
    ⟨fun _ => rfl, by decide, fun _ => rfl, fun _ => rfl⟩
  have hsend : ({ account := 1, height := 2 } : BlockSideband).Possible .send :=
    ⟨fun h => (by cases h), fun _ => rfl, fun h => (by cases h), fun _ => rfl⟩
  have htgt : (SuccessorCall.predecessorSet spendFirst).target = some 1 := rfl
  obtain ⟨-, hent, hcs⟩ := block_entries_faithful byteParams db
  obtain ⟨db2, hput2, -, hget2⟩ := hent 2 spendFirst { account := 1, height := 2 } hfresh hprv
  obtain ⟨db3, hrun, hsucc⟩ := hcs
    (fun k => if k = 1 then some (byteParams.genesisBlock, { balance := 5, height := 1 }) else none)
    [.predecessorSet spendFirst, .successorClear 1, .predecessorSet spendFirst]
    (fun k b sideband hk => by
      obtain ⟨rfl, hk⟩ := ite_none_right_eq_some.1 hk
      obtain ⟨rfl, rfl⟩ := Prod.mk.inj (Option.some.inj hk)
      exact ⟨hpossible, hst⟩)
    (fun call hcall k hk => by
      have hone : call.target = some 1 := by
        simp only [mem_cons, not_mem_nil, or_false] at hcall
        rcases hcall with rfl | rfl | rfl
        · exact htgt
        · rfl
        · exact htgt
      obtain rfl := Option.some.inj (hone.symm.trans hk)
      rw [if_pos rfl]
      rfl)
  refine ⟨db, hput, ⟨db2, hput2, hget2 hsend⟩, db3, hrun, ?_⟩
  rw [(hsucc 1 _ _ (if_pos rfl)).2]
  simp [SuccessorCall.last, htgt, SuccessorCall.value]

end Futurehead
