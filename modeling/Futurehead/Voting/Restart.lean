import Futurehead.Ledger.Rework
import Futurehead.Voting.Dropped

/-!
# Restarted elections (`active_transactions::restart`)

A block that comes again with better work restarts the election of the stored block, if that was
dropped not long ago. The stored block gets the new work, so that the same work does not restart the
election again. It is written with `block_put`, which also makes it the successor of its previous
block: it is that already, so the previous block stays as it is.
-/

namespace Futurehead

open List Option Finmap Ledger Futurehead.Lattice Entry

variable {hash : BlockHash} {stored : StoredBlock}

/-- What `active_transactions::restart` reads besides the ledger. -/
structure RestartView where
  recentlyDropped : DroppedElections
  now : Nat
  /-- `confirmation_height_processor::is_processing_block`. -/
  processing : BlockHash → Bool

def Ledger.blockConfirmedOrBeingConfirmed (l : Ledger) (processing : BlockHash → Bool)
    (hash : BlockHash) : Option Bool :=
  if processing hash then some true else l.blockConfirmed hash

/-- `active_transactions::restart` up to the insertion of the election: the ledger, and the block and
the previous balance that go to `insert`. -/
def Ledger.restartElection (p : Params) (view : RestartView) (l : Ledger) (b : Block) :
    Option (Ledger × Option (Block × Amount)) :=
  if view.recentlyDropped.restartable b.hashables.qualifiedRoot view.now then
    let hash := p.hash b
    match l.blockGet hash with
    | none => some (l, none)
    | some ledgerBlock =>
      if ledgerBlock.block.work ≠ b.work then do
        let confirmed ← l.blockConfirmedOrBeingConfirmed view.processing hash
        if !confirmed && decide (p.difficulty ledgerBlock.block < p.difficulty b) then
          -- the existing block is written again, not the arriving one
          let block := { ledgerBlock.block with work := b.work }
          let l ← l.blockPut hash block ledgerBlock.sideband
          let previousBalance ← l.balance block.hashables.previous
          return (l, some (block, previousBalance))
        else return (l, none)
      else some (l, none)
  else some (l, none)

def Ledger.rework (l : Ledger) (hash : BlockHash) (stored : StoredBlock) (work : BitVec 64) : Ledger :=
  let reworked : StoredBlock := ⟨{ stored.block with work := work }, stored.sideband⟩
  { l with blocks := l.blocks.insert (stored.block.hashables.type, hash) reworked }

variable {p : Params} {known : Block → Prop} {L : Lattice p known} {l : Ledger} {a : Account}
  {e : Entry} {c : List Entry}

theorem blockRawGet_rework {hash' : BlockHash} (hne : hash' ≠ hash) (stored : StoredBlock)
    (work : BitVec 64) : (l.rework hash stored work).blockRawGet hash' = l.blockRawGet hash' := by
  simp only [Ledger.blockRawGet, Ledger.rework, findSome?_cons, Finmap.lookup_insert_eq,
    Prod.mk.injEq, hne, and_false, if_false]

theorem blockSuccessorSet_self {successor : BlockHash} {type : BlockType} {b : StoredBlock}
    (hraw : l.blockRawGet hash = some (type, b)) (hlk : l.blocks.lookup (type, hash) = some b)
    (hsucc : b.sideband.successor = successor) : l.blockSuccessorSet hash successor = some l := by
  subst hsucc
  unfold blockSuccessorSet
  rw [hraw, map_some]
  have hsame : l.blocks.insert (type, hash) b = l.blocks := Finmap.insert_of_lookup hlk
  simp only [hsame]

section

variable (H : HashAssumptions p known) (hb : BlocksRep p l.blocks L.chain)

include H

theorem hash_below_ne {x : Entry} {d : List Entry} (hat : L.At a e (x :: d)) :
    x.hash p ≠ e.hash p := by
  intro heq
  obtain ⟨-, -, hlist⟩ := at_unique H hat.below hat heq
  exact absurd (congrArg List.length hlist) (by simp)

include hb

theorem blockSuccessorSet_rework {x : Entry} {d : List Entry} (hat : L.At a e (x :: d))
    (stored : StoredBlock) (work : BitVec 64) :
    (l.rework (e.hash p) stored work).blockSuccessorSet (x.hash p) (e.hash p) =
      some (l.rework (e.hash p) stored work) := by
  have hne := hash_below_ne H hat
  have hraw := blockRawGet_at H hb hat.below
  have hlk := hb.stored hat.below
  have hraw' := (blockRawGet_rework hne stored work).trans hraw
  refine blockSuccessorSet_self hraw' ?_ ?_
  · unfold Ledger.rework
    rw [Finmap.lookup_insert_eq, if_neg (by simp [hne])]
    exact hlk
  · have hsucc : L.chain.successor p a d = e.hash p := hashAt_suffix hat
    rw [hsucc]
    unfold Entry.stored Entry.sideband
    cases x.type <;> rfl

theorem blockPut_work (hat : L.At a e c)
    (hget : l.blockGet (e.hash p) = some stored) (work : BitVec 64) :
    l.blockPut (e.hash p) { stored.block with work := work } stored.sideband =
      some (l.rework (e.hash p) stored work) := by
  rw [blockGet_at H hb hat] at hget
  cases hget
  have hprv := previous_at hat
  have hset (hc : c ≠ []) : (l.rework (e.hash p) (e.stored a c (L.chain.successor p a c))
      work).blockSuccessorSet e.block.hashables.previous (e.hash p) =
        some (l.rework (e.hash p) (e.stored a c (L.chain.successor p a c)) work) := by
    obtain ⟨x, d, rfl⟩ := exists_cons_of_ne_nil hc
    rw [hprv]
    exact blockSuccessorSet_rework H hb hat _ work
  have hopens (ht : e.type ≠ BlockType.open) (hs : e.type ≠ .state) : c ≠ [] := by
    obtain ⟨amount, epoch, hx⟩ := extends_at hat
    intro hc
    exact (hx.opens hc).elim ht hs
  obtain ⟨⟨hashables, signature, oldWork⟩, balance, details⟩ := e
  cases hashables with
  | openBlock source rep account => rfl
  | stateBlock account previous rep amount link =>
    by_cases hc : c = []
    · have hzero : previous = 0 := hprv.trans ((headHash_eq_zero H hat).2 hc)
      exact if_pos hzero
    · have hne : previous ≠ 0 := fun h => hc ((headHash_eq_zero H hat).1 (hprv.symm.trans h))
      exact (if_neg hne).trans (hset hc)
  | sendBlock | receiveBlock | changeBlock =>
    exact hset (hopens (by simp [Entry.type, Hashables.type]) (by simp [Entry.type, Hashables.type]))

end

section

variable (H : HashAssumptions p known) {shift : Account → Amount} (h : Represents l L shift)

include h

theorem exists_confirmationHeight (hat : L.At a e c) :
    ∃ info, l.confirmationHeightGet a = some info := by
  have hch : L.chain a ≠ [] :=
    ne_nil_of_length_pos (Nat.lt_of_lt_of_le (Nat.succ_pos _) hat.length_le)
  exact mem_iff.1 ((h.confirmation a).2 hch)

include H

theorem blockConfirmed_at (hat : L.At a e c) {info : ConfirmationHeightInfo}
    (hinfo : l.confirmationHeightGet a = some info) :
    l.blockConfirmed (e.hash p) = some (decide (c.length + 1 ≤ info.height)) := by
  unfold blockConfirmed
  rw [blockAccountHeight_at H h.blocks hat, account_at H h.blocks hat]
  simp only [bind_eq_bind, bind_some, Nat.succ_pos, if_true, hinfo]

theorem lookup_of_blockGet
    (hget : l.blockGet hash = some stored) :
    ∃ a e c, L.At a e c ∧ e.hash p = hash ∧ stored.block = e.block ∧
      l.blocks.lookup (stored.block.hashables.type, hash) = some stored := by
  obtain ⟨a, e, c, hat, rfl⟩ := at_of_blockGet h.blocks hget
  rw [blockGet_at H h.blocks hat] at hget
  cases hget
  exact ⟨a, e, c, hat, rfl, rfl, h.blocks.stored hat⟩

theorem balance_rework (hat : L.At a e c) (stored : StoredBlock) (work : BitVec 64) :
    (l.rework (e.hash p) stored work).balance e.block.hashables.previous = some (chainBal c) := by
  rw [previous_at hat]
  have hblw := balance_below H h.blocks hat
  cases c with
  | nil => exact hblw
  | cons x d =>
    have hraw : (l.rework (e.hash p) stored work).blockRawGet (x.hash p) = l.blockRawGet (x.hash p) :=
      blockRawGet_rework (hash_below_ne H hat) stored work
    unfold Ledger.balance blockBalance Ledger.blockGet at hblw ⊢
    simp only [headHash] at hblw ⊢
    rwa [hraw]

end

/-- What a restart does to a ledger with well-formed chains: nothing, or it replaces the work of a
stored block that is not cemented by one of a higher difficulty. -/
structure Reworks (p : Params) (l : Ledger) (b : Block) (l' : Ledger) (stored : StoredBlock) : Prop where
  lookup : l.blocks.lookup (stored.block.hashables.type, p.hash b) = some stored
  uncemented : l.blockConfirmed (p.hash b) = some false
  hash : p.hash { stored.block with work := b.work } = p.hash b
  difficulty : p.difficulty stored.block < p.difficulty { stored.block with work := b.work }
  ledger : l' = l.rework (p.hash b) stored b.work

theorem restartElection_spec (H : HashAssumptions p known) (hrep : Represents l L fun _ => 0)
    {b : Block} (hb : known b) (view : RestartView) :
    ∃ l' inserted, l.restartElection p view b = some (l', inserted) ∧
      (l' = l ∨ ∃ stored, Reworks p l b l' stored) := by
  unfold restartElection
  split
  · cases hget : l.blockGet (p.hash b) with
    | none => exact ⟨l, none, by simp only [hget], .inl rfl⟩
    | some stored =>
      obtain ⟨a, e, c, hat, hhash, hblk, hlk⟩ := lookup_of_blockGet H hrep hget
      obtain ⟨confirmed, hconf⟩ : ∃ confirmed,
          l.blockConfirmedOrBeingConfirmed view.processing (p.hash b) = some confirmed := by
        unfold blockConfirmedOrBeingConfirmed
        split
        · exact ⟨true, rfl⟩
        · obtain ⟨info, hinfo⟩ := exists_confirmationHeight hrep hat
          exact ⟨_, hhash ▸ blockConfirmed_at H hrep hat hinfo⟩
      have hput := blockPut_work H hrep.blocks hat (hhash ▸ hget) b.work
      have hbal := balance_rework H hrep hat stored b.work
      rw [hhash] at hput hbal
      rw [hblk] at hput
      simp only [hget, hconf, bind_eq_bind, bind_some, hput, hblk, hbal, Option.pure_def]
      by_cases hrst : e.block.work ≠ b.work ∧ (!confirmed &&
          decide (p.difficulty e.block < p.difficulty b)) = true
      · rw [if_pos hrst.1, if_pos hrst.2]
        obtain ⟨hnot, hhigher⟩ := Bool.and_eq_true_iff.1 hrst.2
        have hroot : e.block.hashables.root = b.hashables.root :=
          congrArg QualifiedRoot.root (Hashables.qualifiedRoot_of_hashInput
            (H.collisionFree (L.known_at hat) hb hhash))
        refine ⟨_, _, rfl, .inr ⟨stored, hlk, ?_, ?_, ?_, rfl⟩⟩
        · rw [Bool.not_eq_true'] at hnot
          subst hnot
          unfold blockConfirmedOrBeingConfirmed at hconf
          split at hconf
          · cases hconf
          · exact hconf
        · rw [← hhash, hblk]
          rfl
        · rw [hblk]
          refine (of_decide_eq_true hhigher).trans_eq ?_
          unfold Params.difficulty
          rw [hroot]
      · refine ⟨l, none, ?_, .inl rfl⟩
        by_cases hwork : e.block.work ≠ b.work
        · rw [if_pos hwork, if_neg fun hall => hrst ⟨hwork, hall⟩]
        · rw [if_neg hwork]
  · exact ⟨l, none, rfl, .inl rfl⟩

/-! ## Runs -/

def Entry.rework (p : Params) (hash : BlockHash) (work : BitVec 64) (e : Entry) : Entry :=
  if e.hash p = hash then { e with block := { e.block with work := work } } else e

theorem Entry.rework_sameFields (p : Params) (hash : BlockHash) (work : BitVec 64) :
    SameFields (Entry.rework p hash work) where
  hashables e := by unfold Entry.rework; split <;> rfl
  balance e := by unfold Entry.rework; split <;> rfl
  details e := by unfold Entry.rework; split <;> rfl

theorem blocksRep_rework (H : HashAssumptions p known) (hb : BlocksRep p l.blocks L.chain)
    (hat : L.At a e c) (hget : l.blockGet (e.hash p) = some stored)
    (work : BitVec 64) :
    BlocksRep p (l.rework (e.hash p) stored work).blocks
      (L.chain.map (Entry.rework p (e.hash p) work)) := by
  have hf := rework_sameFields p (e.hash p) work
  rw [blockGet_at H hb hat] at hget
  cases hget
  refine ⟨fun hat' => ?_, fun {k b} hlk => ?_⟩
  · obtain ⟨x, d, hx, rfl, rfl⟩ := Chains.at_map.1 hat'
    have hst := hb.stored hx
    rw [key_eq, hf.hash_eq, hf.type_eq]
    unfold Ledger.rework
    rw [Finmap.lookup_insert_eq]
    have hsucc {y : Account} : (L.chain.map (Entry.rework p (e.hash p) work)).successor p y
        (d.map (Entry.rework p (e.hash p) work)) = L.chain.successor p y d := by
      rw [Chains.successor, Chains.successor, length_map]
      exact hf.hashAt_eq _ _
    by_cases hhash : x.hash p = e.hash p
    · obtain ⟨rfl, rfl, rfl⟩ := at_unique H hx hat hhash
      refine (if_pos rfl).trans (congrArg some ?_)
      simp only [hsucc, Entry.stored, Entry.sideband, hf.balance, hf.details, hf.type_eq,
        length_map]
      simp only [Entry.rework, if_true]
    · have hsame : Entry.rework p (e.hash p) work x = x := if_neg hhash
      rw [if_neg (fun h => hhash (congrArg Prod.snd h)), hsucc, hsame]
      rw [Entry.stored, Entry.sideband, length_map]
      exact hst
  · unfold Ledger.rework at hlk
    rw [Finmap.lookup_insert_eq] at hlk
    split at hlk
    · rename_i hk
      refine ⟨a, _, _, Chains.at_map.2 ⟨e, c, hat, rfl, rfl⟩, ?_⟩
      rw [hk, key_eq, hf.hash_eq, hf.type_eq]
      rfl
    · obtain ⟨y, x, d, hx, hk⟩ := hb.only hlk
      refine ⟨y, _, _, Chains.at_map.2 ⟨x, d, hx, rfl, rfl⟩, ?_⟩
      rw [hk, key_eq, key_eq, hf.hash_eq, hf.type_eq]

theorem holds_rework {L : Lattice p (FieldsKnown known)} (H : HashAssumptions p (FieldsKnown known))
    (h : Holds l L)
    (hlk : l.blocks.lookup (stored.block.hashables.type, hash) = some stored) (work : BitVec 64) :
    ∃ L' : Lattice p (FieldsKnown known), Holds (l.rework hash stored work) L' := by
  obtain ⟨a, e, c, hat, hkey⟩ := h.represents.blocks.only hlk
  obtain rfl : hash = e.hash p := congrArg Prod.snd hkey
  have hget : l.blockGet (e.hash p) = some stored := by
    rw [blockGet_at H h.represents.blocks hat, ← h.represents.blocks.stored hat, ← hkey, hlk]
  refine ⟨_, Holds.map (rework_sameFields p (e.hash p) work) h (fun {y x d} hx => ?_)
    (blocksRep_rework H h.represents.blocks hat hget work) ?_⟩
  · obtain ⟨b, hb, hflds⟩ := L.known_at hx
    exact ⟨b, hb, hflds.trans ((rework_sameFields p (e.hash p) work).hashables x).symm⟩
  · have hoth (k : BlockType × BlockHash) (hk : k ≠ (stored.block.hashables.type, e.hash p)) :
        (l.rework (e.hash p) stored work).blocks.lookup k = l.blocks.lookup k := by
      rw [Ledger.rework, Finmap.lookup_insert_eq, if_neg hk]
    have hcard := Finmap.card_keys_of_lookup_ne _ hoth
    rw [if_pos (mem_of_lookup_eq_some hlk),
      if_pos (by rw [Ledger.rework]; exact mem_insert.2 (.inl rfl))] at hcard
    exact Nat.add_right_cancel hcard

/-- What happens to the ledger of a node that restarts elections. -/
inductive RestartAction where
  | ledger (action : Action)
  | restart (view : RestartView) (b : Block)

inductive RestartStep (p : Params) : Ledger → RestartAction → Ledger → Prop
  | ledger {l l' : Ledger} {action : Action} (h : Step p l action l') :
      RestartStep p l (.ledger action) l'
  | restart {l l' : Ledger} {view : RestartView} {b : Block} {inserted : Option (Block × Amount)}
      (h : l.restartElection p view b = some (l', inserted)) : RestartStep p l (.restart view b) l'

/-- Blocks are known, and none of them is a foreign epoch block. -/
def RestartAction.Allowed (p : Params) (known : Block → Prop) (l : Ledger) : RestartAction → Prop
  | .ledger action => action.Given known ∧ NoForeignEpoch p l action
  | .restart _ b => known b

/-- The ledger is reached from genesis by the actions of the ledger and by restarts. -/
def RestartReached (p : Params) (known : Block → Prop) (l : Ledger) : Prop :=
  ∃ l0, Ledger.genesis p = some l0 ∧ Reaches (RestartStep p) (RestartAction.Allowed p known) l0 l

theorem RestartReached.of_reached (hl : Reached p known (NoForeignEpoch p) l) :
    RestartReached p known l := by
  obtain ⟨l0, hgen, hrun⟩ := hl
  refine ⟨l0, hgen, ?_⟩
  induction hrun with
  | refl => exact .refl
  | @tail t t' action _ hok hstep ih =>
    have hallowed : (RestartAction.ledger action).Allowed p known t := hok
    exact ih.tail hallowed (.ledger hstep)

theorem RestartReached.holds (H : HashAssumptions p known) (hl : RestartReached p known l) :
    ∃ L : Lattice p (FieldsKnown known), Holds l L := by
  obtain ⟨l0, hgen, hrun⟩ := hl
  refine hrun.invariant (I := fun l => ∃ L : Lattice p (FieldsKnown known), Holds l L)
    ⟨_, genesis_holds H.fieldsKnown hgen⟩ ?_
  rintro l action l' ⟨L, h⟩ hok hstep
  cases hstep with
  | @ledger _ action hstep =>
    refine holds_of_step H.fieldsKnown h ?_ hok.2 hstep
    cases action with
    | process b verification => exact .of_known hok.1
    | rollback hash => trivial
    | cement account info => trivial
  | @restart _ view b inserted hrst =>
    obtain ⟨l'', inserted', hrun', hspec⟩ :=
      restartElection_spec H.fieldsKnown h.represents (.of_known hok) view
    rw [hrst] at hrun'
    cases hrun'
    rcases hspec with rfl | ⟨stored, hrework⟩
    · exact ⟨L, h⟩
    · rw [hrework.ledger]
      exact holds_rework H.fieldsKnown h hrework.lookup b.work

/-- On every ledger that is reached from genesis a restart has a result. It leaves the ledger alone,
or gives a stored block that is not cemented work of a higher difficulty. The hash of the block, its
fields, its signature and its sideband stay, and so does all the rest of the ledger. -/
theorem restart_rewrites_work (H : HashAssumptions p known) (hl : RestartReached p known l) {b : Block}
    (hb : known b) (view : RestartView) :
    ∃ l' inserted, l.restartElection p view b = some (l', inserted) ∧
      (l' = l ∨ ∃ stored, Reworks p l b l' stored) := by
  obtain ⟨L, h⟩ := hl.holds H
  exact restartElection_spec H.fieldsKnown h.represents (.of_known hb) view

namespace Sample

/-- The network in which the value of a work is the work. -/
def workParams : Params := { params with workValue := fun _ work => work.toNat }

def workedSend : Block := { sendZero with work := 5 }

def workBlocks : List Block := [workParams.genesisBlock, sendZero, workedSend]

theorem workAssumptions : HashAssumptions workParams (· ∈ workBlocks) :=
  hashAssumptions_of_list (by decide +kernel) (by decide) (by decide +kernel)

/-- The election of the send was dropped a second ago. -/
def droppedView : RestartView where
  recentlyDropped := .run [.add sendZero.hashables.qualifiedRoot 1000000000]
  now := 2000000000
  processing := fun _ => false

def workRun : Option Ledger :=
  (Ledger.genesis workParams).bind (Ledger.execAll workParams 20 [put sendZero])

end Sample

open Sample

/-- The restart of a stored send with better work. -/
theorem restart_rewrites_work_send : ∃ l l' inserted, workRun = some l ∧
    l.restartElection workParams droppedView workedSend = some (l', inserted) ∧
    (l'.blockGet (Sample.hash sendZero)).map (·.block) = some workedSend ∧
    (l' = l ∨ ∃ stored, Reworks workParams l workedSend l' stored) := by
  obtain ⟨l, hl, hrst⟩ := bind_eq_some_iff.1 (show workRun.bind (fun l =>
    (l.restartElection workParams droppedView workedSend).map fun r =>
      (r.1.blockGet (Sample.hash sendZero)).map (·.block)) = some (some workedSend) by
    decide +kernel)
  obtain ⟨⟨l', inserted⟩, hrun, hblk⟩ := map_eq_some_iff.1 hrst
  have hrch : RestartReached workParams (· ∈ workBlocks) l :=
    .of_reached (reached_of_no_epochLink (by decide +kernel) hl)
  obtain ⟨l'', inserted', hrun', hspec⟩ := restart_rewrites_work workAssumptions hrch
    (show workedSend ∈ workBlocks by decide +kernel) droppedView
  rw [hrun] at hrun'
  cases hrun'
  exact ⟨l, l', inserted, hl, hrun, hblk, hspec⟩

end Futurehead
