import Futurehead.Ledger.Summation
import Futurehead.Ledger.System

/-!
# Balances worked out again (`summation_visitor` on a ledger)

The sideband of a block has the balance after it. On a ledger of today `summation_visitor` works out
the same balance, and the amount that `ledger::amount` reports, from the blocks alone. The two
stores differ in `block_info_get`, which asks a table that is no longer there: that of RocksDB
reports that there is no entry, and that of LMDB fails a `release_assert`.
-/

namespace Futurehead

open Option

def Ledger.rocksdbStore (l : Ledger) : BlockStore where
  blockGet hash := (l.blockGet hash).map (·.block)
  blockInfoGet _ := some none

def Ledger.lmdbStore (l : Ledger) : BlockStore where
  blockGet hash := (l.blockGet hash).map (·.block)
  blockInfoGet _ := none

section

variable {p : Params} {known : Block → Prop} {l : Ledger} {L : Lattice p known} {a : Account}
  {e : Entry} {c : List Entry}

open Machine SummationFrame SummationVisitor

theorem step_rocksdb_of_lmdb (v v' : SummationVisitor) (h : step p l.lmdbStore v = some v') :
    step p l.rocksdbStore v = some v' := by
  have hget : l.lmdbStore.blockGet = l.rocksdbStore.blockGet := rfl
  obtain ⟨frames, result⟩ := v
  cases frames with
  | nil => cases h
  | cons f rest =>
    simp only [step, hget] at h ⊢
    split
    · rename_i hawait
      rwa [if_pos hawait] at h
    · rename_i hawait
      rw [if_neg hawait] at h
      cases htype : f.type with
      | amount => simpa only [htype] using h
      | balance =>
        simp only [htype] at h ⊢
        split
        · rename_i hamt
          rwa [if_pos hamt] at h
        · rename_i hamt
          rw [if_neg hamt] at h
          split
          · rename_i hbal
            rw [if_pos hbal] at h
            obtain ⟨b, hb, hvis⟩ := bind_eq_some_iff.1 h
            obtain ⟨x, hx, rfl⟩ := map_eq_some_iff.1 hvis
            have hx' : f.visitBalance (l.rocksdbStore.blockInfoGet (p.hash b)) b.hashables = some x := by
              cases hh : b.hashables <;> rw [hh] at hx
              case receiveBlock => cases hx
              case changeBlock => cases hx
              all_goals exact hx
            rw [hb, bind_some, hx', map_some]
          · rename_i hbal
            rwa [if_neg hbal] at h

theorem computeBalance_lmdb_eq_none {hash : BlockHash} {b : StoredBlock} (hhash : hash ≠ 0)
    (hb : l.blockGet hash = some b)
    (htype : b.block.hashables.type = .receive ∨ b.block.hashables.type = .change) (fuel : Nat) :
    computeBalance p l.lmdbStore fuel hash = none := by
  have hstep : step p l.lmdbStore ⟨[new .balance hash], 0⟩ = none := by
    have hget : l.lmdbStore.blockGet hash = some b.block := by simp [Ledger.lmdbStore, hb]
    simp only [step, new, Bool.false_eq_true, if_false, ne_eq, not_true, hhash, not_false_eq_true,
      if_true, hget, bind_some, map_eq_none_iff]
    cases hh : b.block.hashables <;> simp [hh, Hashables.type] at htype
    case receiveBlock => rfl
    case changeBlock => rfl
  cases fuel with
  | zero => rfl
  | succ fuel =>
    unfold computeBalance computeInternal
    rw [run, if_neg (by simp [done]), hstep]
    rfl

variable (H : HashAssumptions p known)
include H

theorem rocksdbStore_hasBlocks (hb : BlocksRep p l.blocks L.chain) : l.rocksdbStore.HasBlocks L where
  block h := by simp [Ledger.rocksdbStore, blockGet_at H hb h]
  genesisAccount := by
    cases hg : l.blockGet p.genesisAccount with
    | none => simp [Ledger.rocksdbStore, hg]
    | some b =>
      obtain ⟨a, e, c, hat, hhash⟩ := at_of_blockGet hb hg
      exact absurd hhash (H.ne_genesisAccount (L.known_at hat))
  info _ := ⟨none, rfl, nofun⟩

theorem amount_eq_difference (hb : BlocksRep p l.blocks L.chain) (h : L.At a e c) :
    l.amount (e.hash p) = some (difference e.balance (chainBal c)) := by
  obtain ⟨_, _, hx⟩ := Lattice.extends_at h
  unfold Ledger.amount
  rw [blockGet_at H hb h, balance_at H hb h]
  simp only [bind_eq_bind, bind_some, Entry.stored_block, hx.previous,
    balance_below H hb h, difference]
  rcases BitVec.lt_trichotomy e.balance (chainBal c) with hlt | heq | hgt
  · rw [if_neg (by simpa using BitVec.le_of_lt hlt), if_pos hlt]
  · rw [heq, if_neg (BitVec.lt_irrefl _), if_neg (BitVec.lt_irrefl _)]
  · rw [if_pos hgt, if_neg (by simpa using BitVec.le_of_lt hgt)]

/-- In every run without foreign epoch blocks, `compute_balance` and `compute_amount` of a stored
block terminate on a RocksDB store, with the balance that is recorded and the amount that is
reported. On an LMDB store they return nothing else, and the balance of a receive or change block is
not returned at all. -/
theorem summation_visitor_agrees (hl : Reached p known (NoForeignEpoch p) l) {hash : BlockHash}
    {b : StoredBlock} (hb : l.blockGet hash = some b) :
    ∃ balance amount, l.balance hash = some balance ∧ l.amount hash = some amount ∧
      (∃ n, ∀ fuel, n ≤ fuel → computeBalance p l.rocksdbStore fuel hash = some balance) ∧
      (∃ n, ∀ fuel, n ≤ fuel → computeAmount p l.rocksdbStore fuel hash = some amount) ∧
      (∀ fuel value, computeBalance p l.lmdbStore fuel hash = some value → value = balance) ∧
      (∀ fuel value, computeAmount p l.lmdbStore fuel hash = some value → value = amount) ∧
      (b.block.hashables.type = .receive ∨ b.block.hashables.type = .change →
        ∀ fuel, computeBalance p l.lmdbStore fuel hash = none) := by
  obtain ⟨L, h⟩ := hl.holds H
  have hbs := h.represents.blocks
  obtain ⟨a, e, c, hat, rfl⟩ := at_of_blockGet hbs hb
  have hsto := rocksdbStore_hasBlocks H hbs
  have hbal := computeBalance_eq H hsto hat
  have hamt := computeAmount_eq H hsto hat
  have hlmdb {fuel : Nat} {type : SummationType} {value : Amount}
      (hv : computeInternal p l.lmdbStore fuel type (e.hash p) = some value) :
      computeInternal p l.rocksdbStore fuel type (e.hash p) = some value := by
    obtain ⟨v, hrun, rfl⟩ := map_eq_some_iff.1 hv
    unfold computeInternal
    rw [run_of_imp step_rocksdb_of_lmdb le_rfl hrun, map_some]
  refine ⟨e.balance, difference e.balance (chainBal c), balance_at H hbs hat,
    amount_eq_difference H hbs hat, hbal, hamt, ?_, ?_, ?_⟩
  · exact fun fuel value hv => computeInternal_unique hbal (hlmdb hv)
  · exact fun fuel value hv => computeInternal_unique hamt (hlmdb hv)
  · exact fun htype => computeBalance_lmdb_eq_none (Lattice.hash_ne_zero H hat) hb htype

end

open Sample

/-- Both values of the last block of a run in which two accounts receive. -/
theorem summation_visitor_agrees_pays : ∃ l, run pays = some l ∧
    ∃ n, ∀ fuel, n ≤ fuel →
      SummationVisitor.computeBalance params l.rocksdbStore fuel (Sample.hash openA) = some 6 := by
  obtain ⟨l, hl, ⟨b, hb, -⟩, hbal⟩ : ∃ l ∈ run pays,
    (∃ b ∈ l.blockGet (Sample.hash openA), True) ∧
    l.balance (Sample.hash openA) = some 6 := by decide +kernel
  obtain ⟨balance, amount, hst, -, hcompute, -⟩ :=
    summation_visitor_agrees hashAssumptions (reached_of_no_epochLink (by decide +kernel) hl) hb
  rw [hbal] at hst
  cases hst
  exact ⟨l, hl, hcompute⟩

/-- The balance of a change block is stored, but on an LMDB store the visitor does not return it. -/
theorem summation_visitor_aborts :
    ∃ l, Reached params (· ∈ blocks) (fun _ action => action.LedgerCall) l ∧
      l.balance (Sample.hash changeB) = some 0 ∧
      ∀ fuel, SummationVisitor.computeBalance params l.lmdbStore fuel
        (Sample.hash changeB) = none := by
  obtain ⟨l, hl, ⟨b, hb, htype⟩, hbal⟩ : ∃ l ∈ run [put sendZero, put openB, put changeB],
    (∃ b ∈ l.blockGet (Sample.hash changeB), b.block.hashables.type = .change) ∧
    l.balance (Sample.hash changeB) = some 0 := by decide +kernel
  exact ⟨l, reached_of_ledgerCalls (by decide +kernel) hl, hbal,
    computeBalance_lmdb_eq_none (by decide +kernel) hb (.inr htype)⟩

end Futurehead
