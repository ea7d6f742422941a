import Futurehead.Ledger.System

/-!
# Supply and representative weights

In every run that processes no foreign epoch block, the balances and the pending amounts add up to
the genesis amount (`supply_conserved`), and the cached weight of every representative is the sum of
the balances that name it (`weights_exact`). With one foreign epoch block both fail: its previous
block gets it as a successor, and rolling it back makes that block a frontier in the middle of its
own chain.
-/

namespace Futurehead

variable {p : Params} {known : Block → Prop} (H : HashAssumptions p known) {l : Ledger}

include H in
/-- The supply never changes, so an account can receive every pending amount without wrapping. -/
theorem supply_conserved (hl : Reached p known (NoForeignEpoch p) l) :
    supply l.accounts l.pending = 2 ^ 128 - 1 ∧
      ∀ acc key pend, l.pendingGet key = some pend →
        (((l.accountGet acc).getD {}).balance + pend.amount).toNat =
          ((l.accountGet acc).getD {}).balance.toNat + pend.amount.toNat := by
  obtain ⟨L, h⟩ := hl.holds H
  refine ⟨h.represents.supply_eq, fun acc key pend hk => ?_⟩
  rw [accountGet_getD h.represents.accounts]
  exact BitVec.toNat_add_of_lt (h.represents.balance_add_pending_lt acc hk)

open Sample

theorem supply_conserved_receives :
    ∃ l, run receives = some l ∧ l.blockCount = 5 ∧ supply l.accounts l.pending = 2 ^ 128 - 1 := by
  obtain ⟨l, hl, hcnt⟩ : ∃ l ∈ run receives, l.blockCount = 5 := by decide +kernel
  exact ⟨l, hl, hcnt, (supply_conserved hashAssumptions
    (reached_of_no_epochLink (by decide +kernel) hl)).1⟩

/-- Rolling back the open block of B then loses what B received. -/
theorem supply_lost :
    ∃ l, Reached params (· ∈ blocks) (fun _ action => action.LedgerCall) l ∧
      supply l.accounts l.pending = 2 ^ 128 - 11 := by
  obtain ⟨l, hl, hsupply⟩ : ∃ l ∈ run (misplaces ++ [take openB]),
    supply l.accounts l.pending = 2 ^ 128 - 11 := by decide +kernel
  exact ⟨l, reached_of_ledgerCalls (by decide +kernel) hl, hsupply⟩

/-! ## Weights -/

/-- The sum of the balances of the accounts with representative `r`. -/
def Ledger.weightOf (l : Ledger) (r : Account) : Nat :=
  l.accounts.total fun info => if info.representative = r then info.balance.toNat else 0

theorem cacheAccounts_representationGet (l : Ledger) (infos : List AccountInfo) (r : Account) :
    (l.cacheAccounts infos).representationGet r =
      l.representationGet r + (infos.map (weightFor r)).sum := by
  induction infos generalizing l with
  | nil => simp [Ledger.cacheAccounts]
  | cons info infos ih =>
    rw [Ledger.cacheAccounts, List.foldl_cons]
    refine (ih _).trans ?_
    have hadd : (l.representationAdd info.representative info.balance).representationGet r =
        l.representationGet r + weightFor r info := representationGet_add ..
    rw [List.map_cons, List.sum_cons, ← add_assoc, ← hadd]
    rfl

theorem total_weightFor_toNat (hsupply : supply l.accounts l.pending = genesisAmount.toNat)
    (r : Account) : (l.accounts.total (weightFor r)).toNat = l.weightOf r := by
  have hcast : weightFor r = fun info => Nat.castAddMonoidHom Amount
      (if info.representative = r then info.balance.toNat else 0) := by
    funext info
    unfold weightFor
    split
    · change info.balance = BitVec.ofNat 128 info.balance.toNat
      simp
    · rfl
  have hle : l.weightOf r ≤ l.accounts.total fun info => info.balance.toNat :=
    Finmap.total_mono _ fun info => by split <;> omega
  have hmax : genesisAmount.toNat < 2 ^ 128 := genesisAmount.isLt
  unfold supply at hsupply
  rw [hcast, Finmap.map_total]
  exact (BitVec.toNat_ofNat ..).trans (Nat.mod_eq_of_lt (by unfold Ledger.weightOf at hle; omega))

theorem Represents.weightOf_eq {L : Lattice p known} (h : Represents l L fun _ => 0) (r : Account) :
    (l.representationGet r).toNat = l.weightOf r := by
  rw [h.weights r, add_zero, total_weightFor_toNat h.supply_eq]

include H in
/-- The cached weight of `r` is the sum of the balances that `r` represents, and the constructor of
the ledger would find the same. -/
theorem weights_exact (hl : Reached p known (NoForeignEpoch p) l) (r : Account) :
    (l.representationGet r).toNat = l.weightOf r ∧
      ∀ infos heights, l.accounts.Lists infos →
        (l.restart infos heights).representationGet r = l.representationGet r := by
  obtain ⟨L, h⟩ := hl.holds H
  refine ⟨h.represents.weightOf_eq r, fun infos heights hlist => ?_⟩
  rw [h.represents.weights r, add_zero, Finmap.total_of_lists _ hlist]
  refine (cacheAccounts_representationGet _ infos r).trans ?_
  exact zero_add _

theorem weights_exact_receives :
    ∃ l, run receives = some l ∧ (l.representationGet 6).toNat = 10 ∧ l.weightOf 6 = 10 := by
  obtain ⟨l, hl, hwt⟩ : ∃ l ∈ run receives, (l.representationGet 6).toNat = 10 := by
    decide +kernel
  have hexact := (weights_exact hashAssumptions
    (reached_of_no_epochLink (by decide +kernel) hl) 6).1
  exact ⟨l, hl, hwt, hexact.symm.trans hwt⟩

/-- Taking the misplaced change block off gives B its first representative back, but the weight
stays with the one it named when it received. -/
theorem weights_misplaced :
    ∃ l, Reached params (· ∈ blocks) (fun _ action => action.LedgerCall) l ∧
      (l.representationGet 5).toNat = 0 ∧ l.weightOf 5 = 10 := by
  obtain ⟨l, hl, hweights⟩ : ∃ l ∈ run misplaces,
    (l.representationGet 5).toNat = 0 ∧ l.weightOf 5 = 10 := by decide +kernel
  exact ⟨l, reached_of_ledgerCalls (by decide +kernel) hl, hweights⟩

end Futurehead
