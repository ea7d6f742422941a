import Mathlib.Data.Finset.Card
import Futurehead.Wallet.Representatives

/-!
# Counts of local representatives (`wallets::reps`)

`check_rep` adds an account to a set and counts it. The set does not grow if the account is in it, but
the counters do. So an account that is in two wallets, or is inserted again, counts twice.
-/

namespace Futurehead

open List Option

namespace Wallets

variable (c : Crypto) (node : VotingNode)

def Votes (account : Account) : Prop := node.voteMinimum ≤ node.weight account

instance : DecidablePred (Votes node) := fun _ => inferInstanceAs (Decidable (_ ≤ _))

/-- The weight of the account is at least half of that of a principal representative. -/
def HalfPrincipal (account : Account) : Prop :=
  node.minimumPrincipalWeight / 2 ≤ node.weight account

instance : DecidablePred (HalfPrincipal node) := fun _ => inferInstanceAs (Decidable (_ ≤ _))

/-- The accounts of the wallets that have the weight to vote. -/
def localReps (wallets : Wallets) : Finset Account :=
  (wallets.items.flatMap (·.store.accounts)).toFinset.filter (Votes node)

/-- `check_rep` for one account after another. -/
def tally (representatives : WalletRepresentatives) (accounts : List Account) : WalletRepresentatives :=
  accounts.foldl (fun representatives account =>
    (checkRep node representatives account (node.minimumPrincipalWeight / 2)).2) representatives

/-- The accounts for which `check_rep` is called by an event. -/
def checked (wallets : Wallets) : Event → List Account
  | .insertAdhoc i prv =>
    match wallets.items[i]? with
    | some wallet =>
      if wallet.store.validPassword c then [(wallet.store.insertAdhoc c prv).1] else []
    | none => []
  | .deterministicInsert i =>
    match wallets.items[i]? with
    | some wallet =>
      if wallet.store.validPassword c then (wallet.store.deterministicInsert c).toList.map (·.1)
      else []
    | none => []
  | .computeReps => wallets.items.flatMap (·.store.accounts)
  | _ => []

/-- The event starts the counts anew. -/
def Event.clears : Event → Bool
  | .computeReps => true
  | _ => false

/-- The wallets after a list of events with the weights of `node`, and the accounts that were counted
since the last `compute_reps`, when `counted` were before. -/
def countedRun : List Event → Wallets → List Account → Option (Wallets × List Account)
  | [], wallets, counted => some (wallets, counted)
  | event :: events, wallets, counted => do
    let wallets' ← wallets.exec c node event
    countedRun events wallets' ((if event.clears then [] else counted) ++ wallets.checked c event)

/-- What `reps` is meant to return. -/
structure RepsExact (wallets : Wallets) : Prop where
  voting : wallets.representatives.voting = (wallets.localReps node).card
  halfPrincipal : wallets.representatives.halfPrincipal =
    ((wallets.localReps node).filter (HalfPrincipal node)).card
  accounts : wallets.representatives.accounts.toFinset = wallets.localReps node

/-- The local accounts that vote have been counted, each once, and no others. -/
def CountedOnce (wallets : Wallets) (counted : List Account) : Prop :=
  (counted.filter (Votes node)).Nodup ∧
    (counted.filter (Votes node)).toFinset = wallets.localReps node

instance (wallets : Wallets) (counted : List Account) : Decidable (wallets.CountedOnce node counted) :=
  inferInstanceAs (Decidable (_ ∧ _))

variable {c node}

theorem checkRep_eq (r : WalletRepresentatives) (a : Account) :
    (checkRep node r a (node.minimumPrincipalWeight / 2)).2 =
      if Votes node a then ⟨r.voting + 1,
        if HalfPrincipal node a then r.halfPrincipal + 1 else r.halfPrincipal, r.accounts.insert a⟩
      else r :=
  apply_ite Prod.snd _ _ _

theorem tally_spec (accounts : List Account) (r : WalletRepresentatives) :
    (tally node r accounts).voting = r.voting + (accounts.filter (Votes node)).length ∧
    (tally node r accounts).halfPrincipal = r.halfPrincipal +
      ((accounts.filter (Votes node)).filter (HalfPrincipal node)).length ∧
    (tally node r accounts).accounts.toFinset =
      r.accounts.toFinset ∪ (accounts.filter (Votes node)).toFinset := by
  induction accounts generalizing r with
  | nil => simp [tally]
  | cons a accounts ih =>
    obtain ⟨hvot, hhalf, haccs⟩ := ih (checkRep node r a (node.minimumPrincipalWeight / 2)).2
    unfold tally at hvot hhalf haccs ⊢
    rw [foldl_cons, hvot, hhalf, haccs, checkRep_eq]
    by_cases hvotes : Votes node a
    · refine ⟨?_, ?_, ?_⟩
      · simp only [hvotes, if_true, filter_cons, decide_true, length_cons]
        omega
      · by_cases hprincipal : HalfPrincipal node a <;> simp [hvotes, hprincipal]
        omega
      · ext x
        simp only [hvotes, if_true, filter_cons, decide_true, Finset.mem_union,
          List.mem_toFinset, mem_insert_iff, mem_cons]
        tauto
    · simp [hvotes]

theorem tally_append (r : WalletRepresentatives) (xs ys : List Account) :
    tally node r (xs ++ ys) = tally node (tally node r xs) ys := foldl_append

theorem representatives_computeReps (r : WalletRepresentatives) (wallet : Wallet) :
    (wallet.computeReps node r).2 = tally node r wallet.store.accounts := by
  have hfold {f : List Account × WalletRepresentatives → Account → List Account × WalletRepresentatives}
      (hf : ∀ s a, (f s a).2 = (checkRep node s.2 a (node.minimumPrincipalWeight / 2)).2)
      (s : List Account × WalletRepresentatives) (accounts : List Account) :
      (accounts.foldl f s).2 = tally node s.2 accounts :=
    (foldl_hom Prod.snd fun s a => (hf s a).symm).symm
  exact hfold (fun _ _ => rfl) _ _

theorem computeReps_tally (wallets : Wallets) :
    (wallets.computeReps node).representatives =
      tally node {} (wallets.items.flatMap (·.store.accounts)) := by
  have hfold {f : List Wallet × WalletRepresentatives → Wallet → List Wallet × WalletRepresentatives}
      (hf : ∀ s wallet, (f s wallet).2 = (wallet.computeReps node s.2).2) (items : List Wallet)
      (s : List Wallet × WalletRepresentatives) :
      (items.foldl f s).2 = tally node s.2 (items.flatMap (·.store.accounts)) := by
    induction items generalizing s with
    | nil => rfl
    | cons wallet items ih =>
      rw [flatMap_cons, tally_append, ← representatives_computeReps, ← hf]
      exact ih _
  exact hfold (fun _ _ => rfl) _ _

theorem representatives_checkInserted (r : WalletRepresentatives) (wallet : Wallet) (key : Account) :
    (wallet.checkInserted node r key).2 = tally node r [key] := rfl

variable {wallets wallets' : Wallets} {counted : List Account}

theorem representatives_exec {event : Event} (h : wallets.exec c node event = some wallets') :
    wallets'.representatives =
      tally node (if event.clears then {} else wallets.representatives) (wallets.checked c event) := by
  cases event with
  | computeReps =>
    cases h
    exact computeReps_tally wallets
  | insertAdhoc i prv =>
    obtain ⟨wallet, hi, h⟩ := bind_eq_some_iff.1 h
    have hreps : wallets'.representatives =
        (wallet.insertAdhoc c node wallets.representatives prv).2 :=
      congrArg representatives (Option.some.inj h).symm
    rw [hreps, Wallet.insertAdhoc, checked, hi]
    by_cases hval : wallet.store.validPassword c
    · simp [hval, representatives_checkInserted, Event.clears]
    · simp [hval, tally, Event.clears]
  | deterministicInsert i =>
    obtain ⟨wallet, hi, h⟩ := bind_eq_some_iff.1 h
    obtain ⟨result, hins, h⟩ := bind_eq_some_iff.1 h
    have hreps : wallets'.representatives = result.2 := by rw [← Option.some.inj h]
    rw [hreps, checked, hi]
    unfold Wallet.deterministicInsert at hins
    by_cases hval : wallet.store.validPassword c
    · rw [if_pos hval] at hins
      obtain ⟨key, hkey, hins⟩ := bind_eq_some_iff.1 hins
      rw [← Option.some.inj hins, representatives_checkInserted]
      simp [hval, hkey, Event.clears]
    · rw [if_neg hval] at hins
      rw [← Option.some.inj hins]
      simp [hval, tally, Event.clears]
  | _ =>
    obtain ⟨wallet, hi, h⟩ := bind_eq_some_iff.1 h
    cases h
    rfl

theorem representatives_countedRun {events : List Event} {counted' : List Account}
    (hstart : wallets.representatives = tally node {} counted)
    (h : countedRun c node events wallets counted = some (wallets', counted')) :
    wallets'.representatives = tally node {} counted' := by
  induction events generalizing wallets counted with
  | nil =>
    cases h
    exact hstart
  | cons event events ih =>
    obtain ⟨next, hexec, h⟩ := bind_eq_some_iff.1 h
    refine ih ?_ h
    rw [representatives_exec hexec, tally_append]
    cases event.clears with
    | true => rfl
    | false => rw [hstart]; rfl

theorem repsExact_iff_countedOnce (h : wallets.representatives = tally node {} counted) :
    wallets.RepsExact node ↔ wallets.CountedOnce node counted := by
  obtain ⟨hvot, hhalf, haccs⟩ := @tally_spec node counted {}
  rw [← h] at hvot hhalf haccs
  simp only [Nat.zero_add, toFinset_nil, Finset.empty_union] at hvot hhalf haccs
  constructor
  · intro hexact
    have hset := haccs.symm.trans hexact.accounts
    refine ⟨?_, hset⟩
    -- as many counted accounts as there are different ones
    refine Multiset.coe_nodup.1 (Multiset.toFinset_card_eq_card_iff_nodup.1 ?_)
    exact (congrArg Finset.card hset).trans (hexact.voting.symm.trans hvot)
  · rintro ⟨hnd, hset⟩
    refine ⟨?_, ?_, haccs.trans hset⟩
    · rw [hvot, ← hset, toFinset_card_of_nodup hnd]
    · rw [hhalf, ← hset, hnd.card_eq_countP, countP_eq_length_filter]

/-- The representatives are computed, and then anything happens to the wallets while the weights stay
as they are. What `reps` returns is right exactly if every local account with enough weight was counted
once. -/
theorem reps_exact_iff {events : List Event} {wallets wallets' : Wallets} {counted : List Account}
    (h : countedRun c node (.computeReps :: events) wallets [] = some (wallets', counted)) :
    wallets'.RepsExact node ↔ wallets'.CountedOnce node counted := by
  have hrun : countedRun c node events (wallets.computeReps node)
      (wallets.items.flatMap (·.store.accounts)) = some (wallets', counted) := h
  exact repsExact_iff_countedOnce (representatives_countedRun (computeReps_tally wallets) hrun)

end Wallets

open Sample

open Wallets in
/-- A key with weight is inserted. -/
theorem reps_exact_adhoc :
    ∃ r, countedRun crypto votingNode [.computeReps, .insertAdhoc 0 5]
        ⟨[⟨Sample.wallet, []⟩], {}⟩ [] = some r ∧ r.1.RepsExact votingNode := by
  obtain ⟨r, hrun, hcounted⟩ := (Option.any_eq_true (fun r => r.1.CountedOnce votingNode r.2)
    (countedRun crypto votingNode [.computeReps, .insertAdhoc 0 5]
      ⟨[⟨Sample.wallet, []⟩], {}⟩ [])).1 (by decide +kernel)
  exact ⟨r, hrun, (reps_exact_iff hrun).2 (of_decide_eq_true hcounted)⟩

open Wallets in
/-- The key is inserted twice. There are two votes of one account. -/
theorem reps_counted_twice :
    (countedRun crypto votingNode [.computeReps, .insertAdhoc 0 5, .insertAdhoc 0 5]
        ⟨[⟨Sample.wallet, []⟩], {}⟩ []).map (fun r => (r.1.representatives.voting,
          r.1.representatives.accounts, r.1.localReps votingNode)) = some (2, [1005], {1005}) := by
  decide +kernel

end Futurehead
