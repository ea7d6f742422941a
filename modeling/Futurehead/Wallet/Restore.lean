import Futurehead.Ledger.Queries
import Futurehead.Wallet.Deterministic

/-!
# Restoring deterministic accounts (`deterministic_check`, `deterministic_restore`, `change_seed`)

The scan goes over the indices after the first one, and looks 64 further when it finds a used account.
`deterministic_restore` inserts nothing if the scan finds nothing. So it misses the account at the stored
index if that is the last one in use.
-/

namespace Futurehead

open Option BitVec

namespace WalletStore

variable (c : Crypto) (l : Ledger)

/-- The account at the index received a block, or could receive one. -/
def usedAt (s : WalletStore) (index : BitVec 32) : Bool :=
  decide (l.latest (s.accountAt c index) ≠ 0) || l.pendingAny (s.accountAt c index)

/-- The loop of `deterministic_check`. -/
def checkLoop (used : BitVec 32 → Bool) : (fuel : Nat) → (i n index : BitVec 32) → Option (BitVec 32)
  | 0, _, _, _ => none
  | fuel + 1, i, n, index =>
    if i < n then
      if used i then checkLoop used fuel (i + 1) (i + 64 + i / 64) i
      else checkLoop used fuel (i + 1) n index
    else some index

/-- `deterministic_check`. -/
def deterministicCheck (s : WalletStore) (index : BitVec 32) : Option (BitVec 32) :=
  checkLoop (s.usedAt c l) (2 ^ 32) (index + 1) (index + 64) index

/-- `wallet::deterministic_insert`, without the representatives. -/
def insertNext (s : WalletStore) : Option WalletStore :=
  if s.validPassword c then (s.deterministicInsert c).map (·.2) else some s

/-- A loop that inserts accounts while the counter passes a test. -/
def insertLoop (again : BitVec 32 → Bool) : (fuel : Nat) → BitVec 32 → WalletStore → Option WalletStore
  | 0, _, _ => none
  | fuel + 1, i, s =>
    if again i then do
      let s ← s.insertNext c
      insertLoop again fuel (i + 1) s
    else some s

/-- `deterministic_restore`. -/
def deterministicRestore (s : WalletStore) : Option WalletStore := do
  let index := s.deterministicIndexGet
  let newIndex ← s.deterministicCheck c l index
  insertLoop c (fun i => decide (i ≤ newIndex ∧ index ≠ newIndex)) (2 ^ 32 + 1) index s

/-- `change_seed`, without the account that it returns. -/
def changeSeed (s : WalletStore) (prv : RawKey) (count : BitVec 32) : Option WalletStore := do
  let s ← (s.seedSet c prv).insertNext c
  let count ← if count = 0 then s.deterministicCheck c l 0 else some count
  insertLoop c (fun i => decide (i < count)) (2 ^ 32 + 1) 0 s

/-! ## The scan -/

/-- The accounts in use from an index on are never more than 63 apart. -/
def Near (used : BitVec 32 → Bool) (k : Nat) : Prop :=
  ∀ i, k ≤ i → i < 2 ^ 32 → used (.ofNat 32 i) →
    i + 1 ≤ k + 63 ∨ ∃ j, k ≤ j ∧ j < i ∧ i ≤ j + 63 ∧ used (.ofNat 32 j)

/-- No index from `2 ^ 30` on is in use. -/
def Low (used : BitVec 32 → Bool) : Prop := ∀ i, i < 2 ^ 32 → used (.ofNat 32 i) → i < 2 ^ 30

variable {c l} {s s0 s' : WalletStore} {used : BitVec 32 → Bool}

theorem ofNat_lt {i n : Nat} (hi : i < 2 ^ 32) (hn : n < 2 ^ 32) :
    BitVec.ofNat 32 i < BitVec.ofNat 32 n ↔ i < n := by
  rw [lt_def, toNat_ofNat hi, toNat_ofNat hn]

theorem ofNat_limit {i : Nat} (hi : i < 2 ^ 30) : BitVec.ofNat 32 i + 64 + BitVec.ofNat 32 i / 64 =
    BitVec.ofNat 32 (i + 64 + i / 64) := by
  apply eq_of_toNat_eq
  rw [toNat_add, toNat_add, toNat_udiv, toNat_ofNat (by omega),
    toNat_ofNat (by omega)]
  change ((i + 64) % 2 ^ 32 + i / 64) % 2 ^ 32 = _
  omega

theorem ofNat_le {i n : Nat} (hi : i < 2 ^ 32) (hn : n < 2 ^ 32) :
    BitVec.ofNat 32 i ≤ BitVec.ofNat 32 n ↔ i ≤ n := by
  rw [le_def, toNat_ofNat hi, toNat_ofNat hn]

theorem ofNat_inj {i j : Nat} (hi : i < 2 ^ 32) (hj : j < 2 ^ 32)
    (h : BitVec.ofNat 32 i = BitVec.ofNat 32 j) : i = j := by
  rw [← toNat_ofNat hi, h, toNat_ofNat hj]

theorem ofNat_add_one (i : Nat) : BitVec.ofNat 32 i + 1 = .ofNat 32 (i + 1) := (ofNat_add ..).symm

theorem checkLoop_spec (hlow : Low used) (fuel i n index : Nat) (hfuel : 2 ^ 31 ≤ i + fuel)
    (hn : n < 2 ^ 31) (hi : index < i) (hin : i ≤ n) (hlimit : index + 64 ≤ n) (hindex : index < 2 ^ 30)
    (hblw : ∀ j, index < j → j < i → used (.ofNat 32 j) = false) :
    ∃ r, checkLoop used fuel (.ofNat 32 i) (.ofNat 32 n) (.ofNat 32 index) = some (.ofNat 32 r) ∧
      index ≤ r ∧ r < 2 ^ 30 ∧ (r = index ∨ used (.ofNat 32 r)) ∧
      ∀ j, r < j → j < r + 64 → used (.ofNat 32 j) = false := by
  induction fuel generalizing i n index with
  | zero => omega
  | succ fuel ih =>
    unfold checkLoop
    simp only [ofNat_lt (show i < 2 ^ 32 by omega) (show n < 2 ^ 32 by omega), ofNat_add_one]
    by_cases hlt : i < n
    · rw [if_pos hlt]
      cases hused : used (.ofNat 32 i) with
      | true =>
        have hi' : i < 2 ^ 30 := hlow i (by omega) hused
        rw [if_pos rfl, ofNat_limit hi']
        obtain ⟨r, hr, hir, hr', hend, haft⟩ := ih (i + 1) (i + 64 + i / 64) i
          (by omega) (by omega) (by omega) (by omega) (by omega) hi' fun j _ _ => by omega
        refine ⟨r, hr, by omega, hr', .inr ?_, haft⟩
        obtain rfl | hend := hend
        · exact hused
        · exact hend
      | false =>
        refine ih _ _ _ (by omega) hn (by omega) (by omega) hlimit hindex fun j hj hji => ?_
        obtain rfl | hji : j = i ∨ j < i := by omega
        · exact hused
        · exact hblw j hj hji
    · rw [if_neg hlt]
      exact ⟨index, rfl, le_rfl, hindex, .inl rfl, fun j hj hj' => hblw j hj (by omega)⟩

theorem deterministicCheck_spec (hlow : Low (s.usedAt c l)) {k : Nat} (hk : k < 2 ^ 30)
    (hnear : Near (s.usedAt c l) k) :
    ∃ r, s.deterministicCheck c l (.ofNat 32 k) = some (.ofNat 32 r) ∧ k ≤ r ∧ r < 2 ^ 30 ∧
      (r = k ∨ s.usedAt c l (.ofNat 32 r)) ∧
      ∀ i, k ≤ i → i < 2 ^ 32 → s.usedAt c l (.ofNat 32 i) → i ≤ r := by
  obtain ⟨r, hr, hkr, hr', hend, haft⟩ := checkLoop_spec hlow (2 ^ 32) (k + 1)
    (k + 64) k (by omega) (by omega) (by omega) (by omega) le_rfl hk
    fun j _ _ => by omega
  refine ⟨r, ?_, hkr, hr', hend, fun i => ?_⟩
  · unfold deterministicCheck
    rw [ofNat_add_one, ← hr]
    exact congrArg (checkLoop _ _ _ · _) (ofNat_add ..).symm
  -- an index in use after `r` is near to one up to `r`, so it was seen
  induction i using Nat.strong_induction_on with
  | _ i ih =>
    intro hki hi hused
    by_contra hri
    have hseen : ¬ i < r + 64 := fun hlt => by
      rw [haft i (by omega) hlt] at hused
      cases hused
    obtain hfst | ⟨j, hkj, hji, hij, hjused⟩ := hnear i hki hi hused
    · omega
    · have hjr := ih j hji hkj (by omega) hjused
      omega

/-! ## The insertions -/

/-- The accounts of the seed are different accounts, and none from the index `2 ^ 30` on is in the
store. -/
structure Restorable (c : Crypto) (s : WalletStore) : Prop where
  unlocked : s.validPassword c
  valid : ∀ i, validPublicKey (s.accountAt c i)
  injective : Function.Injective (s.accountAt c)
  index_lt : s.deterministicIndexGet.toNat < 2 ^ 30
  free : ∀ i, 2 ^ 30 ≤ i → i < 2 ^ 32 → s.accountExists (s.accountAt c (.ofNat 32 i)) = false

/-- Accounts of the seed were inserted. -/
structure Filled (c : Crypto) (s0 s : WalletStore) : Prop where
  access : SameAccess s0 s
  seed : s.entryGetRaw seedSpecial = s0.entryGetRaw seedSpecial
  kept : ∀ x, s0.accountExists x → s.accountExists x
  covered : ∀ j, s0.deterministicIndexGet.toNat ≤ j → j < s.deterministicIndexGet.toNat →
    s.accountExists (s0.accountAt c (.ofNat 32 j))
  free : ∀ i, 2 ^ 30 ≤ i → s.deterministicIndexGet.toNat ≤ i → i < 2 ^ 32 →
    s.accountExists (s0.accountAt c (.ofNat 32 i)) = false

namespace Filled

theorem refl (h : s.Restorable c) : Filled c s s :=
  ⟨.refl s, rfl, fun _ => id, fun j _ _ => by omega, fun i hi _ => h.free i hi⟩

theorem accountAt_eq (h : Filled c s0 s) : s.accountAt c = s0.accountAt c := by
  funext i
  unfold accountAt deterministicKey WalletStore.seed
  rw [h.seed, h.access.walletKey_eq, h.access.salt_eq]

theorem insertNext (h0 : s0.Restorable c) (h : Filled c s0 s) {m : Nat} (hm : m < 2 ^ 31)
    (hindex : s.deterministicIndexGet.toNat ≤ 2 ^ 30 + m) :
    ∃ s', s.insertNext c = some s' ∧ Filled c s0 s' ∧
      s.deterministicIndexGet.toNat < s'.deterministicIndexGet.toNat ∧
      s'.deterministicIndexGet.toNat ≤ 2 ^ 30 + (m + 1) := by
  have hfree := h.free (2 ^ 30 + m) (by omega) hindex (by omega)
  rw [← h.accountAt_eq] at hfree
  obtain ⟨k, s', hins, hin⟩ := deterministicInsert_spec (c := c) (s := s)
    ⟨h.accountAt_eq ▸ h0.valid, _, hindex, by omega, hfree⟩
  have hk : k ≤ 2 ^ 30 + m := by
    by_contra hlt
    rw [hin.skipped _ hindex (by omega)] at hfree
    cases hfree
  have hat : s.accountAt c (.ofNat 32 k) = s0.accountAt c (.ofNat 32 k) := by rw [h.accountAt_eq]
  have hex (x : Account) : s'.accountExists x =
      (decide (x = s0.accountAt c (.ofNat 32 k)) || s.accountExists x) := by
    rw [accountExists_eq, accountExists_eq]
    cases hx : validPublicKey x with
    | true =>
      rw [hin.entries x hx, hat]
      split <;> simp [*]
    | false => simp [ne_of_valid (h0.valid _) hx |>.symm]
  have hnext : k < s'.deterministicIndexGet.toNat := by rw [hin.index]; exact k.lt_succ_self
  refine ⟨s', ?_, ⟨h.access.trans hin.access, hin.seed.trans h.seed, fun x hx => ?_,
    fun j hj hj' => ?_, fun i hi hi' hlt => ?_⟩, hin.le.trans_lt hnext, ?_⟩
  · unfold WalletStore.insertNext
    rw [if_pos (h.access.validPassword_eq.trans h0.unlocked), hins]
    rfl
  · rw [hex, h.kept x hx, Bool.or_true]
  · rw [hex]
    -- an index is below the stored one, was skipped because its account exists, or is the new one
    obtain hblw | hskip | rfl : j < s.deterministicIndexGet.toNat ∨
        (s.deterministicIndexGet.toNat ≤ j ∧ j < k) ∨ j = k := by
      rw [hin.index] at hj'
      omega
    · rw [h.covered j hj hblw, Bool.or_true]
    · rw [← h.accountAt_eq, hin.skipped j hskip.1 hskip.2, Bool.or_true]
    · rw [decide_eq_true rfl, Bool.true_or]
  · rw [hex, h.free i hi (hin.le.trans (hnext.le.trans hi')) hlt, Bool.or_false,
      decide_eq_false_iff_not]
    intro heq
    have hik := ofNat_inj hlt (by omega) (h0.injective heq)
    omega
  · rw [hin.index]
    omega

end Filled

theorem insertLoop_spec (h0 : s0.Restorable c) (again : BitVec 32 → Bool) (fuel i m d : Nat)
    (hfuel : m < i + fuel) (hm : m ≤ 2 ^ 30) (him : i ≤ m) (hagain : ∀ j, i ≤ j → j < m → again (.ofNat 32 j))
    (hend : again (.ofNat 32 m) = false) (h : Filled c s0 s) (hd : d ≤ i + 1)
    (hindex : s.deterministicIndexGet.toNat ≤ 2 ^ 30 + d) :
    ∃ s', insertLoop c again fuel (.ofNat 32 i) s = some s' ∧ Filled c s0 s' ∧
      s.deterministicIndexGet.toNat + (m - i) ≤ s'.deterministicIndexGet.toNat := by
  induction fuel generalizing i d s with
  | zero => omega
  | succ fuel ih =>
    obtain rfl | hlt : i = m ∨ i < m := by omega
    · exact ⟨s, if_neg (Bool.not_eq_true _ ▸ hend), h, by omega⟩
    · obtain ⟨s1, hins, h1, hlt1, hle1⟩ := h.insertNext h0 (by omega) hindex
      obtain ⟨s', hloop, h', hle⟩ := ih (i + 1) (d + 1) (by omega) (by omega)
        (fun j hj => hagain j (by omega)) h1 (by omega) hle1
      refine ⟨s', ?_, h', by omega⟩
      rw [insertLoop, if_pos (hagain i le_rfl hlt), hins, ofNat_add_one]
      exact hloop

theorem ofNat_self (i : BitVec 32) : BitVec.ofNat 32 i.toNat = i := by
  rw [ofNat_toNat, setWidth_eq]

theorem deterministicRestore_spec (h : s.Restorable c) (hlow : Low (s.usedAt c l))
    (hnear : Near (s.usedAt c l) s.deterministicIndexGet.toNat) :
    ∃ s' r, s.deterministicRestore c l = some s' ∧ s.deterministicIndexGet.toNat ≤ r ∧ r < 2 ^ 30 ∧
      (r = s.deterministicIndexGet.toNat ∨ s.usedAt c l (.ofNat 32 r)) ∧
      (∀ i, s.deterministicIndexGet ≤ i → s.usedAt c l i → i.toNat ≤ r) ∧
      if r = s.deterministicIndexGet.toNat then s' = s else
        ∀ i, s.deterministicIndexGet ≤ i → i.toNat ≤ r → s'.accountExists (s.accountAt c i) := by
  obtain ⟨r, hchk, hkr, hr, hend, haft⟩ := deterministicCheck_spec hlow h.index_lt hnear
  rw [ofNat_self] at hchk
  have hused : ∀ i, s.deterministicIndexGet ≤ i → s.usedAt c l i → i.toNat ≤ r := fun i hi hi' =>
    haft i.toNat hi i.isLt (by rwa [ofNat_self])
  have hrst {s' : WalletStore} (hloop : insertLoop c (fun i =>
      decide (i ≤ .ofNat 32 r ∧ s.deterministicIndexGet ≠ .ofNat 32 r)) (2 ^ 32 + 1)
      s.deterministicIndexGet s = some s') : s.deterministicRestore c l = some s' :=
    bind_eq_some_iff.2 ⟨_, hchk, hloop⟩
  by_cases hrk : r = s.deterministicIndexGet.toNat
  · refine ⟨s, r, hrst (if_neg ?_), hkr, hr, hend, hused, by rw [if_pos hrk]⟩
    simp [hrk]
  · have hne : s.deterministicIndexGet ≠ BitVec.ofNat 32 r := fun heq => hrk (by
      rw [heq, toNat_ofNat (by omega)])
    obtain ⟨s', hloop, hfilled, hle⟩ := insertLoop_spec h (fun i =>
        decide (i ≤ BitVec.ofNat 32 r ∧ s.deterministicIndexGet ≠ BitVec.ofNat 32 r))
      (2 ^ 32 + 1) s.deterministicIndexGet.toNat (r + 1) 0 (by omega)
      (by omega) (by omega)
      (fun j _ hj => decide_eq_true ⟨(ofNat_le (by omega) (by omega)).2 (by omega), hne⟩)
      (decide_eq_false fun hlast => by
        have := (ofNat_le (by omega) (by omega)).1 hlast.1
        omega)
      (.refl h) (Nat.zero_le _) h.index_lt.le
    rw [ofNat_self] at hloop
    refine ⟨s', r, hrst hloop, hkr, hr, hend, hused, ?_⟩
    rw [if_neg hrk]
    intro i hi hir
    have hcovered := hfilled.covered i.toNat hi (by omega)
    rwa [ofNat_self] at hcovered

theorem changeSeed_spec {prv : RawKey} (h : (s.seedSet c prv).Restorable c)
    (hlow : Low ((s.seedSet c prv).usedAt c l)) (hnear : Near ((s.seedSet c prv).usedAt c l) 0) :
    ∃ s', s.changeSeed c l prv 0 = some s' ∧
      ∀ i, (s.seedSet c prv).usedAt c l i → s'.accountExists ((s.seedSet c prv).accountAt c i) := by
  have hzero : (s.seedSet c prv).deterministicIndexGet.toNat = 0 := by
    rw [deterministicIndexGet_seedSet]
    rfl
  obtain ⟨s1, hins, hfilled1, hlt, hle⟩ := (Filled.refl h).insertNext h (m := 0) (by omega)
    h.index_lt.le
  have hsame : s1.usedAt c l = (s.seedSet c prv).usedAt c l := by
    unfold usedAt
    rw [hfilled1.accountAt_eq]
  obtain ⟨r, hchk, -, hr, -, haft⟩ := deterministicCheck_spec (s := s1) (c := c) (l := l) (k := 0)
    (hsame ▸ hlow) (by omega) (hsame ▸ hnear)
  obtain ⟨s', hloop, hfilled, hrest⟩ := insertLoop_spec h
    (fun i => decide (i < BitVec.ofNat 32 r)) (2 ^ 32 + 1) 0 r 1
    (by omega) hr.le (by omega)
    (fun j _ hj => decide_eq_true ((ofNat_lt (by omega) (by omega)).2 hj))
    (decide_eq_false fun hself => by
      rw [ofNat_lt (by omega) (by omega)] at hself
      omega)
    hfilled1 (by omega) hle
  refine ⟨s', ?_, fun i hi => ?_⟩
  · unfold changeSeed
    rw [hins, bind_eq_bind, bind_some, if_pos rfl]
    exact bind_eq_some_iff.2 ⟨_, hchk, hloop⟩
  · have hir := haft i.toNat (by omega) i.isLt (by rwa [ofNat_self, hsame])
    have hcovered := hfilled.covered i.toNat (by omega) (by omega)
    rwa [ofNat_self] at hcovered

/-- `deterministic_restore` restores all accounts in use unless the account at the stored index is the
only one. `change_seed` always does. -/
theorem restored_iff (c : Crypto) (l : Ledger) (s : WalletStore) :
    (s.Restorable c → Low (s.usedAt c l) → Near (s.usedAt c l) s.deterministicIndexGet.toNat →
      ∃ s', s.deterministicRestore c l = some s' ∧
        ((∀ i, s.deterministicIndexGet ≤ i → s.usedAt c l i → s'.accountExists (s.accountAt c i)) ↔
          (s.usedAt c l s.deterministicIndexGet →
            s.accountExists (s.accountAt c s.deterministicIndexGet) ∨
              ∃ i, s.deterministicIndexGet < i ∧ s.usedAt c l i))) ∧
    ∀ prv, (s.seedSet c prv).Restorable c → Low ((s.seedSet c prv).usedAt c l) →
      Near ((s.seedSet c prv).usedAt c l) 0 →
      ∃ s', s.changeSeed c l prv 0 = some s' ∧
        ∀ i, (s.seedSet c prv).usedAt c l i → s'.accountExists ((s.seedSet c prv).accountAt c i) := by
  refine ⟨fun h hlow hnear => ?_, fun prv => changeSeed_spec⟩
  obtain ⟨s', r, hrst, hkr, hr, hend, hused, hres⟩ := deterministicRestore_spec h hlow hnear
  refine ⟨s', hrst, ⟨fun hall hfst => ?_, fun hcond i hi hi' => ?_⟩⟩
  · split at hres
    · subst hres
      exact .inl (hall _ (BitVec.le_refl _) hfst)
    · rename_i hrk
      refine .inr ⟨.ofNat 32 r, ?_, hend.resolve_left hrk⟩
      rw [lt_def, toNat_ofNat (by omega)]
      omega
  · split at hres
    · rename_i hrk
      -- nothing was found, so the index is the stored one
      have hieq : i = s.deterministicIndexGet :=
        eq_of_toNat_eq (le_antisymm ((hused i hi hi').trans_eq hrk) hi)
      subst hres hieq
      obtain hex | ⟨j, hj, hj'⟩ := hcond hi'
      · exact hex
      · have hjr := hused j (BitVec.le_of_lt hj) hj'
        rw [lt_def] at hj
        omega
    · exact hres i hi (hused i hi hi')

end WalletStore

open WalletStore

namespace Sample

/-- A ledger in which the account at one index of the new wallet could receive a block. -/
def onePending (index : BitVec 32) : Ledger :=
  { pending := Finmap.singleton ⟨accountAt crypto wallet index, 1⟩ ⟨2, 3, .epoch0⟩ }

theorem seed_wallet : wallet.seed crypto = BitVec.ofNat 256 (2 ^ 240 + 3) := by decide +kernel

theorem restorable_wallet : wallet.Restorable crypto where
  unlocked := by decide +kernel
  valid := valid_accountAt seed_wallet
  injective i j h := by
    have hij := congrArg BitVec.toNat h
    rw [toNat_accountAt seed_wallet, toNat_accountAt seed_wallet] at hij
    exact eq_of_toNat_eq (by omega)
  index_lt := by decide +kernel
  free i _ _ := by
    have hnone : wallet.accounts = [] := by decide +kernel
    rw [accountExists_eq, ← Bool.not_eq_true, Bool.and_eq_true, ← WalletStore.mem_accounts, hnone]
    exact List.not_mem_nil

theorem usedAt_onePending {i index : BitVec 32} :
    wallet.usedAt crypto (onePending index) i ↔ i = index := by
  unfold usedAt Ledger.pendingAny onePending
  simp only [Ledger.latest, Ledger.accountGet, Finmap.lookup_empty, Finmap.keys_singleton,
    Finset.mem_singleton, exists_eq_left]
  simpa using ⟨fun h => (restorable_wallet.injective h).symm, fun h => by rw [h]⟩

theorem near_onePending (index : Nat) (hindex : index < 63) :
    Low (wallet.usedAt crypto (onePending (.ofNat 32 index))) ∧
      Near (wallet.usedAt crypto (onePending (.ofNat 32 index))) wallet.deterministicIndexGet.toNat := by
  refine ⟨fun i hi hused => ?_, fun i _ hi hused => .inl ?_⟩ <;>
  · have := ofNat_inj hi (by omega) (usedAt_onePending.1 hused)
    omega

end Sample

open Sample

/-- The account at the stored index is in use and is not restored. -/
theorem restore_misses_first :
    Sample.wallet.Restorable crypto ∧
    Low (Sample.wallet.usedAt crypto (onePending 0)) ∧
    Near (Sample.wallet.usedAt crypto (onePending 0))
      Sample.wallet.deterministicIndexGet.toNat ∧
    Sample.wallet.usedAt crypto (onePending 0) Sample.wallet.deterministicIndexGet ∧
    (Sample.wallet.deterministicRestore crypto (onePending 0)).map
      (·.accountExists (accountAt crypto Sample.wallet 0)) = some false := by
  obtain ⟨hlow, hnear⟩ := near_onePending 0 (by omega)
  exact ⟨restorable_wallet, hlow, hnear, by decide +kernel, by decide +kernel⟩

/-- The account after it is in use and is restored. -/
theorem restored_second : ∃ s', Sample.wallet.deterministicRestore crypto (onePending 1) =
    some s' ∧ s'.accountExists (accountAt crypto Sample.wallet 1) := by
  obtain ⟨hlow, hnear⟩ := near_onePending 1 (by omega)
  obtain ⟨s', hrst, hiff⟩ := (restored_iff crypto (onePending 1) Sample.wallet).1
    restorable_wallet hlow hnear
  have hused : Sample.wallet.usedAt crypto (onePending 1) 1 := usedAt_onePending.2 rfl
  exact ⟨s', hrst, hiff.2 (fun _ => .inr ⟨1, by decide +kernel, hused⟩) 1 (by decide +kernel) hused⟩

end Futurehead
