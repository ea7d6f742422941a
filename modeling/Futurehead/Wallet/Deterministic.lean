import Futurehead.Wallet.Upgrade

/-!
# Deterministic keys (`deterministic_insert`, `seed_set`)

The store knows the kinds of its entries by their values alone: an ad-hoc key is a large number, a
deterministic one a marker with its index, and a watched account is zero. A new deterministic account is
the first one from the stored index on that is not in the store.
-/

namespace Futurehead

open Option

namespace WalletStore

/-- The account that the current seed has at an index. -/
def accountAt (c : Crypto) (s : WalletStore) (index : BitVec 32) : Account :=
  c.pubKey (s.deterministicKey c index)

variable {c : Crypto} {s s' : WalletStore} {a x : Account} {prv g : RawKey}

theorem toNat_ofNat {n : Nat} (h : n < 2 ^ 32) : (BitVec.ofNat 32 n).toNat = n := by
  rw [BitVec.toNat_ofNat, Nat.mod_eq_of_lt h]

theorem deterministicSearch_spec (i d fuel : Nat) (hi : i + d < 2 ^ 32) (hfuel : d < fuel)
    (hfree : s.accountExists (s.accountAt c (.ofNat 32 (i + d))) = false) :
    ∃ k, i ≤ k ∧ k ≤ i + d ∧ s.deterministicSearch c fuel (.ofNat 32 i) = some (.ofNat 32 k) ∧
      s.accountExists (s.accountAt c (.ofNat 32 k)) = false ∧
      ∀ j, i ≤ j → j < k → s.accountExists (s.accountAt c (.ofNat 32 j)) := by
  induction d generalizing i fuel with
  | zero =>
    obtain ⟨fuel, rfl⟩ := Nat.exists_eq_succ_of_ne_zero (Nat.ne_of_gt hfuel)
    exact ⟨i, le_rfl, le_rfl, if_neg (Bool.not_eq_true _ ▸ hfree), hfree, fun j _ _ => by omega⟩
  | succ d ih =>
    obtain ⟨fuel, rfl⟩ := Nat.exists_eq_succ_of_ne_zero (Nat.ne_of_gt (Nat.zero_lt_of_lt hfuel))
    cases hex : s.accountExists (s.accountAt c (.ofNat 32 i)) with
    | false =>
      exact ⟨i, le_rfl, by omega, if_neg (Bool.not_eq_true _ ▸ hex), hex, fun j _ _ => by omega⟩
    | true =>
      obtain ⟨k, hik, hk, hsearch, hkfree, hskipped⟩ :=
        ih (i + 1) fuel (by omega) (by omega) (by rwa [Nat.add_right_comm])
      refine ⟨k, by omega, by omega, (if_pos hex).trans ?_, hkfree, fun j hij hjk => ?_⟩
      · rw [← hsearch, BitVec.ofNat_add]
        rfl
      · obtain rfl | hj : j = i ∨ i + 1 ≤ j := by omega
        · exact hex
        · exact hskipped j hj hjk

/-- Some index from the stored one on is free, and the next one is below `2 ^ 32`. -/
def Free (c : Crypto) (s : WalletStore) : Prop :=
  ∃ index, s.deterministicIndexGet.toNat ≤ index ∧ index + 1 < 2 ^ 32 ∧
    s.accountExists (s.accountAt c (.ofNat 32 index)) = false

/-- The accounts of the seed are accounts, and one of them can be inserted. -/
structure Insertable (c : Crypto) (s : WalletStore) : Prop where
  valid : ∀ i, validPublicKey (s.accountAt c i)
  free : s.Free c

/-- The account at the index `k` was inserted, and the next index is stored. -/
structure Inserted (c : Crypto) (s : WalletStore) (k : Nat) (s' : WalletStore) : Prop where
  le : s.deterministicIndexGet.toNat ≤ k
  lt : k + 1 < 2 ^ 32
  skipped : ∀ j, s.deterministicIndexGet.toNat ≤ j → j < k →
    s.accountExists (s.accountAt c (.ofNat 32 j))
  free : s.accountExists (s.accountAt c (.ofNat 32 k)) = false
  index : s'.deterministicIndexGet.toNat = k + 1
  entries : ∀ x, validPublicKey x → s'.entries[x]? =
    if x = s.accountAt c (.ofNat 32 k) then some ⟨marker (.ofNat 32 k), 0⟩ else s.entries[x]?
  access : SameAccess s s'
  seed : s'.entryGetRaw seedSpecial = s.entryGetRaw seedSpecial

theorem getElem?_put_special {entry : WalletValue} (hx : validPublicKey x)
    (ha : validPublicKey a = false) : (s.entryPutRaw a entry).entries[x]? = s.entries[x]? := by
  rw [getElem?_put, if_neg (ne_of_valid hx ha)]

theorem accountExists_eq (s : WalletStore) (x : Account) :
    s.accountExists x = (validPublicKey x && s.entries[x]?.isSome) := by
  unfold accountExists
  rw [Std.ExtTreeMap.isSome_getElem?_eq_contains]

theorem deterministicInsert_spec (h : s.Insertable c) :
    ∃ k s', s.deterministicInsert c = some (s.accountAt c (.ofNat 32 k), s') ∧ s.Inserted c k s' := by
  obtain ⟨hval, index, hle, hlt, hfree⟩ := h
  obtain ⟨k, hik, hk, hsearch, hkfree, hskipped⟩ := deterministicSearch_spec
    s.deterministicIndexGet.toNat (index - s.deterministicIndexGet.toNat) (2 ^ 32) (by omega) (by omega) (by rwa [Nat.add_sub_of_le hle])
  rw [BitVec.ofNat_toNat, BitVec.setWidth_eq] at hsearch
  have hnext : BitVec.ofNat 32 k + 1 = .ofNat 32 (k + 1) := (BitVec.ofNat_add ..).symm
  have hne {y : Account} (hy : validPublicKey y = false) : y ≠ s.accountAt c (.ofNat 32 k) :=
    (ne_of_valid (hval _) hy).symm
  refine ⟨k, _, bind_eq_some_iff.2 ⟨_, hsearch, rfl⟩, hik, by omega, hskipped, hkfree, ?_,
    fun x hx => ?_, ?_, ?_⟩
  · unfold deterministicIndexGet deterministicIndexSet
    rw [entryGetRaw_put, if_pos rfl, hnext, BitVec.setWidth_setWidth_of_le _ (by omega),
      BitVec.setWidth_eq, toNat_ofNat (by omega)]
  · exact (getElem?_put_special hx (by decide +kernel)).trans (getElem?_put ..)
  · exact (SameAccess.put (hne (by decide +kernel)) (hne (by decide +kernel))).trans
      (.put (by decide +kernel) (by decide +kernel))
  · exact (entryGetRaw_put_ne (by decide +kernel) _).trans
      (entryGetRaw_put_ne (hne (by decide +kernel)) _)

theorem Inserted.fetch {k : Nat} (h : s.Inserted c k s') (hval : validPublicKey (s.accountAt c (.ofNat 32 k)))
    (hopen : s.validPassword c) :
    s'.fetch c (s.accountAt c (.ofNat 32 k)) g = (false, s.deterministicKey c (.ofNat 32 k)) := by
  refine fetch_eq_ok.2 ⟨h.access.validPassword_eq.trans hopen, ?_⟩
  refine @keyOf_deterministic _ _ _ _ _ (.ofNat 32 k) 0 ?_ rfl ?_
  · rw [h.seed, h.access.walletKey_eq, h.access.salt_eq]
    rfl
  · unfold entryGetRaw
    rw [h.entries _ hval, if_pos rfl]
    rfl

/-! ## A new seed -/

theorem getElem?_clear (accs : List Account) (s : WalletStore) :
    (accs.foldl (fun s acc =>
      if keyType (s.entryGetRaw acc) = .deterministic then s.erase acc else s) s).entries[x]? =
      if x ∈ accs ∧ s.entries[x]?.map keyType = some .deterministic then none
      else s.entries[x]? := by
  induction accs generalizing s with
  | nil => simp
  | cons a accs ih =>
    have hstep : (if keyType (s.entryGetRaw a) = .deterministic then s.erase a else s).entries[x]? =
        if x = a ∧ s.entries[x]?.map keyType = some .deterministic then none else s.entries[x]? := by
      by_cases hxa : x = a
      · subst hxa
        unfold entryGetRaw
        cases hget : s.entries[x]? with
        | none =>
          rw [if_neg (show ¬ keyType (Option.getD none ⟨0, 0⟩) = .deterministic by decide), hget, ite_self]
        | some v => by_cases hv : keyType v = .deterministic <;> simp [hv, hget, getElem?_erase]
      · split <;> simp [hxa, getElem?_erase]
    rw [List.foldl_cons, ih, hstep]
    by_cases hkind : s.entries[x]?.map keyType = some .deterministic
    · by_cases hxa : x = a
      · subst hxa
        simp only [hkind, List.mem_cons_self, and_self, if_true, ite_self]
      · simp only [hkind, hxa, List.mem_cons, false_and, false_or, if_false]
    · simp only [hkind, and_false, if_false]

theorem getElem?_seedSet (s : WalletStore) (prv : RawKey) (hx : validPublicKey x) :
    (s.seedSet c prv).entries[x]? =
      if s.entries[x]?.map keyType = some .deterministic then none else s.entries[x]? := by
  unfold seedSet deterministicClear deterministicIndexSet
  rw [getElem?_put_special hx (by decide +kernel), getElem?_clear,
    getElem?_put_special hx (by decide +kernel)]
  refine if_congr ⟨And.right, fun hkind => ⟨(mem_accounts _).2 ⟨hx, ?_⟩, hkind⟩⟩ rfl rfl
  rw [getElem?_put_special hx (by decide +kernel)]
  cases hget : s.entries[x]? with
  | none =>
    rw [hget] at hkind
    cases hkind
  | some _ => rfl

theorem seedSet_access (s : WalletStore) (prv : RawKey) : SameAccess s (s.seedSet c prv) :=
  (SameAccess.put (by decide +kernel) (by decide +kernel)).trans
    ((localStep_clear.loop _).1.access.trans (.put (by decide +kernel) (by decide +kernel)))

theorem deterministicIndexGet_seedSet (s : WalletStore) (prv : RawKey) :
    (s.seedSet c prv).deterministicIndexGet = 0 := by
  unfold deterministicIndexGet seedSet deterministicClear deterministicIndexSet
  rw [entryGetRaw_put, if_pos rfl]
  rfl

/-! ## Runs -/

/-- What can happen to the keys of an unlocked store. -/
inductive KeyEvent where
  | deterministicInsert
  | insertAdhoc (prv : RawKey)
  | insertWatch (pub : Account)
  | erase (pub : Account)
  | seedSet (prv : RawKey)

/-- A store, and the kind by which each of its accounts was made. -/
structure Kinds where
  store : WalletStore
  kind : Account → Option KeyType

def kinds (s : WalletStore) : Kinds := ⟨s, fun x => s.entries[x]?.map keyType⟩

def Kinds.exec (c : Crypto) (t : Kinds) : KeyEvent → Option Kinds
  | .deterministicInsert => do
    let (pub, s) ← t.store.deterministicInsert c
    some ⟨s, Function.update t.kind pub (some .deterministic)⟩
  | .insertAdhoc prv =>
    let (pub, s) := t.store.insertAdhoc c prv
    some ⟨s, Function.update t.kind pub (some .adhoc)⟩
  | .insertWatch pub =>
    let (error, s) := t.store.insertWatch pub
    some ⟨s, if error then t.kind else Function.update t.kind pub (some .unknown)⟩
  | .erase pub => some ⟨t.store.erase pub, Function.update t.kind pub none⟩
  | .seedSet prv => some ⟨t.store.seedSet c prv, fun x => (t.kind x).filter (· ≠ .deterministic)⟩

/-- The keys belong to accounts, the indices stay below `2 ^ 32`, and no ad-hoc ciphertext is small. -/
def KeyEvent.Ok (c : Crypto) (s : WalletStore) : KeyEvent → Prop
  | .deterministicInsert => s.Insertable c
  | .insertAdhoc prv => validPublicKey (c.pubKey prv) ∧
    2 ^ 64 ≤ (c.encrypt prv (s.walletKey c) (oword (c.pubKey prv) 0)).toNat
  | .erase pub => validPublicKey pub
  | _ => True

/-- The store is unlocked, and tells the kinds of its accounts. -/
structure KindsOk (c : Crypto) (t : Kinds) : Prop where
  unlocked : t.store.validPassword c
  kind : ∀ x, validPublicKey x → t.kind x = t.store.entries[x]?.map keyType

theorem KindsOk.change {t : Kinds} (h : KindsOk c t) (hac : SameAccess t.store s')
    {entry : Option WalletValue}
    (hents : ∀ x, validPublicKey x → s'.entries[x]? = if x = a then entry else t.store.entries[x]?) :
    KindsOk c ⟨s', Function.update t.kind a (entry.map keyType)⟩ where
  unlocked := hac.validPassword_eq.trans h.unlocked
  kind x hx := by
    change Function.update t.kind a (entry.map keyType) x = _
    rw [hents x hx, Function.update_apply, h.kind x hx]
    split <;> rfl

theorem KindsOk.exec {t t' : Kinds} {event : KeyEvent} (h : KindsOk c t) (hok : event.Ok c t.store)
    (hexec : t.exec c event = some t') : KindsOk c t' := by
  cases event with
  | deterministicInsert =>
    obtain ⟨k, s', hins, hinsd⟩ := deterministicInsert_spec hok
    obtain ⟨_, hins', hexec⟩ := bind_eq_some_iff.1 hexec
    obtain rfl := Option.some.inj (hins.symm.trans hins')
    cases hexec
    have hkept := h.change hinsd.access hinsd.entries
    rwa [map_some, keyType_marker rfl] at hkept
  | insertAdhoc prv =>
    cases hexec
    have hkept := h.change (SameLock.of_ne hok.1 (fun _ hx => entryGetRaw_put_ne hx _) rfl rfl).access
      fun x _ => getElem?_put t.store (c.pubKey prv) x
        ⟨c.encrypt prv (t.store.walletKey c) (oword (c.pubKey prv) 0), 0⟩
    rwa [map_some, keyType_large hok.2] at hkept
  | insertWatch pub =>
    by_cases hval : validPublicKey pub
    · simp only [Kinds.exec, insertWatch, hval, if_true] at hexec
      cases hexec
      have hkept := h.change (SameLock.of_ne hval (fun _ hx => entryGetRaw_put_ne hx _) rfl rfl).access
        fun x _ => getElem?_put t.store pub x ⟨0, 0⟩
      rwa [map_some, keyType_zero rfl] at hkept
    · simp only [Kinds.exec, insertWatch, hval] at hexec
      cases hexec
      exact h
  | erase pub =>
    cases hexec
    exact h.change (SameLock.of_ne hok (fun _ hx => entryGetRaw_erase_ne hx) rfl rfl).access
      fun x _ => getElem?_erase t.store pub x
  | seedSet prv =>
    cases hexec
    refine ⟨(seedSet_access _ _).validPassword_eq.trans h.unlocked, fun x hx => ?_⟩
    change (t.kind x).filter _ = _
    rw [h.kind x hx, getElem?_seedSet _ _ hx]
    cases t.store.entries[x]? with
    | none => rfl
    | some entry => by_cases hkind : keyType entry = .deterministic <;> simp [hkind]

/-- In every run from an unlocked store, an insertion takes an account that is not in the store, alters no
other, gives it the key of its index and increases the index. A new seed removes the accounts that were
made by such an insertion, and no others. -/
theorem deterministic_keys {s0 : WalletStore} (hopen : s0.validPassword c) {t : Kinds}
    (hrun : Reaches (fun t event t' => t.exec c event = some t') (fun t event => event.Ok c t.store)
      s0.kinds t) :
    (t.store.Insertable c → ∃ a index s', t.store.deterministicInsert c = some (a, s') ∧
      t.store.accountExists a = false ∧
      (∀ x, validPublicKey x → x ≠ a → s'.entries[x]? = t.store.entries[x]?) ∧
      s'.entries[a]? = some ⟨marker index, 0⟩ ∧
      (∀ g, s'.fetch c a g = (false, c.deterministicKey (t.store.seed c) index)) ∧
      s'.seed c = t.store.seed c ∧
      t.store.deterministicIndexGet < s'.deterministicIndexGet) ∧
    (∀ x, validPublicKey x → (t.kind x).isSome = t.store.accountExists x) ∧
    ∀ prv, ((t.store.seedSet c prv).deterministicIndexGet = 0 ∧
      ∀ x, validPublicKey x → (t.store.seedSet c prv).entries[x]? =
        if t.kind x = some .deterministic then none else t.store.entries[x]?) := by
  have hok : KindsOk c t := hrun.invariant (I := KindsOk c) ⟨hopen, fun _ _ => rfl⟩
    fun _ _ _ h hok hstep => h.exec hok hstep
  refine ⟨fun hinsertable => ?_, fun x hx => ?_, fun prv => ⟨deterministicIndexGet_seedSet _ _, fun x hx => ?_⟩⟩
  · obtain ⟨k, s', hins, hinsd⟩ := deterministicInsert_spec hinsertable
    have hval := hinsertable.valid (.ofNat 32 k)
    refine ⟨_, .ofNat 32 k, s', hins, hinsd.free, fun x hx hne => ?_, ?_,
      fun g => hinsd.fetch hval hok.unlocked, ?_, ?_⟩
    · rw [hinsd.entries x hx, if_neg hne]
    · rw [hinsd.entries _ hval, if_pos rfl]
    · unfold seed
      rw [hinsd.seed, hinsd.access.walletKey_eq, hinsd.access.salt_eq]
    · rw [BitVec.lt_def, hinsd.index]
      exact Nat.lt_succ_of_le hinsd.le
  · rw [accountExists_eq, hok.kind x hx, hx, Bool.true_and, isSome_map]
  · rw [hok.kind x hx, getElem?_seedSet _ _ hx]

end WalletStore

open Sample

theorem Sample.toNat_accountAt {s : WalletStore} (hseed : s.seed crypto = BitVec.ofNat 256 (2 ^ 240 + 3))
    (i : BitVec 32) : (s.accountAt crypto i).toNat = 2 ^ 240 + 1003 + i.toNat := by
  have hlt := i.isLt
  unfold WalletStore.accountAt WalletStore.deterministicKey
  rw [hseed]
  change (BitVec.ofNat 256 (2 ^ 240 + 3) + i.setWidth 256 + 1000).toNat = _
  rw [BitVec.toNat_add, BitVec.toNat_add, BitVec.toNat_ofNat, BitVec.toNat_setWidth]
  change (_ % 2 ^ 256 + 1000) % 2 ^ 256 = _
  omega

theorem Sample.valid_accountAt {s : WalletStore} (hseed : s.seed crypto = BitVec.ofNat 256 (2 ^ 240 + 3))
    (i : BitVec 32) : WalletStore.validPublicKey (s.accountAt crypto i) := by
  refine decide_eq_true (BitVec.le_def.2 ?_)
  rw [toNat_accountAt hseed]
  exact Nat.le_add_right_of_le (by decide)

/-- A new wallet into which a key was inserted. -/
def Sample.adhocKinds : WalletStore.Kinds :=
  ⟨(wallet.insertAdhoc crypto 5).2, Function.update wallet.kinds.kind 1005 (some .adhoc)⟩

open WalletStore in
/-- The first account of the seed is inserted as well, or there is another seed. -/
theorem deterministic_keys_adhoc :
    (∃ a index s', adhocKinds.store.deterministicInsert crypto = some (a, s') ∧
      adhocKinds.store.accountExists a = false ∧ s'.fetch crypto a 0 =
        (false, crypto.deterministicKey (adhocKinds.store.seed crypto) index)) ∧
    ∀ prv, (adhocKinds.store.seedSet crypto prv).entries[(1005 : Account)]? =
      adhocKinds.store.entries[(1005 : Account)]? := by
  have hadhoc : (KeyEvent.insertAdhoc 5).Ok crypto Sample.wallet :=
    ⟨by decide +kernel, by decide +kernel⟩
  obtain ⟨hins, -, hseed⟩ := @deterministic_keys crypto Sample.wallet
    (by decide +kernel) adhocKinds (.tail (a := .insertAdhoc 5) .refl hadhoc rfl)
  refine ⟨?_, fun prv => ?_⟩
  · obtain ⟨a, index, s', heq, hfree, -, -, hfet, -, -⟩ :=
      hins ⟨valid_accountAt (by decide +kernel), 0, by decide +kernel, by decide +kernel, by decide +kernel⟩
    exact ⟨a, index, s', heq, hfree, hfet 0⟩
  · rw [(hseed prv).2 1005 (by decide +kernel)]
    exact if_neg (by decide +kernel)

end Futurehead
