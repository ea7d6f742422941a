import Futurehead.Base.Run
import Futurehead.Wallet.Store

/-!
# Keys and passwords

A store is unlocked when the wallet key that the password gives passes the check. No wrong password
does (`OpensOnly`), so whatever happens to the password, an unlocked store has the wallet key with
which its entries were encrypted. `keyOf` is what `fetch` gives out with a given wallet key; it does
not depend on the password any more. `keys_survive` is what holds in every run, and `key_lost` a run
in which a key is overwritten.
-/

namespace Futurehead

open Option

variable {found : Option RawKey} {password : Text} {s' s : WalletStore} {key : RawKey}

/-- Decryption inverts encryption. -/
def Crypto.Inverts (c : Crypto) : Prop := ∀ x key iv, c.decrypt (c.encrypt x key iv) key iv = x

namespace WalletStore

variable {c : Crypto} {prv g : RawKey} {pub a : Account}

/-! ## What a wallet key gives out -/

/-- The key has the check value of the store. -/
def Opens (c : Crypto) (s : WalletStore) (key : RawKey) : Prop :=
  s.check = c.encrypt 0 key (oword s.salt checkIvIndex)

/-- The password of the store gives the wallet key `key`, or it does not pass the check. -/
def OpensOnly (c : Crypto) (s : WalletStore) (key : RawKey) : Prop :=
  s.validPassword c → s.walletKey c = key

instance {c : Crypto} : Decidable (s.OpensOnly c key) :=
  inferInstanceAs (Decidable (_ → _))

/-- What `fetch` gives out when the wallet key is `key`. -/
def keyOf (c : Crypto) (s : WalletStore) (key : RawKey) (pub : Account) : Option RawKey :=
  let value := s.entryGetRaw pub
  let found := if value.key = 0 then none else
    match keyType value with
    | .deterministic => some (c.deterministicKey
        (c.decrypt (s.entryGetRaw seedSpecial).key key (oword s.salt seedIvIndex))
        (value.key.setWidth 32))
    | .adhoc => some (c.decrypt value.key key (oword pub 0))
    | .unknown => none
  found.filter fun prv => c.pubKey prv = pub

theorem validPassword_iff : s.validPassword c ↔ s.Opens c (s.walletKey c) := beq_iff_eq

theorem fetch_eq_ok : s.fetch c pub g = (false, prv) ↔
    s.validPassword c ∧ s.keyOf c (s.walletKey c) pub = some prv := by
  unfold fetch fetchRaw keyOf deterministicKey seed
  by_cases hv : s.validPassword c
  · by_cases hz : (s.entryGetRaw pub).key = 0
    · simp [hv, hz]
    · cases ht : keyType (s.entryGetRaw pub) with
      | unknown => simp [hv, ht]
      | adhoc | deterministic =>
        simp only [hv, hz, ht, ne_eq, not_false_eq_true, if_true, if_false, Bool.false_or,
          Prod.mk.injEq, bne_eq_false_iff_eq, true_and, filter_eq_some_iff,
          Option.some.injEq, decide_eq_true_eq]
        constructor
        · rintro ⟨hpub, rfl⟩
          exact ⟨rfl, hpub⟩
        · rintro ⟨rfl, hpub⟩
          exact ⟨hpub, rfl⟩
  · simp [hv]

theorem ne_zero_of_keyOf (h : s.keyOf c key pub = some prv) : (s.entryGetRaw pub).key ≠ 0 := by
  intro hz
  have hfnd := (filter_eq_some_iff.1 h).1
  rw [if_pos hz] at hfnd
  cases hfnd

theorem pubKey_of_keyOf (h : s.keyOf c key pub = some prv) : c.pubKey prv = pub :=
  of_decide_eq_true (filter_eq_some_iff.1 h).2

theorem pubKey_of_fetch (h : (s.fetch c pub g).1 = false) : c.pubKey (s.fetch c pub g).2 = pub :=
  pubKey_of_keyOf (fetch_eq_ok.1 (Prod.ext h rfl)).2

theorem keyOf_congr (hsalt : s'.salt = s.salt)
    (hseed : s'.entryGetRaw seedSpecial = s.entryGetRaw seedSpecial)
    (hent : s'.entryGetRaw pub = s.entryGetRaw pub) : s'.keyOf c key pub = s.keyOf c key pub := by
  unfold keyOf
  rw [hsalt, hseed, hent]

theorem keyOf_adhoc
    (hinv : c.decrypt (c.encrypt prv key (oword pub 0)) key (oword pub 0) = prv)
    (work : BitVec 64) (hpub : c.pubKey prv = pub)
    (hent : s.entryGetRaw pub = ⟨c.encrypt prv key (oword pub 0), work⟩)
    (hlg : 2 ^ 64 ≤ (c.encrypt prv key (oword pub 0)).toNat) : s.keyOf c key pub = some prv := by
  have hne : c.encrypt prv key (oword pub 0) ≠ 0 := fun h => by
    rw [h] at hlg
    exact absurd hlg (by decide)
  unfold keyOf
  rw [hent]
  simp only [if_neg hne, keyType, if_pos hlg, hinv]
  exact filter_eq_some_iff.2 ⟨rfl, decide_eq_true hpub⟩

theorem toNat_marker (index : BitVec 32) : (marker index).toNat = 2 ^ 32 + index.toNat := by
  have hlt := index.isLt
  have hor := Nat.two_pow_add_eq_or_of_lt hlt 1
  rw [Nat.mul_one] at hor
  unfold marker
  rw [BitVec.toNat_or, BitVec.toNat_setWidth, Nat.mod_eq_of_lt (show index.toNat < 2 ^ 256 by omega)]
  exact hor.symm

theorem keyOf_deterministic {index : BitVec 32} {work : BitVec 64}
    (hprv : prv = c.deterministicKey
      (c.decrypt (s.entryGetRaw seedSpecial).key key (oword s.salt seedIvIndex)) index)
    (hpub : c.pubKey prv = pub) (hent : s.entryGetRaw pub = ⟨marker index, work⟩) :
    s.keyOf c key pub = some prv := by
  have hlt := index.isLt
  have htoNat := toNat_marker index
  have hne : marker index ≠ 0 := fun h => by
    rw [h] at htoNat
    change 0 = _ at htoNat
    omega
  have hindex : (marker index).setWidth 32 = index := by
    apply BitVec.eq_of_toNat_eq
    rw [BitVec.toNat_setWidth, htoNat]
    omega
  unfold keyOf
  rw [hent]
  simp only [if_neg hne, keyType, htoNat]
  rw [if_neg (by omega), if_pos (by omega), hindex, ← hprv]
  exact filter_eq_some_iff.2 ⟨rfl, decide_eq_true hpub⟩

/-! ## Special entries -/

/-- The entries on which the meaning of all others rests. -/
structure SameSeal (s s' : WalletStore) : Prop where
  check : s'.entryGetRaw checkSpecial = s.entryGetRaw checkSpecial
  salt : s'.entryGetRaw saltSpecial = s.entryGetRaw saltSpecial
  seed : s'.entryGetRaw seedSpecial = s.entryGetRaw seedSpecial
  version : s'.entryGetRaw versionSpecial = s.entryGetRaw versionSpecial

namespace SameSeal

theorem of_entries (h : s'.entries = s.entries) : SameSeal s s' := by
  have hget (x : Account) : s'.entryGetRaw x = s.entryGetRaw x := by
    unfold entryGetRaw
    rw [h]
  exact ⟨hget _, hget _, hget _, hget _⟩

theorem of_ne (h : ∀ x, x ≠ a → s'.entryGetRaw x = s.entryGetRaw x)
    (ha : a ∉ [versionSpecial, saltSpecial, checkSpecial, seedSpecial]) : SameSeal s s' := by
  simp only [List.mem_cons, List.not_mem_nil, or_false, not_or] at ha
  obtain ⟨hver, hsalt, hchk, hseed⟩ := ha
  exact ⟨h _ (Ne.symm hchk), h _ (Ne.symm hsalt), h _ (Ne.symm hseed), h _ (Ne.symm hver)⟩

theorem trans {s'' : WalletStore} (h : SameSeal s s') (h' : SameSeal s' s'') : SameSeal s s'' :=
  ⟨h'.check.trans h.check, h'.salt.trans h.salt, h'.seed.trans h.seed, h'.version.trans h.version⟩

theorem salt_eq (h : SameSeal s s') : s'.salt = s.salt := congrArg WalletValue.key h.salt

theorem opens_iff (h : SameSeal s s') : s'.Opens c key ↔ s.Opens c key := by
  unfold Opens
  rw [h.salt_eq, show s'.check = s.check from congrArg WalletValue.key h.check]

theorem version_eq (h : SameSeal s s') : s'.version = s.version := by
  unfold WalletStore.version
  rw [h.version]

theorem walletKey_eq (h : SameSeal s s') (hpw : s'.password = s.password)
    (hmem : s'.walletKeyMem = s.walletKeyMem) : s'.walletKey c = s.walletKey c := by
  unfold walletKey
  rw [h.salt_eq, hpw, hmem]

theorem validPassword_iff (h : SameSeal s s') (hkey : s'.walletKey c = s.walletKey c) :
    s'.validPassword c ↔ s.validPassword c := by
  rw [WalletStore.validPassword_iff, WalletStore.validPassword_iff, h.opens_iff, hkey]

theorem opensOnly (h : SameSeal s s') (hkey : s'.walletKey c = s.walletKey c)
    (honly : s.OpensOnly c key) : s'.OpensOnly c key :=
  fun hv => hkey.trans (honly ((h.validPassword_iff hkey).1 hv))

end SameSeal

theorem not_special (h : validPublicKey a) :
    a ∉ [versionSpecial, saltSpecial, checkSpecial, seedSpecial] := by
  have hle : specialCount ≤ a := of_decide_eq_true h
  simp only [List.mem_cons, List.not_mem_nil, or_false, not_or]
  refine ⟨?_, ?_, ?_, ?_⟩ <;> rintro rfl <;> exact absurd hle (by decide)

/-! ## Keys along a run -/

/-- The wallet key gives out the keys of `held`. These are keys of accounts. -/
structure Keeps (c : Crypto) (key : RawKey) (s : WalletStore) (held : Account → Option RawKey) :
    Prop where
  account : ∀ {pub prv}, held pub = some prv → validPublicKey pub
  keyOf : ∀ {pub prv}, held pub = some prv → s.keyOf c key pub = some prv

section

variable {held : Account → Option RawKey}

theorem Keeps.fetch (h : Keeps c key s held) (honly : s.OpensOnly c key) (hv : s.validPassword c)
    (hheld : held pub = some prv) : s.fetch c pub g = (false, prv) :=
  fetch_eq_ok.2 ⟨hv, honly hv ▸ h.keyOf hheld⟩

theorem Keeps.congr (h : Keeps c key s held) (hseal : SameSeal s s')
    (hent : ∀ x, validPublicKey x → s'.entryGetRaw x = s.entryGetRaw x) :
    Keeps c key s' held where
  account := h.account
  keyOf := fun hheld => by
    rw [keyOf_congr hseal.salt_eq hseal.seed (hent _ (h.account hheld))]
    exact h.keyOf hheld

theorem Keeps.update (h : Keeps c key s held) (hseal : SameSeal s s')
    (ha : validPublicKey a) (hent : ∀ x, x ≠ a → s'.entryGetRaw x = s.entryGetRaw x)
    (hnew : ∀ {prv}, found = some prv → s'.keyOf c key a = some prv) :
    Keeps c key s' (Function.update held a found) where
  account := fun {pub prv} hheld => by
    by_cases hpub : pub = a
    · exact hpub ▸ ha
    · rw [Function.update_of_ne hpub] at hheld
      exact h.account hheld
  keyOf := fun {pub prv} hheld => by
    by_cases hpub : pub = a
    · subst hpub
      rw [Function.update_self] at hheld
      exact hnew hheld
    · rw [Function.update_of_ne hpub] at hheld
      rw [keyOf_congr hseal.salt_eq hseal.seed (hent pub hpub)]
      exact h.keyOf hheld

end

/-! ## The password -/

theorem upgrade_current (h : s.version = versionCurrent) (seed : RawKey) : s.upgrade c seed = s := by
  unfold upgrade
  rw [h]
  rfl

theorem attemptPassword_eq (h : s.version = versionCurrent) (password : Text) (seed : RawKey) :
    s.attemptPassword c password seed =
      (!({ s with password := s.password.valueSet (s.deriveKey c password) } : WalletStore
          ).validPassword c,
        { s with password := s.password.valueSet (s.deriveKey c password) }) := by
  unfold attemptPassword
  dsimp only
  split
  · rename_i hv
    rw [upgrade_current (by exact h), hv]
    rfl
  · rename_i hv
    rw [Bool.eq_false_of_not_eq_true hv]
    rfl

theorem rekey_ok (h : s.rekey c password = (false, s')) :
    s.validPassword c ∧ s'.password.value = s.deriveKey c password ∧
      s'.walletKeyMem.value = c.encrypt (s.walletKey c) (s.deriveKey c password) (oword s.salt 0) ∧
      s'.entryGetRaw walletKeySpecial = ⟨s'.walletKeyMem.value, 0⟩ ∧
      ∀ x, x ≠ walletKeySpecial → s'.entryGetRaw x = s.entryGetRaw x := by
  unfold rekey at h
  split at h
  · rename_i hv
    obtain rfl := (Prod.mk.inj h).2
    refine ⟨hv, Fan.value_valueSet _ _, Fan.value_valueSet _ _, ?_, fun x hx => ?_⟩
    · rw [entryGetRaw_put, if_pos rfl]
      exact congrArg (WalletValue.mk · 0) (Fan.value_valueSet _ _).symm
    · exact entryGetRaw_put_ne hx _
  · cases h

theorem rekey_seal (h : s.rekey c password = (false, s')) : SameSeal s s' :=
  .of_ne (rekey_ok h).2.2.2.2 (by decide +kernel)

theorem walletKey_of_encrypt (A : c.Inverts) {salt : Uint256} (hsalt : s.salt = salt)
    (hmem : s.walletKeyMem.value = c.encrypt key s.password.value (oword salt 0)) :
    s.walletKey c = key := by
  unfold walletKey
  rw [hsalt, hmem, A]

theorem new_eq (h : s.version = versionCurrent) (random : Random) (representative : Account) :
    new c s.entries random representative =
      ⟨s.entries, .new 0 random.password,
        (Fan.new 0 random.walletKeyMem).valueSet (s.entryGetRaw walletKeySpecial).key⟩ := by
  have hcont : s.entries.contains versionSpecial = true := by
    rw [Std.ExtTreeMap.contains_eq_isSome_getElem?]
    unfold version entryGetRaw at h
    cases hget : s.entries[versionSpecial]? with
    | some v => rfl
    | none =>
      rw [hget] at h
      cases h
  unfold new
  dsimp only
  rw [if_pos hcont]
  rfl

theorem rekey_key (A : c.Inverts) (h : s.rekey c password = (false, s')) :
    s'.walletKey c = s.walletKey c := by
  obtain ⟨-, hpw, hmem, -⟩ := rekey_ok h
  exact walletKey_of_encrypt A (rekey_seal h).salt_eq (by rw [hmem, hpw])

theorem unlocks_after_rekey (A : c.Inverts) (hver : s.version = versionCurrent)
    (h : s.rekey c password = (false, s')) (seed : RawKey) (random : Random)
    (representative : Account) :
    s'.validPassword c ∧ (s'.attemptPassword c password seed).1 = false ∧
      ((new c s'.entries random representative).attemptPassword c password seed).1 = false := by
  obtain ⟨hv, hpw, hmem, hst, -⟩ := rekey_ok h
  have hseal := rekey_seal h
  have hopens : s'.Opens c (s.walletKey c) := hseal.opens_iff.2 (validPassword_iff.1 hv)
  have hderive : s'.deriveKey c password = s.deriveKey c password := by
    unfold deriveKey
    rw [hseal.salt_eq]
  -- any store with these entries, this wallet key in memory and the new password
  have key {t : WalletStore} (hents : t.entries = s'.entries)
      (htmem : t.walletKeyMem.value = s'.walletKeyMem.value)
      (htpassword : t.password.value = s.deriveKey c password) : t.validPassword c := by
    have htseal : SameSeal s' t := .of_entries hents
    have hkey : t.walletKey c = s.walletKey c := walletKey_of_encrypt A
      (htseal.salt_eq.trans hseal.salt_eq) (by rw [htmem, hmem, htpassword])
    rw [validPassword_iff, hkey]
    exact htseal.opens_iff.2 hopens
  have hver' : s'.version = versionCurrent := hseal.version_eq.trans hver
  refine ⟨key rfl rfl hpw, ?_, ?_⟩
  · rw [attemptPassword_eq hver']
    exact Bool.not_eq_eq_eq_not.2 (key rfl rfl ((Fan.value_valueSet _ _).trans hderive))
  · rw [new_eq hver', attemptPassword_eq (by exact hver')]
    refine Bool.not_eq_eq_eq_not.2 (key rfl ?_ ((Fan.value_valueSet _ _).trans hderive))
    rw [Fan.value_valueSet, hst]

/-! ## Runs -/

inductive Event where
  | attemptPassword (password : Text) (seed : RawKey)
  | rekey (password : Text)
  | insertAdhoc (prv : RawKey)
  | insertWatch (pub : Account)
  | deterministicInsert
  | deterministicInsertAt (index : BitVec 32)
  | erase (pub : Account)
  /-- The table is opened by a new store. -/
  | reopen (random : Random) (representative : Account)

/-- A store, and for each account the key with which it was last inserted, until it is erased. -/
structure Tracked where
  store : WalletStore
  held : Account → Option RawKey

def Tracked.exec (c : Crypto) (t : Tracked) : Event → Option Tracked
  | .attemptPassword password seed => some { t with store := (t.store.attemptPassword c password seed).2 }
  | .rekey password => some { t with store := (t.store.rekey c password).2 }
  | .insertAdhoc prv =>
    let (pub, s) := t.store.insertAdhoc c prv
    some ⟨s, Function.update t.held pub (some prv)⟩
  | .insertWatch pub => some { t with store := (t.store.insertWatch pub).2 }
  | .deterministicInsert => do
    let index ← t.store.deterministicSearch c (2 ^ 32) t.store.deterministicIndexGet
    let (pub, s) ← t.store.deterministicInsert c
    some ⟨s, Function.update t.held pub (some (t.store.deterministicKey c index))⟩
  | .deterministicInsertAt index =>
    let (pub, s) := t.store.deterministicInsertAt c index
    some ⟨s, Function.update t.held pub (some (t.store.deterministicKey c index))⟩
  | .erase pub => some ⟨t.store.erase pub, Function.update t.held pub none⟩
  | .reopen random representative =>
    some { t with store := new c t.store.entries random representative }

/-- The event overwrites no key and no special entry. Keys are inserted while the store is unlocked,
no ad-hoc ciphertext is small, and a wrong password does not give the check value of the wallet key
`key`. -/
def Event.Careful (c : Crypto) (key : RawKey) (s : WalletStore) : Event → Prop
  | .attemptPassword password seed => (s.attemptPassword c password seed).2.OpensOnly c key
  | .reopen random representative => (new c s.entries random representative).OpensOnly c key
  | .insertAdhoc prv => s.validPassword c ∧ validPublicKey (c.pubKey prv) ∧
    2 ^ 64 ≤ (c.encrypt prv (s.walletKey c) (oword (c.pubKey prv) 0)).toNat
  | .insertWatch pub => (s.entryGetRaw pub).key = 0
  | .deterministicInsert => s.validPassword c ∧ ∀ r ∈ s.deterministicInsert c, validPublicKey r.1
  | .deterministicInsertAt index => s.validPassword c ∧
    validPublicKey (c.pubKey (s.deterministicKey c index))
  | .erase pub => validPublicKey pub
  | .rekey _ => True

/-- The key that the store gives out for an account. -/
def held (c : Crypto) (s : WalletStore) (pub : Account) : Option RawKey :=
  if validPublicKey pub ∧ (s.fetch c pub 0).1 = false then some (s.fetch c pub 0).2 else none

theorem keeps_held (honly : s.OpensOnly c key) : Keeps c key s (s.held c) := by
  have hfet {pub prv} (h : s.held c pub = some prv) :
      validPublicKey pub ∧ s.fetch c pub 0 = (false, prv) := by
    unfold held at h
    split at h
    · rename_i hok
      exact ⟨hok.1, Prod.ext hok.2 (Option.some.inj h)⟩
    · cases h
  refine ⟨fun h => (hfet h).1, fun h => ?_⟩
  obtain ⟨hv, hkey⟩ := fetch_eq_ok.1 (hfet h).2
  rw [← honly hv]
  exact hkey

/-- What holds along a run: no upgrade is left to do, the wallet key is `key`, and it gives out the
keys that are held. -/
structure TrackedOk (c : Crypto) (key : RawKey) (t : Tracked) : Prop where
  version : t.store.version = versionCurrent
  only : t.store.OpensOnly c key
  keeps : Keeps c key t.store t.held

section

variable {t t' : Tracked} {entry : WalletValue}

theorem seal_put (ha : validPublicKey a) : SameSeal s (s.entryPutRaw a entry) :=
  .of_ne (fun _ hx => entryGetRaw_put_ne hx _) (not_special ha)

theorem TrackedOk.put (h : TrackedOk c key t) (ha : validPublicKey a)
    (hnew : ∀ {prv}, found = some prv → (t.store.entryPutRaw a entry).keyOf c key a = some prv) :
    TrackedOk c key ⟨t.store.entryPutRaw a entry, Function.update t.held a found⟩ := by
  have hseal : SameSeal t.store (t.store.entryPutRaw a entry) := seal_put ha
  exact ⟨hseal.version_eq.trans h.version, hseal.opensOnly (hseal.walletKey_eq rfl rfl) h.only,
    h.keeps.update hseal ha (fun _ hx => entryGetRaw_put_ne hx _) hnew⟩

theorem TrackedOk.insertAdhoc (A : c.Inverts) (h : TrackedOk c key t)
    (hcare : (Event.insertAdhoc prv).Careful c key t.store) :
    TrackedOk c key
      ⟨(t.store.insertAdhoc c prv).2, Function.update t.held (c.pubKey prv) (some prv)⟩ := by
  obtain ⟨hv, hpub, hlg⟩ := hcare
  refine h.put hpub fun {prv'} hfnd => ?_
  obtain rfl := Option.some.inj hfnd
  obtain rfl := h.only hv
  exact keyOf_adhoc (A _ _ _) _ rfl (by rw [entryGetRaw_put, if_pos rfl]) hlg

theorem TrackedOk.deterministicInsertAt (h : TrackedOk c key t) (index : BitVec 32)
    (hv : t.store.validPassword c) (hpub : validPublicKey (c.pubKey (t.store.deterministicKey c index))) :
    TrackedOk c key ⟨(t.store.deterministicInsertAt c index).2, Function.update t.held
      (c.pubKey (t.store.deterministicKey c index)) (some (t.store.deterministicKey c index))⟩ := by
  refine h.put hpub fun {prv} hfnd => ?_
  obtain rfl := Option.some.inj hfnd
  obtain rfl := h.only hv
  have hseal : SameSeal t.store (t.store.deterministicInsertAt c index).2 := seal_put hpub
  refine keyOf_deterministic (s := (t.store.deterministicInsertAt c index).2) ?_ rfl
    ((entryGetRaw_put ..).trans (if_pos rfl))
  rw [hseal.salt_eq, hseal.seed]
  rfl

theorem TrackedOk.special (h : TrackedOk c key t) (ha : validPublicKey a = false)
    (hspecial : a ∉ [versionSpecial, saltSpecial, checkSpecial, seedSpecial])
    (hent : ∀ x, x ≠ a → s'.entryGetRaw x = t.store.entryGetRaw x)
    (hkey : SameSeal t.store s' → s'.walletKey c = t.store.walletKey c) :
    TrackedOk c key { t with store := s' } := by
  have hseal : SameSeal t.store s' := .of_ne hent hspecial
  refine ⟨hseal.version_eq.trans h.version, hseal.opensOnly (hkey hseal) h.only,
    h.keeps.congr hseal fun x hx => hent x fun heq => ?_⟩
  rw [heq, ha] at hx
  cases hx

theorem TrackedOk.of_entries (h : TrackedOk c key t)
    (hents : s'.entries = t.store.entries) (honly : s'.OpensOnly c key) :
    TrackedOk c key { t with store := s' } := by
  have hseal : SameSeal t.store s' := .of_entries hents
  refine ⟨hseal.version_eq.trans h.version, honly, h.keeps.congr hseal fun x _ => ?_⟩
  unfold entryGetRaw
  rw [hents]

theorem TrackedOk.exec (A : c.Inverts) (h : TrackedOk c key t) {event : Event}
    (hcare : event.Careful c key t.store) (hexec : t.exec c event = some t') :
    TrackedOk c key t' := by
  cases event with
  | attemptPassword password seed =>
    cases hexec
    exact h.of_entries (by rw [attemptPassword_eq h.version]) hcare
  | rekey password =>
    cases hexec
    cases hrekey : t.store.rekey c password with
    | mk error s' =>
      cases error with
      | false =>
        exact h.special (by decide) (by decide +kernel) (rekey_ok hrekey).2.2.2.2
          fun _ => rekey_key A hrekey
      | true =>
        unfold WalletStore.rekey at hrekey
        split at hrekey
        · cases hrekey
        · cases hrekey
          exact h
  | insertAdhoc prv =>
    cases hexec
    exact h.insertAdhoc A hcare
  | insertWatch pub =>
    cases hexec
    unfold insertWatch
    split
    · rename_i hpub
      -- nothing is held for an account without a value
      have hheld : Function.update t.held pub (t.held pub) = t.held := Function.update_eq_self ..
      have hput : TrackedOk c key ⟨t.store.entryPutRaw pub ⟨0, 0⟩,
          Function.update t.held pub (t.held pub)⟩ :=
        h.put hpub fun hfnd => absurd hcare (ne_zero_of_keyOf (h.keeps.keyOf hfnd))
      rwa [hheld] at hput
    · exact h
  | deterministicInsert =>
    obtain ⟨hv, hpub⟩ := hcare
    obtain ⟨index, hindex, hexec⟩ := bind_eq_some_iff.1 hexec
    have hins : t.store.deterministicInsert c =
        some ((t.store.deterministicInsertAt c index).1,
          ((t.store.deterministicInsertAt c index).2.deterministicIndexSet (index + 1))) := by
      unfold deterministicInsert
      rw [hindex]
      rfl
    rw [hins] at hexec
    cases hexec
    have hat := h.deterministicInsertAt index hv (hpub _ hins)
    exact hat.special (a := deterministicIndexSpecial) (by decide) (by decide +kernel)
      (fun _ hx => entryGetRaw_put_ne hx _) fun hseal => hseal.walletKey_eq rfl rfl
  | deterministicInsertAt index =>
    cases hexec
    exact h.deterministicInsertAt index hcare.1 hcare.2
  | erase pub =>
    cases hexec
    have hseal : SameSeal t.store (t.store.erase pub) :=
      .of_ne (fun _ => entryGetRaw_erase_ne) (not_special hcare)
    exact ⟨hseal.version_eq.trans h.version, hseal.opensOnly (hseal.walletKey_eq rfl rfl) h.only,
      h.keeps.update hseal hcare (fun _ => entryGetRaw_erase_ne) fun hfnd => by cases hfnd⟩
  | reopen random representative =>
    cases hexec
    exact h.of_entries (by rw [new_eq h.version]) hcare

/-- One event of a run. -/
def Tracked.Step (c : Crypto) (t : Tracked) (event : Event) (t' : Tracked) : Prop :=
  t.exec c event = some t'

/-- In every run that overwrites no key: an unlocked store gives out every key that was inserted and
not erased. A rekey makes the new password unlock the store, also after it is opened again. A failed
attempt and a failed rekey change no entry, and a rekey of a locked store fails. -/
theorem keys_survive (A : c.Inverts) (hver : s.version = versionCurrent)
    (honly : s.OpensOnly c key)
    (hrun : Reaches (Tracked.Step c) (fun t event => event.Careful c key t.store) ⟨s, s.held c⟩ t) :
    (t.store.validPassword c → ∀ pub prv g, t.held pub = some prv →
      t.store.fetch c pub g = (false, prv)) ∧
    (∀ password s', t.store.rekey c password = (false, s') → ∀ seed random representative,
      s'.validPassword c ∧ (s'.attemptPassword c password seed).1 = false ∧
        ((new c s'.entries random representative).attemptPassword c password seed).1 = false) ∧
    (∀ password seed s', t.store.attemptPassword c password seed = (true, s') →
      s'.entries = t.store.entries) ∧
    (t.store.validPassword c = false → ∀ password, t.store.rekey c password = (true, t.store)) := by
  have h : TrackedOk c key t := hrun.invariant (I := TrackedOk c key)
    ⟨hver, honly, keeps_held honly⟩ fun _ _ _ h hok hstep => h.exec A hok hstep
  refine ⟨fun hv pub prv g hheld => h.keeps.fetch h.only hv hheld, fun password s' hrekey seed random rep =>
    unlocks_after_rekey A h.version hrekey seed random rep, fun password seed s' hatt => ?_,
    fun hv password => ?_⟩
  · rw [attemptPassword_eq h.version] at hatt
    rw [← (Prod.mk.inj hatt).2]
  · unfold WalletStore.rekey
    rw [hv, if_neg Bool.false_ne_true]

end

def Tracked.run (c : Crypto) : List Event → Tracked → Option Tracked
  | [], t => some t
  | event :: events, t => (t.exec c event).bind (run c events)

end WalletStore

namespace Sample

def crypto : Crypto where
  encrypt x key iv := x ^^^ key ^^^ iv.setWidth 256
  decrypt x key iv := x ^^^ key ^^^ iv.setWidth 256
  phs password salt := salt + BitVec.ofNat 256 (password.length + 1)
  pubKey prv := prv + 1000
  deterministicKey seed index := seed + index.setWidth 256
  signMessage prv _ hash := prv ++ hash

theorem crypto_inverts : crypto.Inverts := fun x key iv => by
  change x ^^^ key ^^^ iv.setWidth 256 ^^^ key ^^^ iv.setWidth 256 = x
  generalize iv.setWidth 256 = y
  calc x ^^^ key ^^^ y ^^^ key ^^^ y = x ^^^ (key ^^^ key) ^^^ (y ^^^ y) := by ac_rfl
    _ = x := by simp

def random : WalletStore.Random := ⟨2 ^ 200 + 1, 2 ^ 250 + 2, 2 ^ 240 + 3, [4, 5], [6, 7]⟩

def wallet : WalletStore := .new crypto ∅ random 11

end Sample

open Sample

open WalletStore in
/-- A key is inserted, the password is changed, and the wallet is opened again. The new password is
tried after a wrong one. -/
theorem keys_survive_rekey :
    ∃ t : Tracked, Reaches (Tracked.Step crypto)
        (fun t event => event.Careful crypto random.walletKey t.store)
        ⟨Sample.wallet, Sample.wallet.held crypto⟩ t ∧
      t.store.validPassword crypto ∧ t.store.fetch crypto 1005 0 = (false, 5) := by
  have hadhoc : (Event.insertAdhoc 5).Careful crypto random.walletKey Sample.wallet :=
    ⟨by decide +kernel, by decide +kernel, by decide +kernel⟩
  have hrun : Reaches (Tracked.Step crypto)
      (fun t event => event.Careful crypto random.walletKey t.store)
      ⟨Sample.wallet, Sample.wallet.held crypto⟩ _ :=
    .tail (a := .attemptPassword ['x'] 0)
      (.tail (a := .attemptPassword ['y', 'y'] 0)
        (.tail (a := .reopen random 12)
          (.tail (a := .rekey ['x'])
            (.tail (a := .insertAdhoc 5) .refl hadhoc rfl) trivial rfl)
          (by unfold Event.Careful; decide +kernel) rfl)
        (by unfold Event.Careful; decide +kernel) rfl)
      (by unfold Event.Careful; decide +kernel) rfl
  refine ⟨_, hrun, by decide +kernel, ?_⟩
  exact (keys_survive crypto_inverts (by decide +kernel) (by decide +kernel) hrun).1
    (by decide +kernel) _ _ _ (by decide +kernel)

open WalletStore in
/-- A key is inserted into an unlocked wallet, and then the same account is watched. -/
theorem key_lost :
    (Event.insertAdhoc 5).Careful crypto random.walletKey Sample.wallet ∧
    ∃ t : Tracked, Tracked.run crypto [.insertAdhoc 5, .insertWatch 1005]
        ⟨Sample.wallet, Sample.wallet.held crypto⟩ = some t ∧
      t.store.validPassword crypto ∧ t.held 1005 = some 5 ∧
      (t.store.fetch crypto 1005 0).1 = true := by
  refine ⟨⟨by decide +kernel, by decide +kernel, by decide +kernel⟩, _, rfl, by decide +kernel,
    by decide +kernel, by decide +kernel⟩

end Futurehead
