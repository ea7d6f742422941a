import Futurehead.Wallet.Keys

/-!
# Upgrades of a wallet

A wallet of an old version is upgraded when it is unlocked. Version 1 may hold keys that were
encrypted before the wallet had a password, version 2 has no seed, and up to version 3 every key was
encrypted with an initialisation vector from the salt. The upgrades follow one another, and each is a
loop over all accounts.

The body of each loop looks at the entry of its own account and changes no other one
(`LocalStep`), so a loop is what its body does to each account alone (`LocalStep.foldl`).
-/

namespace Futurehead.WalletStore

variable {c : Crypto} {s s' : WalletStore} {pub a x : Account} {prv g key : RawKey}

/-! ## Loops over accounts -/

/-- Two stores with the same wallet key and the same check. -/
structure SameAccess (s s' : WalletStore) : Prop where
  check : s'.entryGetRaw checkSpecial = s.entryGetRaw checkSpecial
  salt : s'.entryGetRaw saltSpecial = s.entryGetRaw saltSpecial
  password : s'.password = s.password
  walletKeyMem : s'.walletKeyMem = s.walletKeyMem

namespace SameAccess

theorem refl (s : WalletStore) : SameAccess s s := ⟨rfl, rfl, rfl, rfl⟩

theorem trans {s'' : WalletStore} (h : SameAccess s s') (h' : SameAccess s' s'') :
    SameAccess s s'' :=
  ⟨h'.check.trans h.check, h'.salt.trans h.salt, h'.password.trans h.password,
    h'.walletKeyMem.trans h.walletKeyMem⟩

theorem salt_eq (h : SameAccess s s') : s'.salt = s.salt := congrArg WalletValue.key h.salt

theorem walletKey_eq (h : SameAccess s s') : s'.walletKey c = s.walletKey c := by
  unfold walletKey
  rw [h.salt_eq, h.password, h.walletKeyMem]

theorem validPassword_eq (h : SameAccess s s') : s'.validPassword c = s.validPassword c := by
  have hchk : s'.check = s.check := congrArg WalletValue.key h.check
  unfold validPassword
  rw [h.walletKey_eq, h.salt_eq, hchk]

theorem put {entry : WalletValue} (hchk : checkSpecial ≠ a) (hsalt : saltSpecial ≠ a) :
    SameAccess s (s.entryPutRaw a entry) :=
  ⟨by rw [entryGetRaw_put, if_neg hchk], by rw [entryGetRaw_put, if_neg hsalt], rfl, rfl⟩

end SameAccess

/-- Two stores that `fetch` does not tell apart, except for the entry of the account. -/
structure SameLock (s s' : WalletStore) : Prop where
  access : SameAccess s s'
  seed : s'.entryGetRaw seedSpecial = s.entryGetRaw seedSpecial
  version : s'.entryGetRaw versionSpecial = s.entryGetRaw versionSpecial

namespace SameLock

theorem refl (s : WalletStore) : SameLock s s := ⟨.refl s, rfl, rfl⟩

theorem trans {s'' : WalletStore} (h : SameLock s s') (h' : SameLock s' s'') : SameLock s s'' :=
  ⟨h.access.trans h'.access, h'.seed.trans h.seed, h'.version.trans h.version⟩

theorem of_ne (ha : validPublicKey a)
    (hent : ∀ x, x ≠ a → s'.entryGetRaw x = s.entryGetRaw x) (hpw : s'.password = s.password)
    (hmem : s'.walletKeyMem = s.walletKeyMem) : SameLock s s' := by
  have hseal : SameSeal s s' := .of_ne hent (not_special ha)
  exact ⟨⟨hseal.check, hseal.salt, hpw, hmem⟩, hseal.seed, hseal.version⟩

theorem fetch_eq (h : SameLock s s') (hent : s'.entryGetRaw pub = s.entryGetRaw pub) :
    s'.fetch c pub g = s.fetch c pub g := by
  unfold fetch fetchRaw deterministicKey WalletStore.seed
  rw [h.access.validPassword_eq, h.access.walletKey_eq, h.access.salt_eq, h.seed, hent]

end SameLock

/-- The body of a loop over accounts: it changes the entry of its account only, and what it makes of
that entry does not depend on the other accounts. -/
structure LocalStep (f : WalletStore → Account → WalletStore) : Prop where
  other : ∀ {s a x}, x ≠ a → (f s a).entryGetRaw x = s.entryGetRaw x
  password : ∀ {s a}, (f s a).password = s.password
  walletKeyMem : ∀ {s a}, (f s a).walletKeyMem = s.walletKeyMem
  congr : ∀ {s s' a}, SameLock s s' → s'.entryGetRaw a = s.entryGetRaw a →
    (f s' a).entryGetRaw a = (f s a).entryGetRaw a

namespace LocalStep

variable {f : WalletStore → Account → WalletStore}

theorem lock (hf : LocalStep f) (ha : validPublicKey a) : SameLock s (f s a) :=
  .of_ne ha (fun _ => hf.other) hf.password hf.walletKeyMem

theorem foldl (hf : LocalStep f) {accounts : List Account} (hnd : accounts.Nodup)
    (hval : ∀ a ∈ accounts, validPublicKey a) (s : WalletStore) :
    SameLock s (accounts.foldl f s) ∧ ∀ x, (accounts.foldl f s).entryGetRaw x =
      if x ∈ accounts then (f s x).entryGetRaw x else s.entryGetRaw x := by
  induction accounts generalizing s with
  | nil => exact ⟨.refl s, fun x => by simp⟩
  | cons a accounts ih =>
    obtain ⟨hnotin, hnd⟩ := List.nodup_cons.1 hnd
    obtain ⟨ha, hval⟩ := List.forall_mem_cons.1 hval
    have hlock : SameLock s (f s a) := hf.lock ha
    obtain ⟨hrest, hents⟩ := ih hnd hval (f s a)
    refine ⟨hlock.trans hrest, fun x => ?_⟩
    rw [List.foldl_cons, hents x]
    by_cases hxa : x = a
    · subst hxa
      rw [if_neg hnotin, if_pos List.mem_cons_self]
    · have hmem : x ∈ a :: accounts ↔ x ∈ accounts := by simp [hxa]
      simp only [hmem]
      split
      · exact hf.congr hlock (hf.other hxa)
      · exact hf.other hxa

theorem loop (hf : LocalStep f) (s : WalletStore) :
    SameLock s (s.accounts.foldl f s) ∧ ∀ x, validPublicKey x →
      (s.accounts.foldl f s).entryGetRaw x =
        if s.entries[x]?.isSome then (f s x).entryGetRaw x else s.entryGetRaw x := by
  obtain ⟨hlock, hents⟩ := hf.foldl s.nodup_accounts
    (fun a ha => (s.mem_accounts.1 ha).1) s
  refine ⟨hlock, fun x hx => ?_⟩
  rw [hents x]
  simp only [s.mem_accounts, hx, true_and]

end LocalStep

theorem isSome_of_ne_zero (h : (s.entryGetRaw a).key ≠ 0) : s.entries[a]?.isSome := by
  unfold entryGetRaw at h
  cases hget : s.entries[a]? with
  | none =>
    rw [hget] at h
    exact absurd rfl h
  | some _ => rfl

/-! ## The bodies -/

/-- An entry is left, erased or replaced. -/
def rewriteEntry (s : WalletStore) (a : Account) : Option (Option WalletValue) → WalletStore
  | none => s
  | some none => s.erase a
  | some (some entry) => s.entryPutRaw a entry

theorem entryGetRaw_rewriteEntry (s : WalletStore) (a x : Account)
    (change : Option (Option WalletValue)) :
    (s.rewriteEntry a change).entryGetRaw x =
      if x = a then (change.map (·.getD ⟨0, 0⟩)).getD (s.entryGetRaw a) else s.entryGetRaw x := by
  match change with
  | none =>
    split
    · rename_i hx
      rw [hx]
      rfl
    · rfl
  | some none => exact entryGetRaw_erase s a x
  | some (some entry) => exact entryGetRaw_put s a x entry

variable {u : WalletStore} {value entry : WalletValue}
  {change : WalletStore → Account → Option (Option WalletValue)}

theorem LocalStep.of_rewrite
    (hcongr : ∀ {s s' a}, SameLock s s' → s'.entryGetRaw a = s.entryGetRaw a →
      change s' a = change s a) : LocalStep fun s a => s.rewriteEntry a (change s a) where
  other {s a x} hx := by rw [entryGetRaw_rewriteEntry, if_neg hx]
  password {s a} := by
    match change s a with
    | none | some none | some (some _) => rfl
  walletKeyMem {s a} := by
    match change s a with
    | none | some none | some (some _) => rfl
  congr {s s' a} h hent := by
    rw [entryGetRaw_rewriteEntry, entryGetRaw_rewriteEntry, hcongr h hent, hent]

/-- What the loop of `upgrade_v1_v2` does to an entry. -/
def changeV1V2 (c : Crypto) (zero empty : RawKey) (s : WalletStore) (a : Account) :
    Option (Option WalletValue) :=
  let ciphertext := (s.entryGetRaw a).key
  let reencrypted (prv : RawKey) : WalletValue := ⟨c.encrypt prv (s.walletKey c) (oword a 0), 0⟩
  if (s.fetch c a 0).1 then
    if c.pubKey (c.decrypt ciphertext zero (oword s.salt 0)) = a then
      some (some (reencrypted (c.decrypt ciphertext zero (oword s.salt 0))))
    else if c.pubKey (c.decrypt ciphertext empty (oword s.salt 0)) = a then
      some (some (reencrypted (c.decrypt ciphertext empty (oword s.salt 0))))
    else none
  else none

theorem upgradeV1V2Entry_eq (zero empty : RawKey) :
    upgradeV1V2Entry c zero empty = fun s a => s.rewriteEntry a (changeV1V2 c zero empty s a) := by
  funext s a
  unfold upgradeV1V2Entry changeV1V2 insertAdhoc
  dsimp only
  split
  · split
    · rename_i hpub
      rw [hpub]
      rfl
    · split
      · rename_i hpub
        rw [hpub]
        rfl
      · rfl
  · rfl

theorem localStep_v1_v2 (zero empty : RawKey) : LocalStep (upgradeV1V2Entry c zero empty) := by
  rw [upgradeV1V2Entry_eq]
  refine .of_rewrite fun h hent => ?_
  unfold changeV1V2
  rw [h.fetch_eq hent, hent, h.access.salt_eq, h.access.walletKey_eq]

theorem localStep_clear : LocalStep fun s account =>
    if keyType (s.entryGetRaw account) = .deterministic then s.erase account else s := by
  have heq : (fun (s : WalletStore) account =>
      if keyType (s.entryGetRaw account) = .deterministic then s.erase account else s) =
      fun s account => s.rewriteEntry account
        (if keyType (s.entryGetRaw account) = .deterministic then some none else none) := by
    funext s account
    split <;> rfl
  rw [heq]
  refine .of_rewrite fun h hent => ?_
  rw [hent]

/-- What the loop of `upgrade_v3_v4` does to an entry. -/
def changeV3V4 (c : Crypto) (walletKey : RawKey) (s : WalletStore) (a : Account) :
    Option (Option WalletValue) :=
  let value := s.entryGetRaw a
  if value.key ≠ 0 ∧ keyType value = .adhoc ∧ (s.fetch c a 0).1 then
    some (some ⟨c.encrypt (c.decrypt value.key walletKey (oword s.salt 0)) walletKey (oword a 0),
      value.work⟩)
  else none

theorem put_erase (s : WalletStore) (a : Account) (entry : WalletValue) :
    (s.erase a).entryPutRaw a entry = s.entryPutRaw a entry := by
  have hents : ((s.erase a).entryPutRaw a entry).entries = (s.entryPutRaw a entry).entries := by
    refine Std.ExtTreeMap.ext_getElem? fun x => ?_
    rw [getElem?_put, getElem?_put, getElem?_erase]
    split <;> rfl
  exact congrArg (WalletStore.mk · s.password s.walletKeyMem) hents

theorem upgradeV3V4Entry_eq (walletKey : RawKey) :
    upgradeV3V4Entry c walletKey = fun s a => s.rewriteEntry a (changeV3V4 c walletKey s a) := by
  funext s a
  unfold upgradeV3V4Entry changeV3V4
  dsimp only
  split
  · exact put_erase ..
  · rfl

theorem localStep_v3_v4 (walletKey : RawKey) : LocalStep (upgradeV3V4Entry c walletKey) := by
  rw [upgradeV3V4Entry_eq]
  refine .of_rewrite fun h hent => ?_
  unfold changeV3V4
  rw [h.fetch_eq hent, hent, h.access.salt_eq]

/-! ## The upgrades -/

/-- The wallet key if the password is zero, as it was before the first password. -/
def zeroKey (c : Crypto) (s : WalletStore) : RawKey :=
  c.decrypt (s.entryGetRaw walletKeySpecial).key 0 (oword s.salt 0)

def emptyKey (c : Crypto) (s : WalletStore) : RawKey :=
  c.decrypt (s.entryGetRaw walletKeySpecial).key (s.deriveKey c []) (oword s.salt 0)

theorem ne_of_valid (hx : validPublicKey x) (ha : validPublicKey a = false) : x ≠ a := by
  rintro rfl
  rw [hx] at ha
  cases ha

theorem entryGetRaw_put_special (hx : validPublicKey x) (ha : validPublicKey a = false) :
    (s.entryPutRaw a entry).entryGetRaw x = s.entryGetRaw x := by
  rw [entryGetRaw_put, if_neg (ne_of_valid hx ha)]

theorem entryGetRaw_loop (h : entry = if s.entries[x]?.isSome then
      (s.rewriteEntry x (change s x)).entryGetRaw x else s.entryGetRaw x) :
    (change s x = none → entry = s.entryGetRaw x) ∧
      ∀ v, change s x = some (some v) → (s.entryGetRaw x).key ≠ 0 → entry = v := by
  rw [entryGetRaw_rewriteEntry, if_pos rfl] at h
  refine ⟨fun hnone => ?_, fun v hv hne => ?_⟩
  · rw [h, hnone]
    split <;> rfl
  · rw [h, if_pos (isSome_of_ne_zero hne), hv]
    rfl

theorem upgradeV1V2_access (s : WalletStore) : SameAccess s (s.upgradeV1V2 c) :=
  ((localStep_v1_v2 _ _).loop s).1.access.trans (.put (by decide +kernel) (by decide +kernel))

theorem upgradeV1V2_entry (s : WalletStore) (hx : validPublicKey x) : (s.upgradeV1V2 c).entryGetRaw x =
    if s.entries[x]?.isSome then
      (s.rewriteEntry x (changeV1V2 c (s.zeroKey c) (s.emptyKey c) s x)).entryGetRaw x
    else s.entryGetRaw x := by
  have hloop := ((localStep_v1_v2 (c := c) (s.zeroKey c) (s.emptyKey c)).loop s).2 x hx
  rw [upgradeV1V2Entry_eq] at hloop
  unfold upgradeV1V2 versionPut
  rw [entryGetRaw_put_special hx (by decide +kernel), upgradeV1V2Entry_eq]
  exact hloop

theorem upgradeV2V3_access (s : WalletStore) (seed : RawKey) :
    SameAccess s (s.upgradeV2V3 c seed) :=
  (SameAccess.put (by decide +kernel) (by decide +kernel)).trans
    ((localStep_clear.loop _).1.access.trans
      ((SameAccess.put (by decide +kernel) (by decide +kernel)).trans
        ((SameAccess.put (by decide +kernel) (by decide +kernel)).trans
          (.put (by decide +kernel) (by decide +kernel)))))

theorem upgradeV2V3_entry (seed : RawKey) (hx : validPublicKey x)
    (htype : keyType (s.entryGetRaw x) ≠ .deterministic) :
    (s.upgradeV2V3 c seed).entryGetRaw x = s.entryGetRaw x := by
  unfold upgradeV2V3 versionPut seedSet deterministicClear deterministicIndexSet
  dsimp only
  rw [entryGetRaw_put_special hx (by decide +kernel), entryGetRaw_put_special hx (by decide +kernel),
    entryGetRaw_put_special hx (by decide +kernel)]
  generalize hseed : s.entryPutRaw seedSpecial _ = t
  have hent : t.entryGetRaw x = s.entryGetRaw x := by
    rw [← hseed, entryGetRaw_put_special hx (by decide +kernel)]
  have hkeep : ¬ keyType (t.entryGetRaw x) = .deterministic := by rwa [hent]
  have hloop := (localStep_clear.loop t).2 x hx
  rw [if_neg hkeep, ite_self] at hloop
  rw [hloop, hent]

/-- The store on which the loop of `upgrade_v3_v4` starts. -/
def beforeV4 (c : Crypto) (s : WalletStore) : WalletStore :=
  let s := s.versionPut 4
  let seed := c.decrypt (s.entryGetRaw seedSpecial).key (s.walletKey c) (oword s.salt 0)
  s.entryPutRaw seedSpecial ⟨c.encrypt seed (s.walletKey c) (oword s.salt seedIvIndex), 0⟩

theorem beforeV4_access (s : WalletStore) : SameAccess s (s.beforeV4 c) :=
  (SameAccess.put (by decide +kernel) (by decide +kernel)).trans
    (.put (by decide +kernel) (by decide +kernel))

theorem beforeV4_entry (hx : validPublicKey x) : (s.beforeV4 c).entryGetRaw x = s.entryGetRaw x := by
  unfold beforeV4 versionPut
  rw [entryGetRaw_put_special hx (by decide +kernel), entryGetRaw_put_special hx (by decide +kernel)]

theorem upgradeV3V4_eq (s : WalletStore) : s.upgradeV3V4 c =
    (s.beforeV4 c).accounts.foldl (upgradeV3V4Entry c (s.walletKey c)) (s.beforeV4 c) := by
  have hkey : (s.versionPut 4).walletKey c = s.walletKey c :=
    (SameAccess.put (by decide +kernel) (by decide +kernel)).walletKey_eq
  rw [← hkey]
  rfl

theorem upgradeV3V4_lock (s : WalletStore) : SameLock (s.beforeV4 c) (s.upgradeV3V4 c) := by
  rw [upgradeV3V4_eq]
  exact ((localStep_v3_v4 _).loop _).1

theorem upgradeV3V4_access (s : WalletStore) : SameAccess s (s.upgradeV3V4 c) :=
  (beforeV4_access s).trans (upgradeV3V4_lock s).access

theorem upgradeV3V4_entry (s : WalletStore) (hx : validPublicKey x) : (s.upgradeV3V4 c).entryGetRaw x =
    if (s.beforeV4 c).entries[x]?.isSome then
      ((s.beforeV4 c).rewriteEntry x
        (changeV3V4 c (s.walletKey c) (s.beforeV4 c) x)).entryGetRaw x
    else (s.beforeV4 c).entryGetRaw x := by
  have hloop := ((localStep_v3_v4 (c := c) (s.walletKey c)).loop (s.beforeV4 c)).2 x hx
  rw [upgradeV3V4_eq, hloop, upgradeV3V4Entry_eq]

theorem upgradeV3V4_version (s : WalletStore) : (s.upgradeV3V4 c).version = 4 := by
  have hne : versionSpecial ≠ seedSpecial := by decide +kernel
  unfold version
  rw [(upgradeV3V4_lock s).version, beforeV4, versionPut, entryGetRaw_put, if_neg hne,
    entryGetRaw_put, if_pos rfl]
  decide

theorem upgradeV3V4_seed (s : WalletStore) :
    ((s.upgradeV3V4 c).entryGetRaw seedSpecial).key =
      c.encrypt (c.decrypt (s.entryGetRaw seedSpecial).key (s.walletKey c) (oword s.salt 0))
        (s.walletKey c) (oword s.salt seedIvIndex) := by
  have hac : SameAccess s (s.versionPut 4) := .put (by decide +kernel) (by decide +kernel)
  have hne : seedSpecial ≠ versionSpecial := by decide +kernel
  have hseed : (s.versionPut 4).entryGetRaw seedSpecial = s.entryGetRaw seedSpecial := by
    rw [versionPut, entryGetRaw_put, if_neg hne]
  rw [(upgradeV3V4_lock s).seed, beforeV4, entryGetRaw_put, if_pos rfl, hseed, hac.walletKey_eq, hac.salt_eq]

/-! ## One account -/

/-- A key that was stored before the upgrade: it belongs to the account and was encrypted with the
initialisation vector from the salt, under the wallet key or, in version 1, under the wallet key
that the zero or the empty password gives. -/
structure OldAdhoc (c : Crypto) (s : WalletStore) (pub : Account) (prv : RawKey) : Prop where
  valid : validPublicKey pub
  pubKey : c.pubKey prv = pub
  encrypted : ∃ key, (key = s.walletKey c ∨ s.version = 1 ∧ (key = s.zeroKey c ∨ key = s.emptyKey c)) ∧
    (s.entryGetRaw pub).key = c.encrypt prv key (oword s.salt 0)

def triedKeys (c : Crypto) (s : WalletStore) : List RawKey :=
  [s.walletKey c, s.zeroKey c, s.emptyKey c]

def triedIvs (s : WalletStore) (pub : Account) : List (BitVec 128) := [oword s.salt 0, oword pub 0]

/-- What is assumed of a key: among the pairs that an upgrade tries, a wrong one never decrypts to a
key of the account, and no ciphertext is so small that it is taken for something else. -/
structure Unmistakable (c : Crypto) (s : WalletStore) (pub : Account) (prv : RawKey) : Prop where
  wrong : ∀ key ∈ s.triedKeys c, ∀ key' ∈ s.triedKeys c, ∀ iv ∈ s.triedIvs pub,
    ∀ iv' ∈ s.triedIvs pub, (key', iv') ≠ (key, iv) →
      c.pubKey (c.decrypt (c.encrypt prv key iv) key' iv') ≠ pub
  large : ∀ key ∈ s.triedKeys c, ∀ iv ∈ s.triedIvs pub, 2 ^ 64 ≤ (c.encrypt prv key iv).toNat

theorem ne_zero_of_large {x : Uint256} (h : 2 ^ 64 ≤ x.toNat) : x ≠ 0 := by
  rintro rfl
  exact absurd h (by decide)

theorem fetch_adhoc (hv : s.validPassword c) (hlg : 2 ^ 64 ≤ (s.entryGetRaw pub).key.toNat) :
    s.fetch c pub g =
      (c.pubKey (c.decrypt (s.entryGetRaw pub).key (s.walletKey c) (oword pub 0)) != pub,
        c.decrypt (s.entryGetRaw pub).key (s.walletKey c) (oword pub 0)) := by
  unfold fetch fetchRaw
  simp only [hv, if_true, ne_eq, ne_zero_of_large hlg, not_false_eq_true, keyType, if_pos hlg,
    Bool.false_or]

section

variable (hinv : ∀ x key iv, c.decrypt (c.encrypt x key iv) key iv = x)

include hinv

theorem adhoc_v1_v2 (hv : s.validPassword c) (h : OldAdhoc c s pub prv)
    (hclr : Unmistakable c s pub prv) :
    ∃ iv ∈ s.triedIvs pub, ((s.upgradeV1V2 c).entryGetRaw pub).key =
      c.encrypt prv (s.walletKey c) iv := by
  obtain ⟨key, hkey, hent⟩ := h.encrypted
  have hmem : key ∈ s.triedKeys c := by
    rcases hkey with rfl | ⟨-, rfl | rfl⟩ <;> simp [triedKeys]
  have hlg : 2 ^ 64 ≤ (s.entryGetRaw pub).key.toNat := by
    rw [hent]
    exact hclr.large key hmem _ (by simp [triedIvs])
  obtain ⟨hsame, hchanged⟩ := entryGetRaw_loop (upgradeV1V2_entry (c := c) s h.valid)
  -- a pair that gives a key of the account is the one with which it was encrypted
  have hmatch {key' : RawKey} (hmem' : key' ∈ s.triedKeys c) {iv' : BitVec 128}
      (hiv : iv' ∈ s.triedIvs pub)
      (hpub : c.pubKey (c.decrypt (s.entryGetRaw pub).key key' iv') = pub) : key' = key := by
    by_contra hne
    rw [hent] at hpub
    exact hclr.wrong key hmem key' hmem' _ (by simp [triedIvs]) _ hiv
      (fun heq => hne (Prod.mk.inj heq).1) hpub
  have hdec : c.decrypt (s.entryGetRaw pub).key key (oword s.salt 0) = prv := by
    rw [hent, hinv]
  -- a change puts the key under the wallet key with the new vector
  have hnew {key' : RawKey} (hmem' : key' ∈ s.triedKeys c)
      (hpub : c.pubKey (c.decrypt (s.entryGetRaw pub).key key' (oword s.salt 0)) = pub)
      (hchg : changeV1V2 c (s.zeroKey c) (s.emptyKey c) s pub = some (some
        ⟨c.encrypt (c.decrypt (s.entryGetRaw pub).key key' (oword s.salt 0)) (s.walletKey c)
          (oword pub 0), 0⟩)) :
      ((s.upgradeV1V2 c).entryGetRaw pub).key = c.encrypt prv (s.walletKey c) (oword pub 0) := by
    obtain rfl := hmatch hmem' (by simp [triedIvs]) hpub
    rw [hchanged _ hchg (ne_zero_of_large hlg), hdec]
  have hwal : s.walletKey c ∈ s.triedKeys c := by simp [triedKeys]
  by_cases hfet : (s.fetch c pub 0).1
  · by_cases hzero : c.pubKey (c.decrypt (s.entryGetRaw pub).key (s.zeroKey c) (oword s.salt 0)) = pub
    · exact ⟨oword pub 0, by simp [triedIvs], hnew (by simp [triedKeys]) hzero
        (by rw [changeV1V2, if_pos hfet, if_pos hzero])⟩
    · by_cases hemp :
          c.pubKey (c.decrypt (s.entryGetRaw pub).key (s.emptyKey c) (oword s.salt 0)) = pub
      · exact ⟨oword pub 0, by simp [triedIvs], hnew (by simp [triedKeys]) hemp
          (by rw [changeV1V2, if_pos hfet, if_neg hzero, if_pos hemp])⟩
      · -- neither of the two, so it is the wallet key
        have hwas : key = s.walletKey c := by
          rcases hkey with hkey | ⟨-, rfl | rfl⟩
          · exact hkey
          · exact absurd (hdec ▸ h.pubKey) hzero
          · exact absurd (hdec ▸ h.pubKey) hemp
        refine ⟨oword s.salt 0, by simp [triedIvs], ?_⟩
        rw [hsame (by rw [changeV1V2, if_pos hfet, if_neg hzero, if_neg hemp]), hent, hwas]
  · have hok : c.pubKey (c.decrypt (s.entryGetRaw pub).key (s.walletKey c) (oword pub 0)) = pub := by
      rw [fetch_adhoc hv hlg] at hfet
      simpa using hfet
    have hwas : s.walletKey c = key := hmatch hwal (by simp [triedIvs]) hok
    refine ⟨oword s.salt 0, by simp [triedIvs], ?_⟩
    rw [hsame (by rw [changeV1V2, if_neg hfet]), hent, hwas]

theorem adhoc_v3_v4 {u : WalletStore} (hv : u.validPassword c) (hac : SameAccess u s)
    (hval : validPublicKey pub) (hpub : c.pubKey prv = pub) (hclr : Unmistakable c u pub prv)
    {iv : BitVec 128} (hiv : iv ∈ u.triedIvs pub)
    (hent : (s.entryGetRaw pub).key = c.encrypt prv (u.walletKey c) iv) :
    ((s.upgradeV3V4 c).entryGetRaw pub).key = c.encrypt prv (u.walletKey c) (oword pub 0) := by
  have hwal : u.walletKey c ∈ u.triedKeys c := by simp [triedKeys]
  have hpubIv : oword pub 0 ∈ u.triedIvs pub := by simp [triedIvs]
  have hac' := hac.trans (beforeV4_access (c := c) s)
  obtain ⟨hsame, hchanged⟩ := entryGetRaw_loop (upgradeV3V4_entry (c := c) s hval)
  have hbef : ((s.beforeV4 c).entryGetRaw pub).key = c.encrypt prv (u.walletKey c) iv := by
    rw [beforeV4_entry hval, hent]
  have hlg : 2 ^ 64 ≤ ((s.beforeV4 c).entryGetRaw pub).key.toNat := by
    rw [hbef]
    exact hclr.large _ hwal _ hiv
  have hne := ne_zero_of_large hlg
  have htype : keyType ((s.beforeV4 c).entryGetRaw pub) = .adhoc := by
    rw [keyType, if_pos hlg]
  have hfet := fetch_adhoc (g := 0) (hac'.validPassword_eq.trans hv) hlg
  rw [hac'.walletKey_eq, hbef] at hfet
  by_cases hbad : c.pubKey (c.decrypt (c.encrypt prv (u.walletKey c) iv) (u.walletKey c)
      (oword pub 0)) = pub
  · have hold : oword pub 0 = iv := by
      by_contra hne
      exact hclr.wrong _ hwal _ hwal _ hiv _ hpubIv
        (fun heq => hne (Prod.mk.inj heq).2) hbad
    have hcond : ¬ (((s.beforeV4 c).entryGetRaw pub).key ≠ 0 ∧
        keyType ((s.beforeV4 c).entryGetRaw pub) = .adhoc ∧
        ((s.beforeV4 c).fetch c pub 0).1 = true) := by
      rw [hfet]
      simp [hbad]
    rw [hsame (by rw [changeV3V4, if_neg hcond]), hbef, hold]
  · -- the new vector does not decrypt it, so it was the old one
    have hold : iv = oword u.salt 0 := by
      rcases List.mem_cons.1 hiv with h | h
      · exact h
      · rw [List.mem_singleton.1 h, hinv] at hbad
        exact absurd hpub hbad
    have hchg : changeV3V4 c (s.walletKey c) (s.beforeV4 c) pub = some (some
        ⟨c.encrypt prv (u.walletKey c) (oword pub 0), ((s.beforeV4 c).entryGetRaw pub).work⟩) := by
      have hcond : ((s.beforeV4 c).entryGetRaw pub).key ≠ 0 ∧
          keyType ((s.beforeV4 c).entryGetRaw pub) = .adhoc ∧
          ((s.beforeV4 c).fetch c pub 0).1 = true :=
        ⟨hne, htype, by rw [hfet]; simpa using hbad⟩
      rw [changeV3V4, if_pos hcond, hac'.salt_eq, hac.walletKey_eq, hbef, hold, hinv]
    rw [hchanged _ hchg hne]

end

/-! ## The other accounts -/

theorem keyType_zero (h : value.key = 0) : keyType value = .unknown := by
  unfold keyType
  rw [h]
  rfl

theorem keyType_large (h : 2 ^ 64 ≤ value.key.toNat) : keyType value = .adhoc := if_pos h

theorem keyType_marker {index : BitVec 32} (h : value.key = marker index) :
    keyType value = .deterministic := by
  have hlt := index.isLt
  have hvalue := toNat_marker index
  rw [keyType, h, if_neg (by omega), if_pos (by omega)]

theorem watched_v1_v2 (hval : validPublicKey pub) (hzero : (s.entryGetRaw pub).key = 0)
    (hwrong : ∀ key ∈ [s.zeroKey c, s.emptyKey c],
      c.pubKey (c.decrypt 0 key (oword s.salt 0)) ≠ pub) :
    (s.upgradeV1V2 c).entryGetRaw pub = s.entryGetRaw pub := by
  refine (entryGetRaw_loop (upgradeV1V2_entry (c := c) s hval)).1 ?_
  have hzeroKey := hwrong (s.zeroKey c) List.mem_cons_self
  have hemptyKey := hwrong (s.emptyKey c) (List.mem_cons_of_mem _ List.mem_cons_self)
  unfold changeV1V2
  dsimp only
  rw [hzero, if_neg hzeroKey, if_neg hemptyKey, ite_self]

theorem upgradeV3V4_entry_of_ne (hval : validPublicKey pub)
    (htype : keyType (s.entryGetRaw pub) ≠ .adhoc) :
    (s.upgradeV3V4 c).entryGetRaw pub = s.entryGetRaw pub := by
  have hbef : (s.beforeV4 c).entryGetRaw pub = s.entryGetRaw pub := beforeV4_entry hval
  rw [← hbef]
  refine (entryGetRaw_loop (upgradeV3V4_entry (c := c) s hval)).1 ?_
  rw [changeV3V4, if_neg]
  rintro ⟨-, hadhoc, -⟩
  exact htype (hbef ▸ hadhoc)

/-! ## The whole upgrade -/

def withPassword (c : Crypto) (s : WalletStore) (password : Text) : WalletStore :=
  { s with password := s.password.valueSet (s.deriveKey c password) }

/-- The store before the last upgrade, compared with the store before all of them. -/
structure Prepared (c : Crypto) (u t : WalletStore) : Prop where
  access : SameAccess u t
  adhoc : ∀ {pub prv}, OldAdhoc c u pub prv → Unmistakable c u pub prv →
    ∃ iv ∈ u.triedIvs pub, (t.entryGetRaw pub).key = c.encrypt prv (u.walletKey c) iv
  watched : ∀ {pub}, validPublicKey pub → (u.entryGetRaw pub).key = 0 →
    (u.version = 1 → ∀ key ∈ [u.zeroKey c, u.emptyKey c],
      c.pubKey (c.decrypt 0 key (oword u.salt 0)) ≠ pub) →
    t.entryGetRaw pub = u.entryGetRaw pub
  same : u.version = 3 → t = u

theorem Prepared.v2_v3 {t : WalletStore} (h : Prepared c u t) (seed : RawKey)
    (hver : u.version ≠ 3) : Prepared c u (t.upgradeV2V3 c seed) where
  access := h.access.trans (upgradeV2V3_access t seed)
  adhoc {pub prv} hold hclr := by
    obtain ⟨iv, hiv, hent⟩ := h.adhoc hold hclr
    refine ⟨iv, hiv, ?_⟩
    have hlg : 2 ^ 64 ≤ (t.entryGetRaw pub).key.toNat := by
      rw [hent]
      exact hclr.large _ (by simp [triedKeys]) _ hiv
    rw [upgradeV2V3_entry seed hold.valid (by rw [keyType_large hlg]; decide), hent]
  watched {pub} hval hzero hwrong := by
    have hent := h.watched hval hzero hwrong
    have htype : keyType (t.entryGetRaw pub) ≠ .deterministic := by
      rw [hent, keyType_zero hzero]
      decide
    rw [upgradeV2V3_entry seed hval htype, hent]
  same hthree := absurd hthree hver

theorem prepared_refl (hver : u.version ≠ 1) : Prepared c u u where
  access := .refl u
  adhoc {pub prv} hold _ := by
    obtain ⟨key, hkey, hent⟩ := hold.encrypted
    rcases hkey with rfl | ⟨hone, -⟩
    · exact ⟨oword u.salt 0, by simp [triedIvs], hent⟩
    · exact absurd hone hver
  watched _ _ _ := rfl
  same _ := rfl

theorem prepared_v1_v2 (hinv : ∀ x key iv, c.decrypt (c.encrypt x key iv) key iv = x)
    (hv : u.validPassword c) (hver : u.version = 1) : Prepared c u (u.upgradeV1V2 c) where
  access := upgradeV1V2_access u
  adhoc hold hclr := adhoc_v1_v2 hinv hv hold hclr
  watched hval hzero hwrong := watched_v1_v2 hval hzero (hwrong hver)
  same hthree := by omega

theorem upgrade_prepared (hinv : ∀ x key iv, c.decrypt (c.encrypt x key iv) key iv = x)
    (hv : u.validPassword c) (hver : u.version = 1 ∨ u.version = 2 ∨ u.version = 3)
    (seed : RawKey) : ∃ t, Prepared c u t ∧ u.upgrade c seed = t.upgradeV3V4 c := by
  rcases hver with h | h | h
  · refine ⟨_, (prepared_v1_v2 hinv hv h).v2_v3 seed (by omega), ?_⟩
    rw [upgrade, h]
    rfl
  · refine ⟨_, (prepared_refl (by omega)).v2_v3 seed (by omega), ?_⟩
    rw [upgrade, h]
    rfl
  · refine ⟨u, prepared_refl (by omega), ?_⟩
    rw [upgrade, h]
    rfl

/-- A successful password brings a wallet of version 1, 2 or 3 to the current version. Then `fetch`
gives out the key of every ad-hoc account and, from version 3 on, of every deterministic account,
and the entries of watched accounts are what they were. -/
theorem upgrade_keeps_keys {password : Text} {seed : RawKey}
    (hinv : ∀ x key iv, c.decrypt (c.encrypt x key iv) key iv = x)
    (hver : s.version = 1 ∨ s.version = 2 ∨ s.version = 3)
    (hok : s.attemptPassword c password seed = (false, s')) :
    s'.version = versionCurrent ∧
    (∀ pub prv g, OldAdhoc c (s.withPassword c password) pub prv →
      Unmistakable c (s.withPassword c password) pub prv → s'.fetch c pub g = (false, prv)) ∧
    (s.version = 3 → ∀ oldSeed pub index g,
      (s.entryGetRaw seedSpecial).key =
        c.encrypt oldSeed ((s.withPassword c password).walletKey c) (oword s.salt 0) →
      validPublicKey pub → (s.entryGetRaw pub).key = marker index →
      c.pubKey (c.deterministicKey oldSeed index) = pub →
      s'.fetch c pub g = (false, c.deterministicKey oldSeed index)) ∧
    ∀ pub, validPublicKey pub → (s.entryGetRaw pub).key = 0 →
      (s.version = 1 → ∀ key ∈ [s.zeroKey c, s.emptyKey c],
        c.pubKey (c.decrypt 0 key (oword s.salt 0)) ≠ pub) →
      s'.entryGetRaw pub = s.entryGetRaw pub := by
  generalize hu : s.withPassword c password = u
  have hatt : u.validPassword c ∧ s' = u.upgrade c seed := by
    unfold attemptPassword at hok
    rw [← hu, withPassword]
    dsimp only at hok
    split at hok
    · rename_i hv
      exact ⟨hv, (Prod.mk.inj hok).2.symm⟩
    · cases hok
  obtain ⟨hv, rfl⟩ := hatt
  have hver' : u.version = s.version := by rw [← hu]; rfl
  have hent (x : Account) : u.entryGetRaw x = s.entryGetRaw x := by rw [← hu]; rfl
  have hsalt : u.salt = s.salt := by rw [← hu]; rfl
  obtain ⟨t, hprep, hupg⟩ := upgrade_prepared hinv hv (hver'.symm ▸ hver) seed
  have hac : SameAccess u (t.upgradeV3V4 c) := hprep.access.trans (upgradeV3V4_access t)
  have hv' : (t.upgradeV3V4 c).validPassword c := hac.validPassword_eq.trans hv
  rw [hupg]
  refine ⟨upgradeV3V4_version t, fun pub prv g hold hclr => ?_,
    fun hthree oldSeed pub index g hseed hval hmarker hpub => ?_, fun pub hval hzero hwrong => ?_⟩
  · obtain ⟨iv, hiv, hold'⟩ := hprep.adhoc hold hclr
    have hfinal := adhoc_v3_v4 hinv hv hprep.access hold.valid hold.pubKey hclr hiv hold'
    have hdec : c.decrypt (c.encrypt prv (u.walletKey c) (oword pub 0)) (u.walletKey c)
        (oword pub 0) = prv := hinv ..
    refine fetch_eq_ok.2 ⟨hv', ?_⟩
    rw [hac.walletKey_eq]
    exact keyOf_adhoc hdec ((t.upgradeV3V4 c).entryGetRaw pub).work hold.pubKey
      (by rw [← hfinal]) (hclr.large _ (by simp [triedKeys]) _ (by simp [triedIvs]))
  · obtain rfl := hprep.same (hver'.trans hthree)
    have hmarker' : (t.entryGetRaw pub).key = marker index := by rw [hent, hmarker]
    have hsame : (t.upgradeV3V4 c).entryGetRaw pub = ⟨marker index, (t.entryGetRaw pub).work⟩ := by
      rw [upgradeV3V4_entry_of_ne hval (by rw [keyType_marker hmarker']; decide), ← hmarker']
    refine fetch_eq_ok.2 ⟨hv', keyOf_deterministic ?_ hpub hsame⟩
    rw [upgradeV3V4_seed, hac.walletKey_eq, hac.salt_eq, hinv, hent, hseed, hsalt, hinv]
  · have hkeep := hprep.watched hval (by rw [hent, hzero]) (by
      rw [hver', hsalt, ← hu]
      exact hwrong)
    have htype : keyType (t.entryGetRaw pub) ≠ .adhoc := by
      rw [hkeep, hent, keyType_zero hzero]
      decide
    rw [upgradeV3V4_entry_of_ne hval htype, hkeep, hent]

end Futurehead.WalletStore

namespace Futurehead

namespace Sample

def lockedWallet : WalletStore := (wallet.rekey crypto ['x']).2

/-- The wallet at version 1, with a key from before the password, a key under the wallet key and a
watched account. -/
def oldWallet : WalletStore :=
  (((lockedWallet.versionPut 1).entryPutRaw 1005
    ⟨crypto.encrypt 5 (lockedWallet.zeroKey crypto) (oword lockedWallet.salt 0), 0⟩).entryPutRaw 1007
    ⟨crypto.encrypt 7 (lockedWallet.walletKey crypto) (oword lockedWallet.salt 0), 0⟩).entryPutRaw
    1009 ⟨0, 0⟩

def openedWallet : WalletStore := oldWallet.withPassword crypto ['x']

theorem triedKeys_openedWallet :
    openedWallet.triedKeys crypto = [2 ^ 250 + 2, 2 ^ 250 + 2 ^ 200 + 1, 2 ^ 250 + 3] := by
  decide +kernel

theorem triedIvs_openedWallet : openedWallet.triedIvs 1005 = [2 ^ 72, 0] ∧
    openedWallet.triedIvs 1007 = [2 ^ 72, 0] := by
  decide +kernel

theorem unmistakable_five : WalletStore.Unmistakable crypto openedWallet 1005 5 := by
  constructor <;> rw [triedKeys_openedWallet, triedIvs_openedWallet.1] <;>
    simp only [List.forall_mem_cons, List.not_mem_nil, false_imp_iff, implies_true, and_true] <;>
    repeat' apply And.intro
  all_goals decide +kernel

theorem unmistakable_seven : WalletStore.Unmistakable crypto openedWallet 1007 7 := by
  constructor <;> rw [triedKeys_openedWallet, triedIvs_openedWallet.2] <;>
    simp only [List.forall_mem_cons, List.not_mem_nil, false_imp_iff, implies_true, and_true] <;>
    repeat' apply And.intro
  all_goals decide +kernel

end Sample

open Sample

open WalletStore in
/-- The three accounts of a wallet of version 1 after the password was entered. -/
theorem upgrade_keeps_keys_v1 : ∃ s', oldWallet.attemptPassword crypto ['x'] 77 = (false, s') ∧
    s'.fetch crypto 1005 0 = (false, 5) ∧ s'.fetch crypto 1007 0 = (false, 7) ∧
    s'.entryGetRaw 1009 = oldWallet.entryGetRaw 1009 := by
  have hok : (oldWallet.attemptPassword crypto ['x'] 77).1 = false := by
    decide +kernel
  have hver : oldWallet.version = 1 := by decide +kernel
  generalize hres : oldWallet.attemptPassword crypto ['x'] 77 = result at hok
  obtain ⟨error, s'⟩ := result
  obtain rfl : error = false := hok
  obtain ⟨-, hadhoc, -, hwatched⟩ :=
    upgrade_keeps_keys crypto_inverts (.inl hver) hres
  have hfive : OldAdhoc crypto openedWallet 1005 5 := by
    refine ⟨by decide +kernel, by decide +kernel, openedWallet.zeroKey crypto,
      .inr ⟨?_, .inl rfl⟩, ?_⟩
    · decide +kernel
    · decide +kernel
  have hseven : OldAdhoc crypto openedWallet 1007 7 := by
    refine ⟨by decide +kernel, by decide +kernel, openedWallet.walletKey crypto, .inl rfl, ?_⟩
    decide +kernel
  have hwrong : ∀ key ∈ [oldWallet.zeroKey crypto,
      oldWallet.emptyKey crypto],
      crypto.pubKey (crypto.decrypt 0 key (oword oldWallet.salt 0)) ≠ 1009 :=
    List.forall_mem_cons.2 ⟨by decide +kernel, List.forall_mem_singleton.2 (by decide +kernel)⟩
  exact ⟨s', rfl, hadhoc 1005 5 0 hfive unmistakable_five,
    hadhoc 1007 7 0 hseven unmistakable_seven,
    hwatched 1009 (by decide +kernel) (by decide +kernel) fun _ => hwrong⟩

end Futurehead
