import Futurehead.Wallet.Keys

/-!
# Import of a wallet (`wallet_store::import`)

The loop fetches the key of every account of the other store, and stops moving accounts at the first
one for which that fails. A watched account has no key, so it is such an account; and a key that is
zero is taken for a missing one.
-/

namespace Futurehead

open List

namespace WalletStore

variable {c : Crypto} {s s' other other' : WalletStore} {prv : Account → RawKey}
  {list : List Account} {a : Account}

/-- The value that an account with the key `prv` gets in the store. -/
def importedValue (c : Crypto) (s : WalletStore) (a : Account) (prv : RawKey) : WalletValue :=
  ⟨if prv ≠ 0 then c.encrypt prv (s.walletKey c) (oword a 0) else 0, 0⟩

theorem walletKey_put (ha : validPublicKey a) (entry : WalletValue) :
    (s.entryPutRaw a entry).walletKey c = s.walletKey c := (seal_put ha).walletKey_eq rfl rfl

theorem fetch_of_ne {b : Account} (ha : validPublicKey a)
    (hent : ∀ x, x ≠ a → s'.entryGetRaw x = s.entryGetRaw x) (hpw : s'.password = s.password)
    (hmem : s'.walletKeyMem = s.walletKeyMem) (hb : b ≠ a) (g : RawKey) :
    s'.fetch c b g = s.fetch c b g := by
  have hseal : SameSeal s s' := .of_ne hent (not_special ha)
  have hkey : s'.walletKey c = s.walletKey c := hseal.walletKey_eq hpw hmem
  have hchk : s'.check = s.check := congrArg WalletValue.key hseal.check
  unfold fetch fetchRaw validPassword deterministicKey seed
  rw [hchk, hkey, hseal.salt_eq, hent b hb, hseal.seed]

theorem fetch_erase {b : Account} (ha : validPublicKey a) (hb : b ≠ a) (g : RawKey) :
    (s.erase a).fetch c b g = s.fetch c b g :=
  fetch_of_ne ha (fun _ => entryGetRaw_erase_ne) rfl rfl hb g

theorem importEntry_ok {p : RawKey} (ha : validPublicKey a) (h : other.fetch c a 0 = (false, p)) :
    importEntry c (false, s, other) a =
      (false, s.entryPutRaw a (importedValue c s a p), other.erase a) := by
  have hpub : c.pubKey p = a := pubKey_of_keyOf (fetch_eq_ok.1 h).2
  unfold importEntry importedValue
  dsimp only
  rw [h]
  dsimp only
  by_cases hp : p = 0
  · rw [if_neg (by simp), if_neg (not_not.2 hp), if_neg (not_not.2 hp), insertWatch, if_pos ha]
    rfl
  · rw [if_neg (by simp), if_pos hp, if_pos hp]
    unfold insertAdhoc
    rw [hpub]
    rfl

theorem importEntry_error (h : (other.fetch c a 0).1 = true) (result : Bool) :
    importEntry c (result, s, other) a = (true, s, other) := by
  unfold importEntry
  dsimp only
  rw [h, Bool.or_true, if_pos rfl]

theorem foldl_importEntry_true : list.foldl (importEntry c) (true, s, other) = (true, s, other) := by
  induction list with
  | nil => rfl
  | cons a list ih =>
    rw [foldl_cons]
    have hstep : importEntry c (true, s, other) a = (true, s, other) := by
      unfold importEntry
      dsimp only
      rw [Bool.true_or, if_pos rfl]
    rw [hstep, ih]

theorem foldl_importEntry_ok (hnd : list.Nodup)
    (h : ∀ a ∈ list, validPublicKey a ∧ other.fetch c a 0 = (false, prv a)) :
    ∃ s' other', list.foldl (importEntry c) (false, s, other) = (false, s', other') ∧
      SameSeal s s' ∧ s'.walletKey c = s.walletKey c ∧
      ∀ x, s'.entries[x]? =
        if x ∈ list then some (importedValue c s x (prv x)) else s.entries[x]? := by
  induction list generalizing s other with
  | nil => exact ⟨s, other, rfl, .of_entries rfl, rfl, fun x => by simp⟩
  | cons a list ih =>
    obtain ⟨hnotMem, hnd⟩ := nodup_cons.1 hnd
    obtain ⟨ha, hfet⟩ := h a mem_cons_self
    have hrest : ∀ b ∈ list, validPublicKey b ∧ (other.erase a).fetch c b 0 = (false, prv b) :=
      fun b hb => by
        have hne : b ≠ a := fun heq => hnotMem (heq ▸ hb)
        rw [fetch_erase ha hne]
        exact h b (mem_cons_of_mem _ hb)
    obtain ⟨s', other', hrun, hseal, hkey, hents⟩ :=
      ih (s := s.entryPutRaw a (importedValue c s a (prv a))) hnd hrest
    refine ⟨s', other', ?_, (seal_put ha).trans hseal, hkey.trans (walletKey_put ha _), fun x => ?_⟩
    · rw [foldl_cons, importEntry_ok ha hfet, hrun]
    · rw [hents x, getElem?_put]
      by_cases hx : x = a
      · subst hx
        rw [if_neg hnotMem, if_pos rfl, if_pos mem_cons_self]
      · rw [if_neg hx]
        unfold importedValue
        rw [walletKey_put ha]
        simp [hx]

theorem foldl_importEntry_error {result : Bool} (hnd : list.Nodup)
    (hval : ∀ a ∈ list, validPublicKey a) (ha : a ∈ list) (h : (other.fetch c a 0).1 = true) :
    (list.foldl (importEntry c) (result, s, other)).1 = true := by
  induction list generalizing s other result with
  | nil => cases ha
  | cons b list ih =>
    obtain ⟨hnotMem, hnd⟩ := nodup_cons.1 hnd
    rw [foldl_cons]
    cases hb : (other.fetch c b 0).1 with
    | true => rw [importEntry_error hb, foldl_importEntry_true]
    | false =>
      cases result with
      | true =>
        have hstep : [b].foldl (importEntry c) (true, s, other) = (true, s, other) :=
          foldl_importEntry_true
        rw [show importEntry c (true, s, other) b = (true, s, other) from hstep,
          foldl_importEntry_true]
      | false =>
        rw [importEntry_ok (hval b mem_cons_self) (Prod.ext hb rfl)]
        have hne : a ≠ b := fun heq => by rw [heq, hb] at h; cases h
        refine ih hnd (fun x hx => hval x (mem_cons_of_mem _ hx))
          ((mem_cons.1 ha).resolve_left hne) ?_
        rw [fetch_erase (hval b mem_cons_self) hne]
        exact h

/-! ## Completeness -/

/-- The import of `other` into `s` has ended with `error` and `s'`: there is no error, every account
of `other` is there with its key or as a watched one, and no account or key of `s` is lost. -/
structure ImportComplete (c : Crypto) (s other : WalletStore) (error : Bool) (s' : WalletStore) :
    Prop where
  no_error : error = false
  moved : ∀ a ∈ other.accounts, a ∈ s'.accounts
  keys : ∀ a ∈ other.accounts, ∀ prv, other.fetch c a 0 = (false, prv) →
    s'.fetch c a 0 = (false, prv)
  watched : ∀ a ∈ other.accounts, (other.entryGetRaw a).key = 0 → (s'.entryGetRaw a).key = 0
  kept : ∀ a ∈ s.accounts, a ∈ s'.accounts
  kept_keys : ∀ a ∈ s.accounts, ∀ prv, s.fetch c a 0 = (false, prv) → s'.fetch c a 0 = (false, prv)

/-- Every account of `other` can be moved: it has a key other than zero, and no other key in `s`. -/
def Importable (c : Crypto) (s other : WalletStore) : Prop :=
  ∀ a ∈ other.accounts, ∃ prv, other.fetch c a 0 = (false, prv) ∧ prv ≠ 0 ∧
    ∀ prv', s.fetch c a 0 = (false, prv') → prv' = prv

theorem mem_accounts_of_fetch {p : RawKey} (ha : validPublicKey a) (h : s.fetch c a 0 = (false, p)) :
    a ∈ s.accounts := by
  refine s.mem_accounts.2 ⟨ha, ?_⟩
  have hne := ne_zero_of_keyOf (fetch_eq_ok.1 h).2
  unfold entryGetRaw at hne
  cases hget : s.entries[a]? with
  | some v => rfl
  | none => exact absurd (by rw [hget]; rfl) hne

theorem importStore_ok (h : ∀ a ∈ other.accounts, other.fetch c a 0 = (false, prv a)) :
    ∃ s' other', s.importStore c other = (false, s', other') ∧ SameSeal s s' ∧
      s'.walletKey c = s.walletKey c ∧ ∀ x, s'.entries[x]? =
        if x ∈ other.accounts then some (importedValue c s x (prv x)) else s.entries[x]? :=
  foldl_importEntry_ok other.nodup_accounts fun a ha => ⟨(other.mem_accounts.1 ha).1, h a ha⟩

theorem importStore_error (ha : a ∈ other.accounts) (h : (other.fetch c a 0).1 = true) :
    (s.importStore c other).1 = true :=
  foldl_importEntry_error other.nodup_accounts (fun _ hx => (other.mem_accounts.1 hx).1) ha h

/-- The import into an unlocked store is complete exactly when every account of the other store can
be moved. -/
theorem importStore_complete_iff (A : c.Inverts) (hs : s.validPassword c)
    (hlg : ∀ a ∈ other.accounts, ∀ prv, other.fetch c a 0 = (false, prv) →
      2 ^ 64 ≤ (c.encrypt prv (s.walletKey c) (oword a 0)).toNat) :
    ImportComplete c s other (s.importStore c other).1 (s.importStore c other).2.1 ↔
      Importable c s other := by
  constructor
  · intro h a ha
    have hok (x : Account) (hx : x ∈ other.accounts) :
        other.fetch c x 0 = (false, (other.fetch c x 0).2) := by
      cases hfet : (other.fetch c x 0).1 with
      | false => exact Prod.ext hfet rfl
      | true => cases h.no_error.symm.trans (importStore_error hx hfet)
    obtain ⟨s', other', hrun, hseal, hkey, hents⟩ := importStore_ok (s := s) hok
    rw [hrun] at h
    refine ⟨_, hok a ha, fun hzero => ?_, fun prv' hprv' => ?_⟩
    · -- a key that is zero is lost
      have hlost := ne_zero_of_keyOf (fetch_eq_ok.1 (h.keys a ha _ (hok a ha))).2
      apply hlost
      change (s'.entries[a]?.getD ⟨0, 0⟩).key = 0
      rw [hents a, if_pos ha, hzero]
      rfl
    · have hmem := mem_accounts_of_fetch (other.mem_accounts.1 ha).1 hprv'
      have := (h.kept_keys a hmem prv' hprv').symm.trans (h.keys a ha _ (hok a ha))
      exact (Prod.mk.inj this).2
  · intro h
    have hok (x : Account) (hx : x ∈ other.accounts) :
        other.fetch c x 0 = (false, (other.fetch c x 0).2) := by
      obtain ⟨p, hp, -⟩ := h x hx
      rw [hp]
    obtain ⟨s', other', hrun, hseal, hkey, hents⟩ := importStore_ok (s := s) hok
    have hv : s'.validPassword c := by
      rw [validPassword_iff, hkey]
      exact hseal.opens_iff.2 (validPassword_iff.1 hs)
    have hmv {a : Account} (ha : a ∈ other.accounts) {p : RawKey}
        (hp : other.fetch c a 0 = (false, p)) : s'.fetch c a 0 = (false, p) := by
      obtain ⟨p', hp', hne, -⟩ := h a ha
      obtain rfl : p' = p := (Prod.mk.inj (hp'.symm.trans hp)).2
      refine fetch_eq_ok.2 ⟨hv, ?_⟩
      rw [hkey]
      refine keyOf_adhoc (A _ _ _) 0 (pubKey_of_keyOf (fetch_eq_ok.1 hp).2) ?_
        (hlg a ha _ hp)
      change s'.entries[a]?.getD ⟨0, 0⟩ = _
      rw [hents a, if_pos ha, hp]
      exact congrArg (WalletValue.mk · 0) (if_pos hne)
    rw [hrun]
    refine ⟨rfl, fun a ha => ?_, fun a ha p hp => hmv ha hp, fun a ha hz => ?_, fun a ha => ?_,
      fun a ha p hp => ?_⟩
    · rw [mem_accounts, hents a, if_pos ha]
      exact ⟨(other.mem_accounts.1 ha).1, rfl⟩
    · exact absurd hz (ne_zero_of_keyOf (fetch_eq_ok.1 (hok a ha)).2)
    · obtain ⟨hval, hsome⟩ := s.mem_accounts.1 ha
      rw [mem_accounts, hents a]
      refine ⟨hval, ?_⟩
      split
      · rfl
      · exact hsome
    · by_cases hoth : a ∈ other.accounts
      · obtain ⟨p', hp', -, hsame⟩ := h a hoth
        rw [hsame p hp]
        exact hmv hoth hp'
      · obtain ⟨-, hp⟩ := fetch_eq_ok.1 hp
        refine fetch_eq_ok.2 ⟨hv, ?_⟩
        rw [hkey, ← hp]
        refine keyOf_congr hseal.salt_eq hseal.seed ?_
        unfold entryGetRaw
        rw [hents a, if_neg hoth]

end WalletStore

namespace Sample

def walletAdhoc : WalletStore := (wallet.insertAdhoc crypto 5).2

def walletWatch : WalletStore := (walletAdhoc.insertWatch 2000).2

end Sample

open Sample

open WalletStore in
/-- A wallet with one ad-hoc key is imported into a new one. -/
theorem importStore_complete_adhoc :
    ImportComplete crypto Sample.wallet walletAdhoc
      (Sample.wallet.importStore crypto walletAdhoc).1
      (Sample.wallet.importStore crypto walletAdhoc).2.1 := by
  have haccs : walletAdhoc.accounts = [1005] := by decide +kernel
  refine (importStore_complete_iff crypto_inverts (by decide +kernel)
    fun a ha prv h => ?_).2 fun a ha => ?_
  · rw [haccs] at ha
    obtain rfl := mem_singleton.1 ha
    obtain rfl : (5 : RawKey) = prv :=
      (Prod.mk.inj ((show walletAdhoc.fetch crypto 1005 0 = (false, 5) by
        decide +kernel).symm.trans h)).2
    decide +kernel
  · rw [haccs] at ha
    obtain rfl := mem_singleton.1 ha
    refine ⟨5, by decide +kernel, by decide, fun prv' h => ?_⟩
    have : (Sample.wallet.fetch crypto 1005 0).1 = true := by decide +kernel
    rw [h] at this
    cases this

open WalletStore in
/-- Both wallets are unlocked, and the imported one has a watched account in addition. The import
fails, and the watched account is not there. -/
theorem importStore_incomplete :
    Sample.wallet.validPassword crypto ∧ walletWatch.validPassword crypto ∧
    (Sample.wallet.importStore crypto walletWatch).1 = true ∧
    (2000 : Account) ∈ walletWatch.accounts ∧
    (2000 : Account) ∉ (Sample.wallet.importStore crypto walletWatch).2.1.accounts := by
  refine ⟨by decide +kernel, by decide +kernel, by decide +kernel, by decide +kernel,
    by decide +kernel⟩

end Futurehead
