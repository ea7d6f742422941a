import Futurehead.Wallet.Import

/-!
# Moving keys (`wallet_store::move`)

The keys of a list of accounts are fetched from one store, inserted into another one as ad-hoc keys
and erased. An account without a key ends this: the error stays, and nothing is moved any more.
`move_conserves` says that no key is lost on the way.
-/

namespace Futurehead

open List

namespace WalletStore

/-- The body of the loop of `move`. -/
def moveKey (c : Crypto) (state : Bool × WalletStore × WalletStore) (pub : Account) :
    Bool × WalletStore × WalletStore :=
  let (result, s, other) := state
  let (error, prv) := other.fetch c pub 0
  let result := result || error
  if result then (result, s, other) else (result, (s.insertAdhoc c prv).2, other.erase pub)

/-- `move`: the error, and both stores afterwards. -/
def move (c : Crypto) (s other : WalletStore) (keys : List Account) :
    Bool × WalletStore × WalletStore :=
  keys.foldl (moveKey c) (false, s, other)

/-- What is assumed of the accounts of the list: they are public keys and not the numbers of special
entries. If both stores give out a key, it is the same one. The ciphertext of a key that is moved is
not small. -/
structure Movable (c : Crypto) (s other : WalletStore) (keys : List Account) : Prop where
  valid : ∀ a ∈ keys, validPublicKey a
  same : ∀ a ∈ keys, ∀ prv prv', other.fetch c a 0 = (false, prv) →
    s.fetch c a 0 = (false, prv') → prv = prv'
  large : ∀ a ∈ keys, ∀ prv, other.fetch c a 0 = (false, prv) →
    2 ^ 64 ≤ (c.encrypt prv (s.walletKey c) (oword a 0)).toNat

variable {c : Crypto} {s s' other other' : WalletStore} {error error' : Bool} {a : Account}
  {keys : List Account} {prv : RawKey}

theorem moveKey_cases (h : moveKey c (error, s, other) a = (error', s', other')) :
    (error' = true ∧ s' = s ∧ other' = other) ∨
      (error = false ∧ error' = false ∧ other' = other.erase a ∧
        ∃ prv, other.fetch c a 0 = (false, prv) ∧
          s' = s.entryPutRaw a ⟨c.encrypt prv (s.walletKey c) (oword a 0), 0⟩) := by
  cases hfet : other.fetch c a 0 with
  | mk failed prv =>
    unfold moveKey at h
    simp only [hfet] at h
    cases failed with
    | true =>
      simp only [Bool.or_true, if_true, Prod.mk.injEq] at h
      exact .inl ⟨h.1.symm, h.2.1.symm, h.2.2.symm⟩
    | false =>
      have hpub : c.pubKey prv = a := pubKey_of_keyOf (fetch_eq_ok.1 hfet).2
      cases error with
      | true =>
        simp only [Bool.or_false, if_true, Prod.mk.injEq] at h
        exact .inl ⟨h.1.symm, h.2.1.symm, h.2.2.symm⟩
      | false =>
        simp only [Bool.or_false, Bool.false_eq_true, if_false, Prod.mk.injEq, insertAdhoc, hpub] at h
        exact .inr ⟨rfl, h.1.symm, h.2.2.symm, prv, rfl, h.2.1.symm⟩

/-- `move` has gone from the stores `s` and `other` to `s'` and `other'`: both have the wallet keys
they had, the keys of both are in one of them, and other accounts keep their entries. -/
structure Moved (c : Crypto) (keys : List Account) (s other s' other' : WalletStore) : Prop where
  key : s'.walletKey c = s.walletKey c
  valid : s.validPassword c → s'.validPassword c
  conserved : ∀ x prv, s.fetch c x 0 = (false, prv) ∨ other.fetch c x 0 = (false, prv) →
    s'.fetch c x 0 = (false, prv) ∨ other'.fetch c x 0 = (false, prv)
  frame : ∀ x, x ∉ keys → s'.entries[x]? = s.entries[x]? ∧ other'.entries[x]? = other.entries[x]?

theorem moved_key (A : c.Inverts) (h : Movable c s other (a :: keys)) (hs : s.validPassword c)
    (hfet : other.fetch c a 0 = (false, prv)) :
    Moved c [a] s other (s.entryPutRaw a ⟨c.encrypt prv (s.walletKey c) (oword a 0), 0⟩)
      (other.erase a) := by
  have ha := h.valid a mem_cons_self
  have hpub : c.pubKey prv = a := pubKey_of_keyOf (fetch_eq_ok.1 hfet).2
  have hkey := walletKey_put (c := c) (s := s) ha ⟨c.encrypt prv (s.walletKey c) (oword a 0), 0⟩
  have hval : (s.entryPutRaw a ⟨c.encrypt prv (s.walletKey c) (oword a 0), 0⟩).validPassword c := by
    rw [validPassword_iff, hkey]
    exact (seal_put ha).opens_iff.2 (validPassword_iff.1 hs)
  refine ⟨hkey, fun _ => hval, fun x p hx => ?_, fun x hx => ?_⟩
  · by_cases hxa : x = a
    · subst hxa
      -- whatever gave out the key, it is the one that is moved
      obtain rfl : prv = p := by
        rcases hx with hx | hx
        · exact h.same x mem_cons_self _ _ hfet hx
        · exact (Prod.mk.inj (hfet.symm.trans hx)).2
      refine .inl (fetch_eq_ok.2 ⟨hval, ?_⟩)
      rw [hkey]
      exact keyOf_adhoc (A _ _ _) 0 hpub (by rw [entryGetRaw_put, if_pos rfl])
        (h.large x mem_cons_self _ hfet)
    · rw [fetch_erase ha hxa, fetch_of_ne ha (fun _ hy => entryGetRaw_put_ne hy _) rfl rfl hxa]
      exact hx
  · have hxa : x ≠ a := fun heq => hx (mem_singleton.2 heq)
    rw [getElem?_put, getElem?_erase, if_neg hxa, if_neg hxa]
    exact ⟨rfl, rfl⟩

theorem Movable.tail (h : Movable c s other (a :: keys)) : Movable c s other keys where
  valid := fun x hx => h.valid x (mem_cons_of_mem _ hx)
  same := fun x hx => h.same x (mem_cons_of_mem _ hx)
  large := fun x hx => h.large x (mem_cons_of_mem _ hx)

theorem Movable.moved (h : Movable c s other keys) (ha : validPublicKey a) {entry : WalletValue} :
    Movable c (s.entryPutRaw a entry) (other.erase a) keys := by
  -- what the source still gives out it gave out before, and it is not `a`
  have hfet : ∀ x prv, (other.erase a).fetch c x 0 = (false, prv) →
      x ≠ a ∧ other.fetch c x 0 = (false, prv) := by
    intro x prv hx
    by_cases hxa : x = a
    · subst hxa
      have hmem := mem_accounts_of_fetch ha hx
      rw [mem_accounts, getElem?_erase, if_pos rfl] at hmem
      cases hmem.2
    · rw [fetch_erase ha hxa] at hx
      exact ⟨hxa, hx⟩
  refine ⟨h.valid, fun x hx prv prv' hprv hprv' => ?_, fun x hx prv hprv => ?_⟩
  · obtain ⟨hxa, hprv⟩ := hfet x prv hprv
    rw [fetch_of_ne ha (fun _ hy => entryGetRaw_put_ne hy _) rfl rfl hxa] at hprv'
    exact h.same x hx prv prv' hprv hprv'
  · rw [walletKey_put ha]
    exact h.large x hx prv (hfet x prv hprv).2

theorem Moved.refl : Moved c keys s other s other :=
  ⟨rfl, id, fun _ _ h => h, fun _ _ => ⟨rfl, rfl⟩⟩

theorem Moved.trans {s'' other'' : WalletStore} (h : Moved c [a] s other s' other')
    (h' : Moved c keys s' other' s'' other'') : Moved c (a :: keys) s other s'' other'' where
  key := h'.key.trans h.key
  valid := fun hs => h'.valid (h.valid hs)
  conserved := fun x prv hx => h'.conserved x prv (h.conserved x prv hx)
  frame := fun x hx => by
    obtain ⟨hxa, hx⟩ := not_or.1 (mem_cons.not.1 hx)
    obtain ⟨hs', hoth'⟩ := h'.frame x hx
    obtain ⟨hs, hoth⟩ := h.frame x (by simpa using hxa)
    exact ⟨hs'.trans hs, hoth'.trans hoth⟩

theorem foldl_moveKey (A : c.Inverts) (h : Movable c s other keys) (hs : s.validPassword c)
    (hrun : keys.foldl (moveKey c) (error, s, other) = (error', s', other')) :
    Moved c keys s other s' other' ∧ (error' = false → error = false ∧
      ∀ x ∈ keys, x ∈ s'.accounts ∧ x ∉ other'.accounts) := by
  induction keys generalizing error s other with
  | nil =>
    cases hrun
    exact ⟨.refl, fun herr => ⟨herr, by simp⟩⟩
  | cons a keys ih =>
    rw [foldl_cons] at hrun
    cases hstep : moveKey c (error, s, other) a with
    | mk error1 stores =>
      obtain ⟨s1, other1⟩ := stores
      rw [hstep] at hrun
      obtain ⟨rfl, rfl, rfl⟩ | ⟨rfl, rfl, rfl, prv, hfet, rfl⟩ := moveKey_cases hstep
      · obtain ⟨hmv, herr⟩ := ih h.tail hs hrun
        refine ⟨Moved.refl.trans hmv, fun hfls => ?_⟩
        cases (herr hfls).1
      · have hmoved1 := moved_key A h hs hfet
        obtain ⟨hmv, herr⟩ :=
          ih (h.tail.moved (h.valid a mem_cons_self)) (hmoved1.valid hs) hrun
        refine ⟨hmoved1.trans hmv, fun hfls => ⟨rfl, fun x hx => ?_⟩⟩
        by_cases hlater : x ∈ keys
        · exact (herr hfls).2 x hlater
        · obtain rfl : x = a := by simpa [hlater] using hx
          obtain ⟨hs', hoth'⟩ := hmv.frame x hlater
          simp [mem_accounts, hs', hoth', getElem?_put, getElem?_erase, h.valid x hx]

/-- The destination is unlocked. Every key that one of them gives out before is given out by one of them
afterwards; the entries of other accounts stay; and without an error all accounts of the list are in the
destination and not in the source. -/
theorem move_conserves (A : c.Inverts) (h : Movable c s other keys) (hs : s.validPassword c) {r : Bool × WalletStore × WalletStore}
    (hmove : s.move c other keys = r) :
    (∀ a prv, s.fetch c a 0 = (false, prv) ∨ other.fetch c a 0 = (false, prv) →
      r.2.1.fetch c a 0 = (false, prv) ∨ r.2.2.fetch c a 0 = (false, prv)) ∧
    (∀ a, a ∉ keys → r.2.1.entries[a]? = s.entries[a]? ∧ r.2.2.entries[a]? = other.entries[a]?) ∧
    (r.1 = false → ∀ a ∈ keys, a ∈ r.2.1.accounts ∧ a ∉ r.2.2.accounts) := by
  obtain ⟨hmv, herr⟩ := foldl_moveKey A h hs hmove
  exact ⟨hmv.conserved, hmv.frame, fun hfls => (herr hfls).2⟩

end WalletStore

open Sample

/-- A wallet with one ad-hoc key, which is moved to a new wallet. -/
theorem move_conserves_adhoc :
    walletAdhoc.fetch crypto 1005 0 = (false, 5) ∧
      (Sample.wallet.move crypto walletAdhoc [1005]).1 = false ∧
      (1005 : Account) ∈ (Sample.wallet.move crypto walletAdhoc [1005]).2.1.accounts := by
  have hkey : ∀ prv, walletAdhoc.fetch crypto 1005 0 = (false, prv) → prv = 5 := by
    intro prv h
    have hfive : walletAdhoc.fetch crypto 1005 0 = (false, 5) := by decide +kernel
    exact (Prod.mk.inj (h.symm.trans hfive)).2
  have hmovable : WalletStore.Movable crypto Sample.wallet walletAdhoc [1005] := by
    refine ⟨fun a ha => ?_, fun a ha prv prv' h h' => ?_, fun a ha prv h => ?_⟩ <;>
      obtain rfl := mem_singleton.1 ha
    · decide
    · have herr : (Sample.wallet.fetch crypto 1005 0).1 = true := by decide +kernel
      rw [h'] at herr
      cases herr
    · rw [hkey prv h]
      decide +kernel
  have herr : (Sample.wallet.move crypto walletAdhoc [1005]).1 = false := by
    decide +kernel
  exact ⟨by decide +kernel, herr, ((WalletStore.move_conserves crypto_inverts hmovable
    (by decide +kernel) rfl).2.2 herr 1005 mem_cons_self).1⟩

end Futurehead
