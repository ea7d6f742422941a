import Futurehead.Numbers.Hex
import Futurehead.Wallet.Keys

/-!
# Backups of a wallet (`serialize_json` and the constructor from JSON)

Every turn of the loop of the constructor sets the error flag anew, so only the last entry of the
object decides whether it is set. An object is accepted if its last entry is well formed and the
required entries are among those that could be read (`Accepted`); it is loaded completely if all of
its entries are well formed and agree with each other (`Clean`).
-/

namespace Futurehead

open List

variable {c : Crypto} {s s' : WalletStore} {tree rest : WalletStore.Tree} {name text : Text}
  {k : Account} {x : Uint256}

namespace WalletStore

/-! ## The loop -/

/-- What one turn of the loop finds: nothing if an exception is thrown, and otherwise an error or an
entry. -/
def turn (tree : Tree) (name : Text) : Option (Option (Account × Uint256)) :=
  match decodeHex name with
  | .throws => none
  | .error => some none
  | .value key => do
    let text ← getChild tree name
    match decodeHex text with
    | .throws => none
    | .error => some none
    | .value value => some (some (key, value))

/-- The store after a turn that has found an entry or an error. -/
def applyTurn (s : WalletStore) : Option (Account × Uint256) → WalletStore
  | none => s
  | some (key, value) => s.entryPutRaw key ⟨value, 0⟩

theorem loadEntry_eq (s : WalletStore) (tree : Tree) (name : Text) :
    loadEntry tree s name = (turn tree name).map fun found => (found.isNone, s.applyTurn found) := by
  unfold loadEntry turn
  cases decodeHex name with
  | throws => rfl
  | error => rfl
  | value key =>
    cases getChild tree name with
    | none => rfl
    | some text => cases h : decodeHex text <;> simp [h, applyTurn]

theorem turn_eq_entry : turn tree name = some (some (k, x)) ↔
    decodeHex name = .value k ∧ ∃ text, getChild tree name = some text ∧ decodeHex text = .value x := by
  unfold turn
  cases decodeHex name with
  | throws => simp
  | error => simp
  | value key =>
    cases getChild tree name with
    | none => simp
    | some text => cases h : decodeHex text <;> simp [h]

theorem loadEntries_returns (error : Bool) (h : ∀ entry ∈ rest, turn tree entry.1 ≠ none) :
    ∃ error' s', loadEntries tree rest error s = some (error', s') := by
  induction rest generalizing s error with
  | nil => exact ⟨error, s, rfl⟩
  | cons entry rest ih =>
    obtain ⟨found, hfnd⟩ := Option.ne_none_iff_exists'.1 (h entry mem_cons_self)
    obtain ⟨error', s', hrun⟩ := ih (s := s.applyTurn found) found.isNone
      fun e he => h e (mem_cons_of_mem _ he)
    refine ⟨error', s', ?_⟩
    rw [loadEntries, loadEntry_eq, hfnd]
    exact hrun

/-- What the loop has done when it returns: no turn has thrown, the flag is that of the last turn,
and the entry of a key is one of those that were found for it. -/
structure LoadedFrom (tree rest : Tree) (error : Bool) (s : WalletStore) (error' : Bool)
    (s' : WalletStore) : Prop where
  no_throw : ∀ entry ∈ rest, turn tree entry.1 ≠ none
  flag : error' = (rest.getLast?.map fun entry => turn tree entry.1 == some none).getD error
  entry : ∀ k, (∃ v, s'.entries[k]? = some v ∧
      ∃ e ∈ rest, turn tree e.1 = some (some (k, v.key)) ∧ v.work = 0) ∨
    ((∀ e ∈ rest, ∀ x, turn tree e.1 ≠ some (some (k, x))) ∧ s'.entries[k]? = s.entries[k]?)
  memory : s'.password = s.password ∧ s'.walletKeyMem = s.walletKeyMem

variable {random : Random} {error error' : Bool} {entry : Text × Text}

theorem loadEntries_spec (h : loadEntries tree rest error s = some (error', s')) :
    LoadedFrom tree rest error s error' s' := by
  induction rest generalizing s error with
  | nil =>
    cases h
    exact ⟨by simp, rfl, fun k => .inr ⟨by simp, rfl⟩, rfl, rfl⟩
  | cons e rest ih =>
    obtain ⟨⟨error1, s1⟩, hturn, hrun⟩ := Option.bind_eq_some_iff.1 h
    rw [loadEntry_eq] at hturn
    obtain ⟨found, hfnd, heq⟩ := Option.map_eq_some_iff.1 hturn
    cases heq
    have hrest := ih hrun
    refine ⟨forall_mem_cons.2 ⟨by rw [hfnd]; simp, hrest.no_throw⟩, ?_, fun k => ?_, ?_⟩
    · rw [hrest.flag]
      cases rest with
      | nil =>
        rw [getLast?_nil, getLast?_singleton, Option.map_some, hfnd]
        cases found <;> rfl
      | cons e' rest => rw [getLast?_cons_cons]; cases hl : (e' :: rest).getLast? <;> simp_all
    · rcases hrest.entry k with ⟨v, hv, e', he', hput⟩ | ⟨hnone, hsame⟩
      · exact .inl ⟨v, hv, e', mem_cons_of_mem _ he', hput⟩
      · rw [hsame]
        cases found with
        | none =>
          refine .inr ⟨forall_mem_cons.2 ⟨fun x hx => ?_, hnone⟩, rfl⟩
          cases hfnd.symm.trans hx
        | some pair =>
          obtain ⟨key, value⟩ := pair
          change _ ∨ (_ ∧ (s.entryPutRaw key ⟨value, 0⟩).entries[k]? = _)
          by_cases hk : k = key
          · subst hk
            exact .inl ⟨⟨value, 0⟩, by rw [applyTurn, getElem?_put, if_pos rfl], e,
              mem_cons_self, hfnd, rfl⟩
          · rw [getElem?_put, if_neg hk]
            refine .inr ⟨forall_mem_cons.2 ⟨fun x hx => ?_, hnone⟩, rfl⟩
            cases hfnd.symm.trans hx
            exact hk rfl
    · obtain ⟨hpw, hmem⟩ := hrest.memory
      rw [hpw, hmem]
      cases found <;> exact ⟨rfl, rfl⟩

/-! ## Which objects are accepted -/

/-- No turn throws, the last one finds an entry, and every required entry is found. -/
structure Accepted (tree : Tree) : Prop where
  no_throw : ∀ entry ∈ tree, turn tree entry.1 ≠ none
  last : ∀ entry ∈ tree.getLast?, turn tree entry.1 ≠ some none
  required : ∀ k ∈ requiredSpecials, ∃ entry ∈ tree, ∃ x, turn tree entry.1 = some (some (k, x))

/-- All names and values are numbers, and entries for the same account have the same value. -/
structure Clean (tree : Tree) : Prop where
  decoded : ∀ entry ∈ tree, ∃ k x, decodeHex entry.1 = .value k ∧ decodeHex entry.2 = .value x
  agree : ∀ entry ∈ tree, ∀ entry' ∈ tree, decodeHex entry.1 = decodeHex entry'.1 →
    decodeHex entry.2 = decodeHex entry'.2

/-- Every entry of the object was read and is stored, and the required entries are there. -/
structure LoadedFully (tree : Tree) (s : WalletStore) : Prop where
  stored : ∀ entry ∈ tree, ∃ k x, decodeHex entry.1 = .value k ∧ decodeHex entry.2 = .value x ∧
    s.entries[k]? = some ⟨x, 0⟩
  required : ∀ k ∈ requiredSpecials, s.entries.contains k

/-- The store that the constructor leaves when the loop has ended with `s`. -/
def afterLoop (s : WalletStore) : WalletStore :=
  { s with
    password := s.password.valueSet 0
    walletKeyMem := s.walletKeyMem.valueSet (s.entryGetRaw walletKeySpecial).key }

def beforeLoop (random : Random) : WalletStore :=
  ⟨∅, .new 0 random.password, .new 0 random.walletKeyMem⟩

theorem ofJson_eq_some : ofJson (some tree) random = some (error, s) ↔
      ∃ error1 s1, loadEntries tree tree false (beforeLoop random) = some (error1, s1) ∧
        error = (error1 || !requiredSpecials.all s1.entries.contains) ∧ s = afterLoop s1 := by
  unfold ofJson
  constructor
  · intro h
    obtain ⟨⟨error1, s1⟩, hrun, h⟩ := Option.bind_eq_some_iff.1 h
    cases h
    exact ⟨error1, s1, hrun, rfl, rfl⟩
  · rintro ⟨error1, s1, hrun, rfl, rfl⟩
    exact Option.bind_eq_some_iff.2 ⟨(error1, s1), hrun, rfl⟩

/-- The required entries are there, and the wallet key in memory is the stored one. -/
structure Intact (s : WalletStore) : Prop where
  required : ∀ k ∈ requiredSpecials, s.entries.contains k
  memory : s.walletKeyMem.value = (s.entryGetRaw walletKeySpecial).key

theorem intact_ofJson (h : ofJson (some tree) random = some (false, s)) : s.Intact := by
  obtain ⟨error1, s1, -, hflag, rfl⟩ := ofJson_eq_some.1 h
  have hall := (Bool.or_eq_false_iff.1 hflag.symm).2
  rw [Bool.not_eq_false'] at hall
  exact ⟨all_eq_true.1 hall, Fan.value_valueSet _ _⟩

theorem LoadedFrom.contains_iff (h : LoadedFrom tree tree error (beforeLoop random) error' s) :
    s.entries.contains k ↔ ∃ entry ∈ tree, ∃ x, turn tree entry.1 = some (some (k, x)) := by
  rw [Std.ExtTreeMap.contains_eq_isSome_getElem?]
  rcases h.entry k with ⟨v, hv, e, he, hput, -⟩ | ⟨hnone, hsame⟩
  · rw [hv]
    exact ⟨fun _ => ⟨e, he, v.key, hput⟩, fun _ => rfl⟩
  · rw [hsame]
    constructor
    · intro hsome
      have hemp : (beforeLoop random).entries[k]? = none := Std.ExtTreeMap.getElem?_empty
      rw [hemp] at hsome
      cases hsome
    · rintro ⟨e, he, x, hx⟩
      exact absurd hx (hnone e he x)

theorem ofJson_eq_ok_iff (random : Random) :
    (∃ s, ofJson (some tree) random = some (false, s)) ↔ Accepted tree := by
  constructor
  · rintro ⟨s, h⟩
    obtain ⟨error1, s1, hrun, hflag, -⟩ := ofJson_eq_some.1 h
    have hspec := loadEntries_spec hrun
    obtain ⟨hlast, hall⟩ := Bool.or_eq_false_iff.1 hflag.symm
    rw [Bool.not_eq_false'] at hall
    refine ⟨hspec.no_throw, fun entry hent heq => ?_, fun k hk => ?_⟩
    · have := hspec.flag
      rw [hlast, Option.mem_def.1 hent, Option.map_some, heq] at this
      cases this
    · exact hspec.contains_iff.1 (all_eq_true.1 hall k hk)
  · intro h
    obtain ⟨error1, s1, hrun⟩ := loadEntries_returns (s := beforeLoop random) false
      h.no_throw
    have hspec := loadEntries_spec hrun
    refine ⟨_, ofJson_eq_some.2 ⟨error1, s1, hrun, ?_, rfl⟩⟩
    have hall : requiredSpecials.all s1.entries.contains = true :=
      all_eq_true.2 fun k hk => hspec.contains_iff.2 (h.required k hk)
    rw [hall, hspec.flag]
    cases hl : tree.getLast? with
    | none => rfl
    | some entry =>
      have hne := h.last entry hl
      rw [Option.map_some, Option.getD_some, beq_false_of_ne hne]
      rfl

theorem getChild_mem (h : getChild tree name = some text) : (name, text) ∈ tree := by
  obtain ⟨l1, l2, rfl, -⟩ := lookup_eq_some_iff.1 h
  simp

theorem exists_getChild (h : entry ∈ tree) : ∃ text, getChild tree entry.1 = some text := by
  cases hget : getChild tree entry.1 with
  | some text => exact ⟨text, rfl⟩
  | none =>
    have := lookup_eq_none_iff.1 hget entry h
    simp at this

theorem Clean.turn_eq (h : Clean tree) (hent : entry ∈ tree) (hk : decodeHex entry.1 = .value k)
    (hx : decodeHex entry.2 = .value x) : turn tree entry.1 = some (some (k, x)) := by
  obtain ⟨text, htext⟩ := exists_getChild hent
  have hsame := h.agree _ (getChild_mem htext) entry hent rfl
  exact turn_eq_entry.2 ⟨hk, text, htext, hsame.trans hx⟩

theorem Clean.loadedFully (h : Clean tree) (hok : ofJson (some tree) random = some (false, s)) :
    LoadedFully tree s := by
  obtain ⟨error1, s1, hrun, -, rfl⟩ := ofJson_eq_some.1 hok
  have hspec := loadEntries_spec hrun
  refine ⟨fun entry hent => ?_, fun k hk => ?_⟩
  · obtain ⟨k, x, hk, hx⟩ := h.decoded entry hent
    refine ⟨k, x, hk, hx, ?_⟩
    rcases hspec.entry k with ⟨v, hv, e, he, hput, hwork⟩ | ⟨hnone, -⟩
    · -- the entry of another turn for this key has the same value
      obtain ⟨hname, text, htext, hvalue⟩ := turn_eq_entry.1 hput
      have hsame := h.agree entry hent _ (getChild_mem htext) (hk.trans hname.symm)
      obtain rfl : x = v.key := Decoded.value.inj (hx.symm.trans (hsame.trans hvalue))
      obtain ⟨key, work⟩ := v
      cases hwork
      exact hv
    · exact absurd (h.turn_eq hent hk hx) (hnone entry hent x)
  · exact (intact_ofJson hok).required k hk

theorem LoadedFully.clean (h : LoadedFully tree s) : Clean tree := by
  refine ⟨fun entry hent => ?_, fun entry hent entry' hent' heq => ?_⟩
  · obtain ⟨k, x, hk, hx, -⟩ := h.stored entry hent
    exact ⟨k, x, hk, hx⟩
  · obtain ⟨k, x, hk, hx, hst⟩ := h.stored entry hent
    obtain ⟨k', x', hk', hx', hst'⟩ := h.stored entry' hent'
    obtain rfl : k = k' := Decoded.value.inj (hk.symm.trans (heq.trans hk'))
    have := Option.some.inj (hst.symm.trans hst')
    rw [hx, hx', (WalletValue.mk.inj this).1]

/-! ## What is written -/

theorem mem_serializeJson : entry ∈ s.serializeJson ↔
    ∃ k v, s.entries[k]? = some v ∧ entry = (encodeHex k, encodeHex v.key) := by
  unfold serializeJson
  rw [mem_map]
  constructor
  · rintro ⟨⟨k, v⟩, hmem, rfl⟩
    exact ⟨k, v, Std.ExtTreeMap.mem_toList_iff_getElem?_eq_some.1 hmem, rfl⟩
  · rintro ⟨k, v, hget, rfl⟩
    exact ⟨(k, v), Std.ExtTreeMap.mem_toList_iff_getElem?_eq_some.2 hget, rfl⟩

theorem clean_serializeJson (s : WalletStore) : Clean s.serializeJson := by
  refine ⟨fun entry hent => ?_, fun entry hent entry' hent' heq => ?_⟩
  · obtain ⟨k, v, -, rfl⟩ := mem_serializeJson.1 hent
    exact ⟨k, v.key, decodeHex_encodeHex k, decodeHex_encodeHex v.key⟩
  · obtain ⟨k, v, hget, rfl⟩ := mem_serializeJson.1 hent
    obtain ⟨k', v', hget', rfl⟩ := mem_serializeJson.1 hent'
    rw [decodeHex_encodeHex, decodeHex_encodeHex] at heq
    obtain rfl := Decoded.value.inj heq
    rw [Option.some.inj (hget.symm.trans hget')]

theorem turn_serializeJson {v : WalletValue} (h : s.entries[k]? = some v) :
    turn s.serializeJson (encodeHex k) = some (some (k, v.key)) := by
  obtain ⟨entry, hent⟩ : ∃ entry, entry = (encodeHex k, encodeHex v.key) := ⟨_, rfl⟩
  have hmem : entry ∈ s.serializeJson := mem_serializeJson.2 ⟨k, v, h, hent⟩
  have hname : decodeHex entry.1 = .value k := by rw [hent, decodeHex_encodeHex]
  have hvalue : decodeHex entry.2 = .value v.key := by rw [hent, decodeHex_encodeHex]
  have hturn := s.clean_serializeJson.turn_eq hmem hname hvalue
  rw [hent] at hturn
  exact hturn

theorem accepted_serializeJson (h : ∀ k ∈ requiredSpecials, s.entries.contains k) :
    Accepted s.serializeJson := by
  have hturn {entry : Text × Text} (hent : entry ∈ s.serializeJson) :
      ∃ k x, turn s.serializeJson entry.1 = some (some (k, x)) := by
    obtain ⟨k, v, hget, rfl⟩ := mem_serializeJson.1 hent
    exact ⟨k, v.key, turn_serializeJson hget⟩
  refine ⟨fun entry hent heq => ?_, fun entry hent heq => ?_, fun k hk => ?_⟩
  · obtain ⟨k, x, hx⟩ := hturn hent
    cases heq.symm.trans hx
  · obtain ⟨k, x, hx⟩ := hturn (mem_of_mem_getLast? hent)
    cases heq.symm.trans hx
  · have hcont := h k hk
    rw [Std.ExtTreeMap.contains_eq_isSome_getElem?] at hcont
    obtain ⟨v, hv⟩ := Option.isSome_iff_exists.1 hcont
    exact ⟨_, mem_serializeJson.2 ⟨k, v, hv, rfl⟩, v.key, turn_serializeJson hv⟩

/-! ## Complete objects -/

/-- An object is loaded completely whenever the constructor finishes without an error, exactly if it
is not both accepted and malformed. -/
theorem ofJson_complete_iff (tree : Tree) (random : Random) :
    (∀ s, ofJson (some tree) random = some (false, s) → LoadedFully tree s) ↔
      (Accepted tree → Clean tree) := by
  constructor
  · intro h hacc
    obtain ⟨s, hs⟩ := (ofJson_eq_ok_iff random).2 hacc
    exact (h s hs).clean
  · intro h s hs
    exact (h ((ofJson_eq_ok_iff random).1 ⟨s, hs⟩)).loadedFully hs

end WalletStore

namespace Sample

def backup : WalletStore.Tree := wallet.serializeJson

def damaged : WalletStore.Tree := (['z'], ['1']) :: backup

def walletLocked (password : Text) : WalletStore :=
  ((wallet.insertAdhoc crypto 5).2.rekey crypto password).2

end Sample

open Sample

open WalletStore in
/-- What was written for a new wallet is loaded completely. -/
theorem ofJson_complete_new : ∃ s, ofJson (some backup) random = some (false, s) ∧
    LoadedFully backup s := by
  have hrequired : ∀ k ∈ requiredSpecials, Sample.wallet.entries.contains k := by
    rw [← all_eq_true]
    decide +kernel
  obtain ⟨s, h⟩ := (ofJson_eq_ok_iff random).2 (accepted_serializeJson hrequired)
  exact ⟨s, h, (ofJson_complete_iff backup random).2
    (fun _ => clean_serializeJson Sample.wallet) s h⟩

open WalletStore in
/-- An object with a malformed name is accepted. -/
theorem ofJson_incomplete : decodeHex ['z'] = .error ∧
    ∃ s, ofJson (some damaged) random = some (false, s) ∧ ¬ LoadedFully damaged s := by
  have hz : decodeHex ['z'] = .error := by decide
  have hok : (ofJson (some damaged) random).map (·.1) = some false := by
    decide +kernel
  obtain ⟨⟨error, s⟩, h, rfl⟩ := Option.map_eq_some_iff.1 hok
  refine ⟨hz, s, h, fun hloaded => ?_⟩
  obtain ⟨k, x, hk, -⟩ := hloaded.stored (['z'], ['1']) mem_cons_self
  cases hz.symm.trans hk

namespace WalletStore

/-! ## Round trip -/

theorem ofJson_serializeJson (h : s.Intact) (random : Random) :
    ∃ t, ofJson (some s.serializeJson) random = some (false, t) ∧ t.Intact ∧
      t.entries = s.entries.map fun _ v => ⟨v.key, 0⟩ := by
  obtain ⟨t, ht⟩ := (ofJson_eq_ok_iff random).2 (accepted_serializeJson h.required)
  have hloaded := s.clean_serializeJson.loadedFully ht
  obtain ⟨error1, s1, hrun, -, rfl⟩ := ofJson_eq_some.1 ht
  have hspec := loadEntries_spec hrun
  refine ⟨_, ht, intact_ofJson ht, ?_⟩
  refine Std.ExtTreeMap.ext_getElem? fun k => ?_
  rw [Std.ExtTreeMap.getElem?_map]
  cases hget : s.entries[k]? with
  | some v =>
    obtain ⟨k', x, hk', hx, hst⟩ := hloaded.stored _ (mem_serializeJson.2 ⟨k, v, hget, rfl⟩)
    obtain rfl := Decoded.value.inj ((decodeHex_encodeHex k).symm.trans hk')
    obtain rfl := Decoded.value.inj ((decodeHex_encodeHex v.key).symm.trans hx)
    exact hst
  | none =>
    change s1.entries[k]? = none
    rcases hspec.entry k with ⟨v, -, e, he, hput, -⟩ | ⟨-, hsame⟩
    · -- nothing was written for this key
      obtain ⟨k', v', hget', rfl⟩ := mem_serializeJson.1 he
      rw [turn_serializeJson hget'] at hput
      obtain rfl := (Prod.mk.inj (Option.some.inj (Option.some.inj hput))).1
      cases hget.symm.trans hget'
    · rw [hsame]
      exact Std.ExtTreeMap.getElem?_empty

theorem fetch_congr (s' s : WalletStore) (c : Crypto)
    (hkeys : ∀ k, (s'.entryGetRaw k).key = (s.entryGetRaw k).key)
    (hpw : s'.password.value = s.password.value)
    (hmem : s'.walletKeyMem.value = s.walletKeyMem.value) (pub : Account) (g : RawKey) :
    s'.validPassword c = s.validPassword c ∧ s'.fetch c pub g = s.fetch c pub g := by
  have hsalt : s'.salt = s.salt := hkeys _
  have hchk : s'.check = s.check := hkeys _
  have hkey : s'.walletKey c = s.walletKey c := by
    unfold walletKey
    rw [hsalt, hpw, hmem]
  have hval : s'.validPassword c = s.validPassword c := by
    unfold validPassword
    rw [hchk, hkey, hsalt]
  refine ⟨hval, ?_⟩
  unfold fetch fetchRaw keyType deterministicKey seed
  rw [hval, hkey, hsalt]
  simp only [hkeys]

/-! ## Every store is intact -/

/-- The required entries, the stored wallet key and the wallet key in memory stay. -/
structure SameCore (s s' : WalletStore) : Prop where
  required : ∀ k ∈ requiredSpecials, s.entries.contains k → s'.entries.contains k
  walletKey : s'.entryGetRaw walletKeySpecial = s.entryGetRaw walletKeySpecial
  memory : s'.walletKeyMem = s.walletKeyMem

theorem SameCore.refl (s : WalletStore) : SameCore s s := ⟨fun _ _ h => h, rfl, rfl⟩

theorem SameCore.trans {s'' : WalletStore} (h : SameCore s s') (h' : SameCore s' s'') :
    SameCore s s'' :=
  ⟨fun k hk hc => h'.required k hk (h.required k hk hc), h'.walletKey.trans h.walletKey,
    h'.memory.trans h.memory⟩

theorem SameCore.foldl {f : WalletStore → Account → WalletStore} {l : List Account}
    (h : ∀ s, ∀ a ∈ l, SameCore s (f s a)) (s : WalletStore) : SameCore s (l.foldl f s) := by
  induction l generalizing s with
  | nil => exact .refl s
  | cons a l ih =>
    exact (h s a mem_cons_self).trans (ih (fun s b hb => h s b (mem_cons_of_mem _ hb)) _)

theorem Intact.of_core (h : s.Intact) (hcore : SameCore s s') : s'.Intact := by
  refine ⟨fun k hk => hcore.required k hk (h.required k hk), ?_⟩
  rw [hcore.memory, hcore.walletKey]
  exact h.memory

variable {a : Account} {v : WalletValue} {t t' : Tracked}

theorem contains_put {b : Account} (h : s.entries.contains b) :
    (s.entryPutRaw a v).entries.contains b := by
  rw [Std.ExtTreeMap.contains_eq_isSome_getElem?] at h ⊢
  rw [getElem?_put]
  split
  · rfl
  · exact h

theorem SameCore.put (ha : a ≠ walletKeySpecial) : SameCore s (s.entryPutRaw a v) := by
  refine ⟨fun k _ => contains_put, ?_, rfl⟩
  rw [entryGetRaw_put, if_neg ha.symm]

theorem not_required (ha : validPublicKey a) : a ∉ requiredSpecials := by
  simp only [requiredSpecials, mem_cons, not_mem_nil, or_false]
  rintro (rfl | rfl | rfl | rfl | rfl) <;> exact absurd ha (by decide)

theorem SameCore.putAccount (ha : validPublicKey a) : SameCore s (s.entryPutRaw a v) :=
  .put fun heq => not_required ha (heq ▸ by decide +kernel)

theorem SameCore.erase (ha : validPublicKey a) : SameCore s (s.erase a) := by
  have hne {k : Account} (hk : k ∈ requiredSpecials) : k ≠ a := fun heq => not_required ha (heq ▸ hk)
  refine ⟨fun k hk hc => ?_, ?_, rfl⟩
  · rw [Std.ExtTreeMap.contains_eq_isSome_getElem?] at hc ⊢
    rw [getElem?_erase, if_neg (hne hk)]
    exact hc
  · rw [entryGetRaw_erase, if_neg (hne (by decide +kernel))]

theorem valid_of_mem_accounts (h : a ∈ s.accounts) : validPublicKey a := ((mem_accounts s).1 h).1

theorem SameCore.deterministicIndexSet (index : BitVec 32) :
    SameCore s (s.deterministicIndexSet index) := .put (by decide)

theorem SameCore.seedSet (prv : RawKey) : SameCore s (s.seedSet c prv) := by
  refine (SameCore.put (by decide)).trans (.trans (.foldl (fun s a ha => ?_) _)
    (.deterministicIndexSet 0))
  split
  · exact .erase (valid_of_mem_accounts ha)
  · exact .refl s

theorem SameCore.upgradeV1V2 : SameCore s (s.upgradeV1V2 c) := by
  refine (SameCore.foldl (fun s a ha => ?_) s).trans (.put (by decide))
  have ha := valid_of_mem_accounts ha
  unfold upgradeV1V2Entry
  dsimp only
  split
  · -- what is inserted belongs to the account itself
    split
    · rename_i hpub
      exact .putAccount (by rw [hpub]; exact ha)
    · split
      · rename_i hpub
        exact .putAccount (by rw [hpub]; exact ha)
      · exact .refl s
  · exact .refl s

theorem SameCore.upgradeV2V3 (seed : RawKey) : SameCore s (s.upgradeV2V3 c seed) :=
  (SameCore.seedSet seed).trans ((SameCore.put (by decide)).trans (.put (by decide)))

theorem SameCore.upgradeV3V4 : SameCore s (s.upgradeV3V4 c) := by
  refine (SameCore.put (by decide)).trans ((SameCore.put (by decide)).trans
    (.foldl (fun s a ha => ?_) _))
  have ha := valid_of_mem_accounts ha
  unfold upgradeV3V4Entry
  dsimp only
  split
  · exact (SameCore.erase ha).trans (.putAccount ha)
  · exact .refl s

theorem SameCore.upgrade (seed : RawKey) : SameCore s (s.upgrade c seed) := by
  unfold WalletStore.upgrade
  split
  · exact SameCore.upgradeV1V2.trans ((SameCore.upgradeV2V3 seed).trans .upgradeV3V4)
  · exact (SameCore.upgradeV2V3 seed).trans .upgradeV3V4
  · exact .upgradeV3V4
  · exact .refl s

theorem SameCore.attemptPassword (password : Text) (seed : RawKey) :
    SameCore s (s.attemptPassword c password seed).2 := by
  have hpw : SameCore s { s with password := s.password.valueSet (s.deriveKey c password) } :=
    ⟨fun _ _ h => h, rfl, rfl⟩
  unfold WalletStore.attemptPassword
  dsimp only
  split
  · exact hpw.trans (.upgrade seed)
  · exact hpw

theorem Intact.rekey (h : s.Intact) (password : Text) : (s.rekey c password).2.Intact := by
  unfold WalletStore.rekey
  split
  · refine ⟨fun k hk => contains_put (h.required k hk), ?_⟩
    rw [entryGetRaw_put, if_pos rfl]
    exact Fan.value_valueSet _ _
  · exact h

theorem contains_put_self (a : Account) : (s.entryPutRaw a v).entries.contains a := by
  rw [Std.ExtTreeMap.contains_eq_isSome_getElem?, getElem?_put, if_pos rfl]
  rfl

theorem required_fill (s : WalletStore) (random : Random) (rep : Account) :
    ∀ k ∈ requiredSpecials, (s.fill c random rep).entries.contains k := by
  intro k hk
  refine contains_put ((SameCore.seedSet random.seed).required k hk ?_)
  simp only [requiredSpecials, mem_cons, not_mem_nil, or_false] at hk
  rcases hk with rfl | rfl | rfl | rfl | rfl
  · exact contains_put (contains_put (contains_put (contains_put (contains_put_self _))))
  · exact contains_put (contains_put (contains_put_self _))
  · exact contains_put (contains_put (contains_put (contains_put_self _)))
  · exact contains_put (contains_put_self _)
  · exact contains_put_self _

theorem intact_new {entries : Entries} (random : Random) (rep : Account)
    (h : entries.contains versionSpecial → ∀ k ∈ requiredSpecials, entries.contains k) :
    (new c entries random rep).Intact := by
  refine ⟨?_, Fan.value_valueSet _ _⟩
  unfold new
  dsimp only
  split
  · rename_i hver
    exact h hver
  · exact required_fill _ random rep

/-- The event puts and erases accounts only, not special entries. -/
def Event.OnAccounts (c : Crypto) (s : WalletStore) : Event → Prop
  | .insertAdhoc prv => validPublicKey (c.pubKey prv)
  | .deterministicInsert => ∀ index, validPublicKey (c.pubKey (s.deterministicKey c index))
  | .deterministicInsertAt index => validPublicKey (c.pubKey (s.deterministicKey c index))
  | .erase pub => validPublicKey pub
  | .attemptPassword .. | .rekey _ | .insertWatch _ | .reopen .. => True

theorem Intact.exec (h : t.store.Intact) {event : Event} (hok : event.OnAccounts c t.store)
    (hexec : t.exec c event = some t') : t'.store.Intact := by
  cases event with
  | attemptPassword password seed =>
    cases hexec
    exact h.of_core (.attemptPassword password seed)
  | rekey password =>
    cases hexec
    exact h.rekey password
  | insertAdhoc prv | deterministicInsertAt index =>
    cases hexec
    exact h.of_core (.putAccount hok)
  | insertWatch pub =>
    cases hexec
    unfold WalletStore.insertWatch
    split
    · rename_i hpub
      exact h.of_core (.putAccount hpub)
    · exact h
  | deterministicInsert =>
    obtain ⟨index, -, hexec⟩ := Option.bind_eq_some_iff.1 hexec
    obtain ⟨⟨result, s'⟩, hins, hexec⟩ := Option.bind_eq_some_iff.1 hexec
    cases hexec
    obtain ⟨index', -, hins⟩ := Option.bind_eq_some_iff.1 hins
    cases hins
    exact h.of_core ((SameCore.putAccount (hok index')).trans (.deterministicIndexSet _))
  | erase pub =>
    cases hexec
    exact h.of_core (.erase hok)
  | reopen random rep =>
    cases hexec
    exact intact_new random rep fun _ => h.required

theorem intact_of_run (h : t.store.Intact)
    (hrun : Reaches (Tracked.Step c) (fun t event => event.OnAccounts c t.store) t t') :
    t'.store.Intact :=
  hrun.invariant (I := fun t => t.store.Intact) h fun _ _ _ h hok hstep => h.exec hok hstep

/-- A wallet at the current version is written and loaded again. A password unlocks the new store
exactly if it unlocks the old one, and then both have the same accounts and give out the same keys.
So does the old store as it is, if the password is the one it has in memory. -/
theorem backup_roundtrip (h : s.Intact) (hver : s.version = versionCurrent) (random : Random) :
    ∃ t, ofJson (some s.serializeJson) random = some (false, t) ∧ ∀ password seed,
      (t.attemptPassword c password seed).1 = (s.attemptPassword c password seed).1 ∧
      (t.attemptPassword c password seed).2.accounts = s.accounts ∧
      (s.attemptPassword c password seed).2.accounts = s.accounts ∧
      (∀ pub g, (t.attemptPassword c password seed).2.fetch c pub g =
        (s.attemptPassword c password seed).2.fetch c pub g) ∧
      (s.password.value = s.deriveKey c password →
        (t.attemptPassword c password seed).1 = !s.validPassword c ∧
        ∀ pub g, (t.attemptPassword c password seed).2.fetch c pub g = s.fetch c pub g) := by
  obtain ⟨t, ht, hintact, hents⟩ := ofJson_serializeJson h random
  refine ⟨t, ht, fun password seed => ?_⟩
  have hkeys (k : Account) : (t.entryGetRaw k).key = (s.entryGetRaw k).key := by
    unfold entryGetRaw
    rw [hents, Std.ExtTreeMap.getElem?_map]
    cases s.entries[k]? <;> rfl
  have hmem : t.walletKeyMem.value = s.walletKeyMem.value := by
    rw [hintact.memory, h.memory, hkeys]
  have hver' : t.version = versionCurrent := by
    unfold version at hver ⊢
    rw [hkeys]
    exact hver
  have hderive : t.deriveKey c password = s.deriveKey c password := by
    unfold deriveKey salt
    rw [hkeys]
  rw [attemptPassword_eq hver', attemptPassword_eq hver, hderive]
  have haccs : t.accounts = s.accounts := by
    unfold accounts
    rw [hents, Std.ExtTreeMap.keys_map]
  have hatt (pub : Account) (g : RawKey) :=
    fetch_congr { t with password := t.password.valueSet (s.deriveKey c password) }
      { s with password := s.password.valueSet (s.deriveKey c password) } c hkeys
      (by rw [Fan.value_valueSet, Fan.value_valueSet]) hmem pub g
  refine ⟨congrArg not (hatt 0 0).1, haccs, rfl, fun pub g => (hatt pub g).2, fun hpw => ?_⟩
  have hnow (pub : Account) (g : RawKey) :=
    fetch_congr { t with password := t.password.valueSet (s.deriveKey c password) } s c hkeys
      (by rw [Fan.value_valueSet, hpw]) hmem pub g
  exact ⟨congrArg not (hnow 0 0).1, fun pub g => (hnow pub g).2⟩

/-- A wallet can be backed up after any run of operations on accounts, upgrades included: what is
written is loaded without an error, entry by entry. -/
theorem run_loads {entries : Entries} {random : Random} {rep : Account} {held : Account → Option RawKey}
    (h : entries.contains versionSpecial → ∀ k ∈ requiredSpecials, entries.contains k)
    (hrun : Reaches (Tracked.Step c) (fun t event => event.OnAccounts c t.store)
      ⟨new c entries random rep, held⟩ t) (random' : Random) :
    ∃ s, ofJson (some t.store.serializeJson) random' = some (false, s) ∧
      s.entries = t.store.entries.map fun _ v => ⟨v.key, 0⟩ := by
  have hintact := intact_of_run (intact_new random rep h) hrun
  obtain ⟨s, hs, -, hents⟩ := ofJson_serializeJson hintact random'
  exact ⟨s, hs, hents⟩

end WalletStore

open WalletStore in
theorem run_loads_rekey :
    ∃ s, ofJson (some (wallet.rekey crypto ['x']).2.serializeJson) random = some (false, s) := by
  have hrun : Reaches (Tracked.Step crypto) (fun t event => event.OnAccounts crypto t.store)
      ⟨wallet, fun _ => none⟩ ⟨(wallet.rekey crypto ['x']).2, fun _ => none⟩ :=
    .tail (a := .rekey ['x']) .refl trivial rfl
  obtain ⟨s, hs, -⟩ := run_loads (fun h => absurd h (by decide +kernel)) hrun random
  dsimp only at hs
  exact ⟨s, hs⟩

open WalletStore in
/-- A new wallet gets a key and a password and is written and loaded again. -/
theorem backup_roundtrip_rekey : ∃ t, ofJson
      (some (walletLocked ['x']).serializeJson) random = some (false, t) ∧
    (t.attemptPassword crypto ['x'] 0).1 = false ∧
    (t.attemptPassword crypto ['x'] 0).2.fetch crypto 1005 0 = (false, 5) := by
  have hintact : (walletLocked ['x']).Intact := by
    refine Intact.rekey (Intact.of_core ?_ (.putAccount (by decide +kernel))) ['x']
    exact intact_new random 11 fun h => absurd h (by decide +kernel)
  obtain ⟨t, ht, h⟩ := backup_roundtrip (c := crypto) hintact (by decide +kernel) random
  obtain ⟨herr, -, -, hfet, -⟩ := h ['x'] 0
  refine ⟨t, ht, herr.trans (by decide +kernel), (hfet 1005 0).trans (by decide +kernel)⟩

end Futurehead
