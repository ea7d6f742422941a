import Mathlib.Data.Nat.Digits.Lemmas
import Futurehead.Wallet.Hex

/-!
# Account texts (`futurehead/lib/numbers`, `public_key`)

An account is written as `fpsc_` and sixty digits of five bits. The digits stand for the key and
forty further bits that `blake2b` computes from it. The sixty digits have four bits more than that,
so the first digit is zero or one, and the reader looks at that character alone before it reads the
others.
-/

namespace Futurehead

open List Option

/-! ## The code -/

def accountLookup : Text := "13456789abcdefghijkmnopqrstuwxyz".toList

/-- The digits in the order of the characters, from 0x30 on. -/
def accountReverse : Text :=
  "~0~1234567~~~~~~~~~~~~~~~~~~~~~~~~~~~~~~~~~~~~~~~89:;<=>?@AB~CDEFGHIJK~LMNO~~~~~".toList

def accountEncode (value : Nat) : Char := accountLookup.getD value '~'

/-- `account_decode`. A tilde is kept as it is. -/
def accountDecode (value : Char) : Nat :=
  let result := accountReverse.getD (value.toNat - 0x30) '~'
  if result ≠ '~' then result.toNat - 0x30 else result.toNat

/-- The loop of `encode_account`, which takes the last digit first. -/
def encodeLoop : (rounds : Nat) → (number : Nat) → Text
  | 0, _ => []
  | rounds + 1, number => accountEncode (number &&& 0x1f) :: encodeLoop rounds (number >>> 5)

/-- The loop of `decode_account`. Sixty digits do not reach the 512 bits of the number. -/
def decodeLoop : Text → (number : Nat) → Option Nat
  | [], number => some number
  | character :: rest, number =>
    if character.toNat < 0x30 ∨ 0x80 ≤ character.toNat then none
    else
      let byte := accountDecode character
      if byte = '~'.toNat then none else decodeLoop rest (number <<< 5 + byte)

section

-- `blake2b` with an output of five bytes
variable (blake2b5 : Account → BitVec 40)

/-- `encode_account`, and so `to_account`. -/
def toAccount (key : Account) : Text :=
  (encodeLoop 60 (key.toNat <<< 40 ||| (blake2b5 key).toNat) ++ "_cspf".toList).reverse

/-- `to_node_id`: the first four characters are replaced. -/
def toNodeId (key : Account) : Text := "node".toList ++ (toAccount blake2b5 key).drop 4

def decodeAccount (source : Text) : Option Account :=
  match source with
  | 'f' :: 'p' :: 's' :: 'c' :: mark :: digits =>
    if (mark = '_' ∨ mark = '-') ∧ source.length = 65 ∧
        (digits.head? = some '1' ∨ digits.head? = some '3') then do
      let number ← decodeLoop digits 0
      let key := BitVec.ofNat 256 (number >>> 40)
      if number &&& 0xffffffffff = (blake2b5 key).toNat then some key else none
    else none
  | _ => none

def decodeNodeId (source : Text) : Option Account := decodeAccount blake2b5 source

end

/-! ## The two tables -/

theorem accountDecode_encode {d : Nat} (h : d < 32) :
    accountDecode (accountEncode d) = d ∧ 0x30 ≤ (accountEncode d).toNat ∧
      (accountEncode d).toNat < 0x80 := by
  have key : ∀ d : Fin 32, accountDecode (accountEncode d) = d ∧
      0x30 ≤ (accountEncode d).toNat ∧ (accountEncode d).toNat < 0x80 := by decide
  exact key ⟨d, h⟩

theorem accountEncode_decode {c : Char} (hlo : 0x30 ≤ c.toNat) (hhi : c.toNat < 0x80)
    (hne : accountDecode c ≠ '~'.toNat) : accountDecode c < 32 ∧ accountEncode (accountDecode c) = c := by
  have key : ∀ i : Fin 80, accountDecode (Char.ofNat (0x30 + i)) ≠ '~'.toNat →
      accountDecode (Char.ofNat (0x30 + i)) < 32 ∧
        accountEncode (accountDecode (Char.ofNat (0x30 + i))) = Char.ofNat (0x30 + i) := by decide +kernel
  have hc : Char.ofNat (0x30 + (c.toNat - 0x30)) = c := by
    rw [Nat.add_sub_cancel' hlo, Char.ofNat_toNat]
  have := key ⟨c.toNat - 0x30, by omega⟩
  rw [hc] at this
  exact this hne

/-! ## Digits -/

def FiveBits (ds : List Nat) : Prop := ∀ d ∈ ds, d < 32

theorem encodeLoop_eq (rounds number : Nat) :
    ∃ ds, encodeLoop rounds number = ds.map accountEncode ∧ ds.length = rounds ∧ FiveBits ds ∧
      Nat.ofDigits 32 ds = number % 32 ^ rounds := by
  induction rounds generalizing number with
  | zero => exact ⟨[], rfl, rfl, nofun, (Nat.mod_one _).symm⟩
  | succ rounds ih =>
    obtain ⟨ds, htext, hlength, hdig, hval⟩ := ih (number >>> 5)
    have hlast : number &&& 0x1f = number % 32 := Nat.and_two_pow_sub_one_eq_mod number 5
    have hshift : number >>> 5 = number / 32 := Nat.shiftRight_eq_div_pow number 5
    refine ⟨number % 32 :: ds, ?_, by rw [length_cons, hlength], ?_, ?_⟩
    · rw [encodeLoop, htext, hlast, map_cons]
    · exact forall_mem_cons.2 ⟨Nat.mod_lt _ (by omega), hdig⟩
    · rw [Nat.ofDigits_cons, hval, hshift, Nat.pow_succ', Nat.mod_mul]

theorem decodeLoop_eq_some {text : Text} {number result : Nat} :
    decodeLoop text number = some result ↔
      ∃ ds, text = ds.map accountEncode ∧ FiveBits ds ∧
        result = Nat.ofDigits 32 (ds.reverse ++ [number]) := by
  induction text generalizing number with
  | nil =>
    rw [decodeLoop]
    constructor
    · rintro ⟨⟩
      exact ⟨[], rfl, nofun, by simp⟩
    · rintro ⟨ds, htext, -, rfl⟩
      rw [map_eq_nil_iff.1 htext.symm]
      simp
  | cons c text ih =>
    rw [decodeLoop]
    have hval (ds : List Nat) (d : Nat) :
        Nat.ofDigits 32 (ds.reverse ++ [number <<< 5 + d]) =
          Nat.ofDigits 32 ((d :: ds).reverse ++ [number]) := by
      rw [reverse_cons, Nat.ofDigits_append, Nat.ofDigits_append, Nat.ofDigits_append,
        length_append, Nat.ofDigits_singleton, Nat.ofDigits_singleton, Nat.ofDigits_singleton,
        length_singleton, Nat.shiftLeft_eq]
      ring
    constructor
    · intro h
      split at h
      · cases h
      · rename_i hrange
        obtain ⟨hlo, hhi⟩ : 0x30 ≤ c.toNat ∧ c.toNat < 0x80 := by omega
        dsimp only at h
        split at h
        · cases h
        · rename_i hne
          obtain ⟨hlt, hc⟩ := accountEncode_decode hlo hhi hne
          obtain ⟨ds, rfl, hdig, rfl⟩ := ih.1 h
          refine ⟨accountDecode c :: ds, by rw [map_cons, hc],
            forall_mem_cons.2 ⟨hlt, hdig⟩, hval ds _⟩
    · rintro ⟨_ | ⟨d, ds⟩, htext, hdig, rfl⟩
      · cases htext
      · obtain ⟨rfl, rfl⟩ := List.cons.inj htext
        obtain ⟨hd, hdig⟩ := forall_mem_cons.1 hdig
        obtain ⟨hdecode, hlo, hhi⟩ := accountDecode_encode hd
        have htilde : '~'.toNat = 126 := rfl
        rw [if_neg (by omega)]
        dsimp only
        rw [hdecode, if_neg (by omega)]
        exact ih.2 ⟨ds, rfl, hdig, (hval ds d).symm⟩

/-! ## Accounts -/

section

variable {blake2b5 : Account → BitVec 40} {key : Account} {text : Text}

/-- The number that the digits of an account stand for. -/
def accountNumber (blake2b5 : Account → BitVec 40) (key : Account) : Nat :=
  key.toNat * 2 ^ 40 + (blake2b5 key).toNat

theorem accountNumber_lt : accountNumber blake2b5 key < 2 * 32 ^ 59 := by
  have hkey := key.isLt
  have hchk := (blake2b5 key).isLt
  unfold accountNumber
  omega

theorem head_lt_two_iff {d : Nat} {ds : List Nat} (hlength : ds.length = 59) (hdig : FiveBits ds) :
    d < 2 ↔ Nat.ofDigits 32 (d :: ds).reverse < 2 * 32 ^ 59 := by
  have hlt : Nat.ofDigits 32 ds.reverse < 32 ^ 59 := by
    rw [← hlength, ← length_reverse]
    exact Nat.ofDigits_lt_base_pow_length (by omega) fun d hd => hdig d (mem_reverse.1 hd)
  rw [reverse_cons, Nat.ofDigits_append, length_reverse, hlength, Nat.ofDigits_singleton]
  omega

/-- The digits `ds` are those of the account. -/
structure DigitsOf (blake2b5 : Account → BitVec 40) (key : Account) (ds : List Nat) : Prop where
  length : ds.length = 60
  fiveBits : FiveBits ds
  value : Nat.ofDigits 32 ds.reverse = accountNumber blake2b5 key

theorem DigitsOf.unique {ds es : List Nat} (h : DigitsOf blake2b5 key ds)
    (h' : DigitsOf blake2b5 key es) : ds = es := by
  have heq : ds.reverse = es.reverse := Nat.ofDigits_inj_of_len_eq (by omega)
    (by rw [length_reverse, length_reverse, h.length, h'.length])
    (fun d hd => h.fiveBits d (mem_reverse.1 hd))
    (fun d hd => h'.fiveBits d (mem_reverse.1 hd)) (h.value.trans h'.value.symm)
  exact reverse_injective heq

theorem decodeAccount_eq_some : decodeAccount blake2b5 text = some key ↔
    ∃ mark ds, text = "fpsc".toList ++ mark :: ds.map accountEncode ∧ (mark = '_' ∨ mark = '-') ∧
      DigitsOf blake2b5 key ds := by
  have hhead (d : Nat) (ds : List Nat) (hd : d < 32) :
      (((d :: ds).map accountEncode).head? = some '1' ∨
        ((d :: ds).map accountEncode).head? = some '3') ↔ d < 2 := by
    have key : ∀ d : Fin 32, (accountEncode d = '1' ∨ accountEncode d = '3') ↔ d.1 < 2 := by decide
    simpa using key ⟨d, hd⟩
  have hspl (number : Nat) (hlt : number < 2 * 32 ^ 59) (key : Account) :
      (BitVec.ofNat 256 (number >>> 40) = key ∧ number &&& 0xffffffffff = (blake2b5 key).toNat) ↔
        number = accountNumber blake2b5 key := by
    have hshift : number >>> 40 = number / 2 ^ 40 := Nat.shiftRight_eq_div_pow number 40
    have hlow : number &&& 0xffffffffff = number % 2 ^ 40 := Nat.and_two_pow_sub_one_eq_mod number 40
    have hchk := (blake2b5 key).isLt
    have hkey := key.isLt
    rw [hshift, hlow, ← BitVec.toNat_inj, BitVec.toNat_ofNat, accountNumber]
    omega
  constructor
  · intro h
    unfold decodeAccount at h
    split at h
    · rename_i mark digits
      split at h
      · rename_i hcond
        obtain ⟨hmark, hlength, hfst⟩ := hcond
        obtain ⟨number, hnum, h⟩ := bind_eq_some_iff.1 h
        obtain ⟨ds, rfl, hdig, rfl⟩ := decodeLoop_eq_some.1 hnum
        rw [Nat.ofDigits_append_zero] at h
        have hlen : ds.length = 60 := by simpa using hlength
        obtain ⟨d, ds, rfl⟩ : ∃ d es, ds = d :: es := exists_cons_of_length_eq_add_one hlen
        obtain ⟨hd, htail⟩ := forall_mem_cons.1 hdig
        have hlt := (head_lt_two_iff (by simpa using hlen) htail).1 ((hhead d ds hd).1 hfst)
        dsimp only at h
        split at h
        · rename_i hchk
          obtain rfl := Option.some.inj h
          exact ⟨mark, d :: ds, rfl, hmark, hlen, hdig, (hspl _ hlt _).1 ⟨rfl, hchk⟩⟩
        · cases h
      · cases h
    · cases h
  · rintro ⟨mark, ds, rfl, hmark, hdig⟩
    obtain ⟨d, ds, rfl⟩ : ∃ d es, ds = d :: es :=
      exists_cons_of_length_eq_add_one hdig.length
    obtain ⟨hd, htail⟩ := forall_mem_cons.1 hdig.fiveBits
    have hlt : Nat.ofDigits 32 (d :: ds).reverse < 2 * 32 ^ 59 := by
      rw [hdig.value]
      exact accountNumber_lt
    have hfst := (hhead d ds hd).2 ((head_lt_two_iff (by simpa using hdig.length) htail).2 hlt)
    have hnum : decodeLoop ((d :: ds).map accountEncode) 0 =
        some (Nat.ofDigits 32 (d :: ds).reverse) :=
      decodeLoop_eq_some.2 ⟨d :: ds, rfl, hdig.fiveBits, (Nat.ofDigits_append_zero _).symm⟩
    obtain ⟨hkey, hchk⟩ := (hspl _ hlt key).2 hdig.value
    change (if _ then _ else _) = _
    rw [if_pos ⟨hmark, by simpa using hdig.length, hfst⟩, hnum, bind_eq_bind,
      bind_some]
    dsimp only
    rw [hkey, if_pos hchk]

theorem toAccount_eq (blake2b5 : Account → BitVec 40) (key : Account) :
    ∃ ds, toAccount blake2b5 key = "fpsc".toList ++ '_' :: ds.map accountEncode ∧
      DigitsOf blake2b5 key ds := by
  have hnum : key.toNat <<< 40 ||| (blake2b5 key).toNat = accountNumber blake2b5 key := by
    rw [← Nat.shiftLeft_add_eq_or_of_lt (blake2b5 key).isLt, Nat.shiftLeft_eq, accountNumber]
  obtain ⟨ds, htext, hlength, hdig, hval⟩ := encodeLoop_eq 60 (accountNumber blake2b5 key)
  refine ⟨ds.reverse, ?_, by rw [length_reverse, hlength],
    fun d hd => hdig d (mem_reverse.1 hd), ?_⟩
  · rw [toAccount, hnum, htext, reverse_append, map_reverse]
    rfl
  · rw [reverse_reverse, hval, Nat.mod_eq_of_lt]
    have hlt : accountNumber blake2b5 key < 2 * 32 ^ 59 := accountNumber_lt
    omega

def dashed (text : Text) : Text := text.replace '_' '-'

theorem decodeAccount_eq_none (h : text.head? ≠ some 'f') : decodeAccount blake2b5 text = none := by
  refine eq_none_iff_forall_ne_some.2 fun key hkey => h ?_
  obtain ⟨mark, ds, rfl, -⟩ := decodeAccount_eq_some.1 hkey
  rfl

theorem toAccount_length (blake2b5 : Account → BitVec 40) (key : Account) :
    (toAccount blake2b5 key).length = 65 := by
  obtain ⟨ds, htext, hdig⟩ := toAccount_eq blake2b5 key
  rw [htext, length_append, length_cons, length_map, hdig.length]
  rfl

theorem decodeAccount_toAccount : decodeAccount blake2b5 (toAccount blake2b5 key) = some key := by
  obtain ⟨ds, htext, hdig⟩ := toAccount_eq blake2b5 key
  exact decodeAccount_eq_some.2 ⟨'_', ds, htext, .inl rfl, hdig⟩

/-- The reader accepts exactly the text of the account, also with a dash. So the text determines the
account, in the writer and in the reader. -/
theorem account_codec (blake2b5 : Account → BitVec 40) :
    (∀ text key, decodeAccount blake2b5 text = some key ↔
      text = toAccount blake2b5 key ∨ text = dashed (toAccount blake2b5 key)) ∧
    (toAccount blake2b5).Injective ∧
    (∀ key, decodeAccount blake2b5 (toAccount blake2b5 key) = some key) ∧
    ∀ text key key', (text = toAccount blake2b5 key ∨ text = dashed (toAccount blake2b5 key)) →
      (text = toAccount blake2b5 key' ∨ text = dashed (toAccount blake2b5 key')) → key = key' := by
  have hiff (text : Text) (key : Account) : decodeAccount blake2b5 text = some key ↔
      text = toAccount blake2b5 key ∨ text = dashed (toAccount blake2b5 key) := by
    obtain ⟨ds, htext, hdig⟩ := toAccount_eq blake2b5 key
    have hdashed : dashed (toAccount blake2b5 key) = "fpsc".toList ++ '-' :: ds.map accountEncode := by
      rw [htext]
      rfl
    rw [decodeAccount_eq_some, hdashed, htext]
    constructor
    · rintro ⟨mark, es, rfl, hmark, hes⟩
      rw [hes.unique hdig]
      exact hmark.imp (fun h => by rw [h]) (fun h => by rw [h])
    · rintro (rfl | rfl)
      · exact ⟨'_', ds, rfl, .inl rfl, hdig⟩
      · exact ⟨'-', ds, rfl, .inr rfl, hdig⟩
  refine ⟨hiff, fun key key' h => ?_, fun key => decodeAccount_toAccount, fun text key key' h h' => ?_⟩
  · have hkey : decodeAccount blake2b5 (toAccount blake2b5 key) = some key :=
      decodeAccount_toAccount
    rw [h, decodeAccount_toAccount] at hkey
    exact (Option.some.inj hkey).symm
  · exact Option.some.inj (((hiff text key).2 h).symm.trans ((hiff text key').2 h'))

end

end Futurehead
