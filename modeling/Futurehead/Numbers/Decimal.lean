import Futurehead.Numbers.Amount

/-!
# Decimal numbers of 256 bits (`uint256_union::decode_dec`)

Unlike an amount, the number is read into an integer that is not checked: it is reduced modulo
`2 ^ 256`, and a minus sign negates it. The only guard is the length of the text, and a text of 78
digits may stand for a number that does not fit. `decode_dec_never_wraps_iff` says which texts are
read wrong.
-/

namespace Futurehead

open List Option

/-! ## The code -/

/-- One more digit of an unchecked number. -/
def assignDigit256 (radix n : Nat) (c : Char) : Option Nat :=
  if c.isDigit ∧ c.toNat - '0'.toNat < radix then
    some ((radix * n + (c.toNat - '0'.toNat)) % 2 ^ 256)
  else none

/-- The assignment of a text to an unchecked number. -/
def assignText256 (text : Text) : Option Nat :=
  if text.head? = some '-' then
    (text.tail.foldlM (assignDigit256 (radixOf text.tail)) 0).map fun n => (2 ^ 256 - n) % 2 ^ 256
  else text.foldlM (assignDigit256 (radixOf text)) 0

/-- The stream operator of the unchecked number. -/
def extractDec256 : Text → Option (Nat × Text) := extractWith assignText256

/-- `uint256_union::decode_dec`. -/
def decodeDec256 (text : Text) : Option Uint256 :=
  if 78 < text.length ∨ (1 < text.length ∧ text.head? = some '0') ∨ text.head? = some '-' then none
  else do
    let (number, rest) ← extractDec256 text
    if rest = [] then some (BitVec.ofNat 256 number) else none

/-- `uint256_union::encode_dec`. -/
def encodeDec256 (x : Uint256) : Text := Nat.toDigits 10 x.toNat

/-! ## Digits modulo `2 ^ 256` -/

section

variable {radix a n : Nat} {text : Text}

theorem ofDigitChars_mod (radix m : Nat) (text : Text) (a : Nat) :
    Nat.ofDigitChars radix text (a % m) % m = Nat.ofDigitChars radix text a % m := by
  induction text generalizing a with
  | nil => simp [Nat.ofDigitChars_nil]
  | cons c text ih =>
    rw [Nat.ofDigitChars_cons, Nat.ofDigitChars_cons, ← ih, ← ih (radix * a + _)]
    congr 2
    simp [Nat.add_mod, Nat.mul_mod]

theorem foldlM_assignDigit256 (ha : a < 2 ^ 256) :
    text.foldlM (assignDigit256 radix) a = some n ↔
      (∀ c ∈ text, c.isDigit ∧ c.toNat - '0'.toNat < radix) ∧
        n = Nat.ofDigitChars radix text a % 2 ^ 256 := by
  induction text generalizing a with
  | nil =>
    rw [foldlM_nil, Nat.ofDigitChars_nil, Nat.mod_eq_of_lt ha]
    exact ⟨fun h => ⟨fun c hc => absurd hc not_mem_nil, (Option.some.inj h).symm⟩,
      fun h => congrArg some h.2.symm⟩
  | cons c text ih =>
    rw [foldlM_cons, Nat.ofDigitChars_cons, forall_mem_cons, assignDigit256]
    split
    · rename_i hc
      rw [bind_eq_bind, bind_some, ih (Nat.mod_lt _ (by decide)), ofDigitChars_mod]
      exact ⟨fun h => ⟨⟨hc, h.1⟩, h.2⟩, fun h => ⟨h.1.2, h.2⟩⟩
    · rename_i hc
      exact ⟨fun h => (by cases h), fun h => absurd h.1.1 hc⟩

theorem toDigits_numeralValue (h : IsNumeral text) (hzero : text.head? = some '0' → text.length ≤ 1) :
    Nat.toDigits 10 (numeralValue text) = text := by
  induction text using List.reverseRecOn with
  | nil => exact absurd rfl h.1
  | append_singleton init c ih =>
    have hc : c.isDigit := h.2 c (by simp)
    have hlt := digit_lt hc
    have hval : numeralValue (init ++ [c]) = 10 * numeralValue init + (c.toNat - '0'.toNat) := by
      simp [numeralValue, Nat.ofDigitChars, foldl_append]
    rw [hval]
    by_cases hnil : init = []
    · rw [hnil, numeralValue, Nat.ofDigitChars_nil, Nat.mul_zero, Nat.zero_add,
        Nat.toDigits_of_lt_base hlt, digitChar_digit hc]
      rfl
    · obtain ⟨d, rest, rfl⟩ := exists_cons_of_ne_nil hnil
      have hhead : d ≠ '0' := by
        rintro rfl
        exact absurd (hzero rfl) (by simp)
      have hinit := ih ⟨hnil, fun x hx => h.2 x (mem_append_left [c] hx)⟩
        fun h0 => absurd (Option.some.inj h0) hhead
      have hpos : 0 < numeralValue (d :: rest) := by
        refine Nat.pos_of_ne_zero fun h0 => hhead ?_
        rw [h0] at hinit
        exact (List.cons.inj hinit).1.symm
      rw [Nat.toDigits_of_base_le (by decide) (by omega),
        show (10 * numeralValue (d :: rest) + (c.toNat - '0'.toNat)) / 10 = numeralValue (d :: rest)
          by omega, Nat.mul_add_mod, Nat.mod_eq_of_lt hlt, hinit, digitChar_digit hc]

end

/-! ## What is accepted -/

/-- A success is a numeral whose value fits, and the value is stored. -/
structure ReadsExactly (text : Text) (x : Uint256) : Prop where
  numeral : IsNumeral text
  fits : numeralValue text < 2 ^ 256
  value : x.toNat = numeralValue text
  encode : encodeDec256 x = text

/-- The digits of what follows the white space: after a minus sign, if there is one. -/
def digits256 (text : Text) : Text :=
  let text := text.dropWhile isSpace
  if text.head? = some '-' then text.tail else text

/-- What is accepted, as a text: at most 78 characters, with neither a leading zero nor a minus sign,
and only digits after the white space and a minus sign that follows it. -/
structure Accepted256 (text : Text) : Prop where
  length : text.length ≤ 78
  zero : text.head? = some '0' → text.length ≤ 1
  minus : text.head? ≠ some '-'
  digits : ∀ c ∈ digits256 text, c.isDigit ∧ c.toNat - '0'.toNat < radixOf (digits256 text)

section

variable {text : Text} {x : Uint256} {n : Nat}

theorem isDecimal_of_assignText256 (h : assignText256 text = some n) : ∀ c ∈ text, isDecimal c := by
  unfold assignText256 at h
  split at h
  · rename_i hminus
    obtain ⟨rest, rfl⟩ := head?_eq_some_iff.1 hminus
    obtain ⟨m, hm, -⟩ := map_eq_some_iff.1 h
    have hall := ((foldlM_assignDigit256 (by decide)).1 hm).1
    rw [forall_mem_cons]
    exact ⟨by decide, fun c hc => isDecimal_of_isDigit (hall c hc).1⟩
  · have hall := ((foldlM_assignDigit256 (by decide)).1 h).1
    exact fun c hc => isDecimal_of_isDigit (hall c hc).1

theorem decodeDec256_eq_some : decodeDec256 text = some x ↔
    (text.length ≤ 78 ∧ (text.head? = some '0' → text.length ≤ 1) ∧ text.head? ≠ some '-') ∧
      ∃ n, assignText256 (text.dropWhile isSpace) = some n ∧ BitVec.ofNat 256 n = x := by
  have hguard : ¬ (78 < text.length ∨ (1 < text.length ∧ text.head? = some '0') ∨
      text.head? = some '-') ↔
      text.length ≤ 78 ∧ (text.head? = some '0' → text.length ≤ 1) ∧ text.head? ≠ some '-' := by
    rw [not_or, not_or, not_lt, not_and', not_lt]
  have hextract {n : Nat} : extractDec256 text = some (n, []) ↔
      assignText256 (text.dropWhile isSpace) = some n :=
    extractWith_eq_some rfl isDecimal_of_assignText256
  rw [decodeDec256, ite_none_left_eq_some, hguard, bind_eq_bind, bind_eq_some_iff]
  refine and_congr_right fun _ => ⟨?_, ?_⟩
  · rintro ⟨⟨n, rest⟩, hn, hx⟩
    obtain ⟨rfl, hx⟩ := ite_none_right_eq_some.1 hx
    exact ⟨n, hextract.1 hn, Option.some.inj hx⟩
  · rintro ⟨n, hn, rfl⟩
    exact ⟨(n, []), hextract.2 hn, if_pos rfl⟩

theorem isSome_decodeDec256 : (decodeDec256 text).isSome ↔ Accepted256 text := by
  have hasg : (∃ n, assignText256 (text.dropWhile isSpace) = some n) ↔
      ∀ c ∈ digits256 text, c.isDigit ∧ c.toNat - '0'.toNat < radixOf (digits256 text) := by
    unfold digits256
    generalize text.dropWhile isSpace = t
    dsimp only
    unfold assignText256
    split
    · simp [map_eq_some_iff, foldlM_assignDigit256]
    · simp [foldlM_assignDigit256]
  constructor
  · intro h
    obtain ⟨x, hx⟩ := isSome_iff_exists.1 h
    obtain ⟨⟨hlen, hzero, hminus⟩, n, hn, -⟩ := decodeDec256_eq_some.1 hx
    exact ⟨hlen, hzero, hminus, hasg.1 ⟨n, hn⟩⟩
  · rintro ⟨hlen, hzero, hminus, hdig⟩
    obtain ⟨n, hn⟩ := hasg.2 hdig
    exact isSome_iff_exists.2
      ⟨_, decodeDec256_eq_some.2 ⟨⟨hlen, hzero, hminus⟩, n, hn, rfl⟩⟩

theorem decodeDec256_of_not_blank (hblank : ¬ Blank text) (h : decodeDec256 text = some x) :
    IsNumeral text ∧ (text.head? = some '0' → text.length ≤ 1) ∧
      x = BitVec.ofNat 256 (numeralValue text) := by
  obtain ⟨hne, hdrop⟩ := dropWhile_isSpace hblank
  obtain ⟨⟨-, hzero, hminus⟩, n, hasg, rfl⟩ := decodeDec256_eq_some.1 h
  rw [hdrop, assignText256, if_neg hminus] at hasg
  obtain ⟨hall, rfl⟩ := (foldlM_assignDigit256 (by decide)).1 hasg
  refine ⟨⟨hne, fun c hc => (hall c hc).1⟩, hzero, ?_⟩
  rw [(octalSafe_of_short hzero).value]
  apply BitVec.eq_of_toNat_eq
  rw [BitVec.toNat_ofNat, BitVec.toNat_ofNat, Nat.mod_mod]

/-- `decode_dec` is exact for a text except if the text is accepted and begins with white space, is
empty, or stands for a number that does not fit. -/
theorem decode_dec_never_wraps_iff (text : Text) :
    (∀ x, decodeDec256 text = some x → ReadsExactly text x) ↔
      ¬ ((Blank text ∨ 2 ^ 256 ≤ numeralValue text) ∧ Accepted256 text) := by
  constructor
  · rintro hexact ⟨hbad, haccepted⟩
    obtain ⟨x, hx⟩ := isSome_iff_exists.1 (isSome_decodeDec256.2 haccepted)
    obtain ⟨hnum, hfits, -, -⟩ := hexact x hx
    rcases hbad with hblank | hbig
    · exact hnum.not_blank hblank
    · omega
  · intro hnot x hx
    have hgood : ¬ (Blank text ∨ 2 ^ 256 ≤ numeralValue text) :=
      fun hbad => hnot ⟨hbad, isSome_decodeDec256.1 (isSome_of_mem hx)⟩
    push Not at hgood
    obtain ⟨hnum, hzero, rfl⟩ := decodeDec256_of_not_blank hgood.1 hx
    have hval : (BitVec.ofNat 256 (numeralValue text)).toNat = numeralValue text := by
      rw [BitVec.toNat_ofNat, Nat.mod_eq_of_lt hgood.2]
    refine ⟨hnum, hgood.2, hval, ?_⟩
    rw [encodeDec256, hval, toDigits_numeralValue hnum hzero]

end

/-- `120` is read as the number that it stands for. -/
theorem decode_dec_never_wraps_plain :
    decodeDec256 "120".toList = some 120 ∧ ReadsExactly "120".toList 120 := by
  have hread : decodeDec256 "120".toList = some 120 := by decide
  refine ⟨hread, (decode_dec_never_wraps_iff _).2 (fun ⟨hbad, _⟩ => ?_) 120 hread⟩
  rcases hbad with hblank | hbig
  · exact absurd (hblank '1' rfl) (by decide)
  · exact absurd hbig (by decide)

/-- The number `2 ^ 256` has 78 digits and is read as zero. -/
theorem decode_dec_wraps :
    (Nat.toDigits 10 (2 ^ 256)).length = 78 ∧ numeralValue (Nat.toDigits 10 (2 ^ 256)) = 2 ^ 256 ∧
      decodeDec256 (Nat.toDigits 10 (2 ^ 256)) = some 0 := by decide +kernel

end Futurehead
