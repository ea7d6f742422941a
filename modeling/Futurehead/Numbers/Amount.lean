import Mathlib.Tactic.Ring
import Futurehead.Wallet.Hex

/-!
# Amounts as decimal numbers (`uint128_union::decode_dec`)

The reading of an integer is left to the stream operator of the number type, as in `decode_hex`. It
skips white space, takes all signs and digits, and assigns them to a number that throws when a value
does not fit. A text with nothing in it leaves the number at zero, and a leading zero makes the
number octal. `decode_dec` rejects a leading zero, but not after white space and not in a fraction.
`decode_dec_exact_iff` says for which texts the reading is exact.
-/

namespace Futurehead

open List Option

variable {text int frac : Text} {c : Char} {decimal : Bool} {v : Amount} {n k : Nat}

/-! ## The code -/

/-- A character that the stream operator takes for a decimal number. -/
def isDecimal (c : Char) : Bool := isSign c || c.isDigit

/-- One more digit. The multiplication and the addition throw if the result has more than 128
bits. -/
def assignDigit (radix n : Nat) (c : Char) : Option Nat :=
  if c.isDigit ∧ c.toNat - '0'.toNat < radix ∧ radix * n + (c.toNat - '0'.toNat) < 2 ^ 128 then
    some (radix * n + (c.toNat - '0'.toNat))
  else none

/-- A leading zero makes a number octal. -/
def radixOf (text : Text) : Nat := if text.head? = some '0' then 8 else 10

/-- The assignment of a text to a checked number. No result means an exception. A sign is no digit,
and a minus sign in front, which is left out of the digits, has the number negated and throws. -/
def assignText (text : Text) : Option Nat :=
  if text.head? = some '-' then none else text.foldlM (assignDigit (radixOf text)) 0

/-- The stream operator of a number with the assignment `assign`: the number, and what is left in
the stream. -/
def extractWith (assign : Text → Option Nat) (text : Text) : Option (Nat × Text) :=
  let text := text.dropWhile isSpace
  let run := text.takeWhile isDecimal
  let rest := text.dropWhile isDecimal
  if run = [] then some (0, rest) else (assign run).map (·, rest)

/-- The stream operator of the checked number. -/
def extractDec : Text → Option (Nat × Text) := extractWith assignText

/-- `decode_dec`, with the flag that allows leading zeros. The stream has to be at its end after the
number. -/
def decodeDec (text : Text) (decimal : Bool := false) : Option Amount :=
  if 39 < text.length ∨ (1 < text.length ∧ text.head? = some '0' ∧ ¬ decimal) ∨
      text.head? = some '-' then none
  else do
    let (number, rest) ← extractDec text
    if rest = [] then some (BitVec.ofNat 128 number) else none

/-- `decode_dec` with a scale. -/
def decodeDecScaled (text : Text) (scale : Nat) : Option Amount :=
  if 40 < text.length ∨ text.head? = some '-' then none
  else if '.' ∉ text then do
    let integer ← decodeDec text
    let result := integer.toNat * scale
    if 2 ^ 128 ≤ result then none else some (BitVec.ofNat 128 result)
  else
    let integerText := text.takeWhile (· ≠ '.')
    let decimalText := (text.dropWhile (· ≠ '.')).tail
    if integerText = [] then none
    else do
      let integerPart ← decodeDec integerText
      if 2 ^ 128 ≤ integerPart.toNat * scale then none
      else if decimalText = [] then none
      else do
        let decimalPart ← decodeDec decimalText true
        let scaleLength := (Nat.toDigits 10 scale).length
        if scaleLength ≤ decimalText.length then none
        else
          let result := integerPart.toNat * scale +
            decimalPart.toNat * 10 ^ (scaleLength - decimalText.length - 1)
          if 2 ^ 128 ≤ result then none else some (BitVec.ofNat 128 result)

/-! ## Numerals -/

def IsNumeral (text : Text) : Prop := text ≠ [] ∧ ∀ c ∈ text, c.isDigit

theorem IsNumeral.of_all (hne : text ≠ []) (hall : text.all Char.isDigit) : IsNumeral text :=
  ⟨hne, all_eq_true.1 hall⟩

/-- The number that a numeral stands for. -/
abbrev numeralValue (text : Text) : Nat := Nat.ofDigitChars 10 text 0

/-- A numeral with at most `k` digits after the point, and its value times `10 ^ k`. -/
inductive ScaledNumeral (k : Nat) : Text → Nat → Prop
  | whole {int : Text} : IsNumeral int → ScaledNumeral k int (numeralValue int * 10 ^ k)
  | fraction {int frac : Text} : IsNumeral int → IsNumeral frac → frac.length ≤ k →
      ScaledNumeral k (int ++ '.' :: frac)
        (numeralValue int * 10 ^ k + numeralValue frac * 10 ^ (k - frac.length))

/-- No leading zero before the point, except in zero itself. -/
def NoLeadingZero (text : Text) : Prop := text.head? = some '0' → text.takeWhile (· ≠ '.') = ['0']

/-! ## Digits -/

section

variable {radix a : Nat}

theorem le_ofDigitChars (hradix : 1 ≤ radix) (text : Text) (a : Nat) :
    a ≤ Nat.ofDigitChars radix text a := by
  induction text generalizing a with
  | nil => exact (Nat.ofDigitChars_nil).ge
  | cons c text ih =>
    rw [Nat.ofDigitChars_cons]
    calc a ≤ radix * a := Nat.le_mul_of_pos_left a hradix
      _ ≤ radix * a + (c.toNat - '0'.toNat) := Nat.le_add_right _ _
      _ ≤ _ := ih _

theorem foldlM_assignDigit (hradix : 1 ≤ radix) (ha : a < 2 ^ 128) :
    text.foldlM (assignDigit radix) a = some n ↔
      (∀ c ∈ text, c.isDigit ∧ c.toNat - '0'.toNat < radix) ∧ n = Nat.ofDigitChars radix text a ∧
        n < 2 ^ 128 := by
  induction text generalizing a with
  | nil =>
    rw [foldlM_nil, Nat.ofDigitChars_nil]
    constructor
    · rintro ⟨⟩
      exact ⟨nofun, rfl, ha⟩
    · rintro ⟨-, rfl, -⟩
      rfl
  | cons c text ih =>
    rw [foldlM_cons, Nat.ofDigitChars_cons, forall_mem_cons, assignDigit]
    split
    · rename_i hc
      rw [bind_eq_bind, bind_some, ih hc.2.2]
      exact ⟨fun h => ⟨⟨⟨hc.1, hc.2.1⟩, h.1⟩, h.2⟩, fun h => ⟨h.1.2, h.2⟩⟩
    · rename_i hc
      refine ⟨fun h => (by cases h), fun ⟨⟨hdigit, _⟩, hn, hlt⟩ => (hc ⟨hdigit.1, hdigit.2, ?_⟩).elim⟩
      rw [hn] at hlt
      exact (le_ofDigitChars hradix text _).trans_lt hlt

theorem ofDigitChars_eight_lt {b : Nat} (h : a < b) :
    Nat.ofDigitChars 8 text a < Nat.ofDigitChars 10 text b := by
  induction text generalizing a b with
  | nil => simpa [Nat.ofDigitChars_nil] using h
  | cons c text ih =>
    rw [Nat.ofDigitChars_cons, Nat.ofDigitChars_cons]
    exact ih (by omega)

theorem radixOf_pos (text : Text) : 1 ≤ radixOf text := by
  unfold radixOf
  split <;> omega

theorem assignText_eq_some : assignText text = some n ↔
    (∀ c ∈ text, c.isDigit ∧ c.toNat - '0'.toNat < radixOf text) ∧
      n = Nat.ofDigitChars (radixOf text) text 0 ∧ n < 2 ^ 128 := by
  unfold assignText
  split
  · rename_i hminus
    refine ⟨fun h => (by cases h), fun ⟨hall, _⟩ => ?_⟩
    have := (hall '-' (mem_of_mem_head? hminus)).1
    exact absurd this (by decide)
  · exact foldlM_assignDigit (radixOf_pos text) (by decide)

theorem isDecimal_of_isDigit (h : c.isDigit) : isDecimal c := by
  rw [isDecimal, h, Bool.or_true]

theorem extractWith_eq_some {assign : Text → Option Nat} (hnil : assign [] = some 0)
    (hdecimal : ∀ {t m}, assign t = some m → ∀ c ∈ t, isDecimal c) :
    extractWith assign text = some (n, []) ↔ assign (text.dropWhile isSpace) = some n := by
  unfold extractWith
  generalize text.dropWhile isSpace = t
  dsimp only
  by_cases hall : ∀ c ∈ t, isDecimal c
  · rw [takeWhile_eq_self_iff.2 hall, dropWhile_eq_nil_iff.2 hall]
    split
    · rename_i hemp
      simp [hemp, hnil]
    · simp
  · have hrest : t.dropWhile isDecimal ≠ [] := fun h => hall (dropWhile_eq_nil_iff.1 h)
    refine ⟨fun h => ?_, fun h => absurd (hdecimal h) hall⟩
    split at h
    · exact absurd (Prod.mk.inj (Option.some.inj h)).2 hrest
    · obtain ⟨_, _, h⟩ := map_eq_some_iff.1 h
      exact absurd (Prod.mk.inj h).2 hrest

theorem extractDec_eq_some :
    extractDec text = some (n, []) ↔ assignText (text.dropWhile isSpace) = some n :=
  extractWith_eq_some rfl fun h c hc => isDecimal_of_isDigit ((assignText_eq_some.1 h).1 c hc).1

/-- White space and then digits, at most 39 characters. The digits are those of `n`, in base eight
after a leading zero, and `n` fits. -/
structure Reads (text : Text) (n : Nat) : Prop where
  length : text.length ≤ 39
  digits : ∀ c ∈ text.dropWhile isSpace,
    c.isDigit ∧ c.toNat - '0'.toNat < radixOf (text.dropWhile isSpace)
  value : n = Nat.ofDigitChars (radixOf (text.dropWhile isSpace)) (text.dropWhile isSpace) 0
  fits : n < 2 ^ 128

theorem reads_iff :
    Reads text n ↔ text.length ≤ 39 ∧ assignText (text.dropWhile isSpace) = some n := by
  rw [assignText_eq_some]
  exact ⟨fun ⟨hl, hd, hv, hf⟩ => ⟨hl, hd, hv, hf⟩, fun ⟨hl, hd, hv, hf⟩ => ⟨hl, hd, hv, hf⟩⟩

theorem Reads.head?_ne_minus (h : Reads text n) : text.head? ≠ some '-' := by
  intro hminus
  obtain ⟨rest, rfl⟩ := head?_eq_some_iff.1 hminus
  exact absurd (h.digits '-' (by simp [isSpace])).1 (by decide)

theorem decodeDec_eq_some : decodeDec text decimal = some v ↔
    (text.head? = some '0' → decimal = true ∨ text.length ≤ 1) ∧ Reads text v.toNat := by
  unfold decodeDec
  split
  · rename_i hbad
    refine ⟨fun h => (by cases h), fun ⟨hzero, hreads⟩ => ?_⟩
    rcases hbad with hlong | ⟨hlong, hhead, hdecimal⟩ | hhead
    · exact absurd hreads.length (by omega)
    · rcases hzero hhead with h | h
      · exact absurd h hdecimal
      · omega
    · exact absurd hhead hreads.head?_ne_minus
  · rename_i hgood
    push Not at hgood
    obtain ⟨hlen, hzero, -⟩ := hgood
    rw [and_iff_right fun h => or_iff_not_imp_right.2 fun hlong => hzero (by omega) h, reads_iff,
      and_iff_right hlen]
    constructor
    · intro h
      obtain ⟨⟨number, rest⟩, hnumber, h⟩ := bind_eq_some_iff.1 h
      dsimp only at h
      split at h
      · rename_i hrest
        obtain rfl := Option.some.inj h
        rw [hrest, extractDec_eq_some] at hnumber
        rwa [BitVec.toNat_ofNat, Nat.mod_eq_of_lt (assignText_eq_some.1 hnumber).2.2]
      · cases h
    · intro h
      rw [extractDec_eq_some.2 h, bind_eq_bind, bind_some]
      dsimp only
      rw [if_pos rfl, BitVec.ofNat_toNat, BitVec.setWidth_eq]

end

/-! ## Reading a numeral -/

section

/-- A text is empty or begins with white space. -/
def Blank (text : Text) : Prop := ∀ c ∈ text.head?, isSpace c

/-- A text with a leading zero is the same number in base eight: zeros, and then one digit that is
below eight. -/
def OctalSafe (text : Text) : Prop :=
  text.head? = some '0' → ∃ j d, d < 8 ∧ text = List.replicate j '0' ++ [Nat.digitChar d]

theorem dropWhile_isSpace (h : ¬ Blank text) : text ≠ [] ∧ text.dropWhile isSpace = text := by
  unfold Blank at h
  push Not at h
  obtain ⟨c, hc, hspace⟩ := h
  obtain ⟨rest, rfl⟩ : ∃ rest, text = c :: rest := head?_eq_some_iff.1 hc
  exact ⟨cons_ne_nil _ _, dropWhile_cons_of_neg (by simpa using hspace)⟩

theorem IsNumeral.head (h : IsNumeral text) : ∃ c rest, text = c :: rest ∧ c.isDigit := by
  obtain ⟨c, rest, rfl⟩ := exists_cons_of_ne_nil h.1
  exact ⟨c, rest, rfl, h.2 c mem_cons_self⟩

theorem isSpace_of_isDigit (h : c.isDigit) : isSpace c = false := by
  simp only [Char.isDigit, Bool.and_eq_true, decide_eq_true_eq, ge_iff_le,
    UInt32.le_iff_toNat_le] at h
  have hspace : c ≠ ' ' := by
    rintro rfl
    revert h
    decide
  have hhigh : ¬ c ≤ '\r' := by
    intro hle
    have hnat : c.val.toNat ≤ 13 := hle
    have hlow : 48 ≤ c.val.toNat := h.1
    omega
  simp [isSpace, hspace, hhigh]

theorem IsNumeral.not_blank (h : IsNumeral text) : ¬ Blank text := by
  obtain ⟨c, rest, rfl, hc⟩ := h.head
  intro hblank
  exact absurd (hblank c rfl) (by simp [isSpace_of_isDigit hc])

theorem IsNumeral.no_point (h : IsNumeral text) : '.' ∉ text :=
  fun hmem => absurd (h.2 '.' hmem) (by decide)

theorem ofDigitChars_zeros (b j : Nat) (text : Text) :
    Nat.ofDigitChars b (List.replicate j '0' ++ text) 0 = Nat.ofDigitChars b text 0 := by
  rw [Nat.ofDigitChars_append, Nat.ofDigitChars_replicate_zero, Nat.mul_zero]

theorem digit_lt (h : c.isDigit) : c.toNat - '0'.toNat < 10 := by
  simp [Char.isDigit, UInt32.le_iff_toNat_le] at h ⊢
  omega

theorem digitChar_digit (h : c.isDigit) : Nat.digitChar (c.toNat - '0'.toNat) = c := by
  have hlt := digit_lt h
  have hle : '0'.toNat ≤ c.toNat := by
    simp [Char.isDigit, UInt32.le_iff_toNat_le] at h ⊢
    exact h.1
  apply Char.toNat_inj.1
  rw [Nat.toNat_digitChar_of_lt_ten hlt]
  simp at hle ⊢
  omega

theorem digit_digitChar {d : Nat} (h : d < 10) : (Nat.digitChar d).toNat - '0'.toNat = d := by
  rw [Nat.toNat_digitChar_of_lt_ten h]
  simp

theorem OctalSafe.value (h : OctalSafe text) :
    Nat.ofDigitChars (radixOf text) text 0 = numeralValue text := by
  unfold radixOf
  split
  · rename_i hzero
    obtain ⟨j, d, hd, rfl⟩ := h hzero
    rw [numeralValue, ofDigitChars_zeros, ofDigitChars_zeros]
    simp [Nat.ofDigitChars_cons]
  · rfl

theorem OctalSafe.digit_lt_radixOf (h : OctalSafe text) (hnum : IsNumeral text) :
    ∀ c ∈ text, c.toNat - '0'.toNat < radixOf text := by
  intro c hc
  unfold radixOf
  split
  · rename_i hzero
    obtain ⟨j, d, hd, rfl⟩ := h hzero
    rcases mem_append.1 hc with hc | hc
    · rw [eq_of_mem_replicate hc]
      decide
    · rw [mem_singleton.1 hc, digit_digitChar (by omega)]
      exact hd
  · exact digit_lt (hnum.2 c hc)

theorem assignText_of_safe (h : IsNumeral text) (hsafe : OctalSafe text) :
    assignText text = some n ↔ n = numeralValue text ∧ n < 2 ^ 128 := by
  rw [assignText_eq_some, hsafe.value]
  exact and_iff_right fun c hc => ⟨h.2 c hc, hsafe.digit_lt_radixOf h c hc⟩

theorem assignText_of_not_safe (h : IsNumeral text) (hsafe : ¬ OctalSafe text)
    (hasg : assignText text = some n) : n < numeralValue text := by
  obtain ⟨hzero, hform⟩ := Classical.not_imp.1 hsafe
  obtain ⟨hdig, rfl, -⟩ := assignText_eq_some.1 hasg
  rw [radixOf, if_pos hzero] at hdig ⊢
  have hzeros : text.takeWhile (· = '0') = List.replicate (text.takeWhile (· = '0')).length '0' :=
    eq_replicate_of_mem fun c hc => by simpa using mem_takeWhile_imp hc
  have hspl := takeWhile_append_dropWhile (p := (· = '0')) (l := text)
  rw [hzeros] at hspl
  generalize (text.takeWhile (· = '0')).length = j at hspl
  match hrest : text.dropWhile (· = '0') with
  | [] =>
    -- nothing but zeros
    rw [hrest, append_nil] at hspl
    cases j with
    | zero => exact absurd hspl.symm h.1
    | succ j =>
      refine absurd ⟨j, 0, by decide, ?_⟩ hform
      rw [← hspl, replicate_succ']
      rfl
  | [c] =>
    rw [hrest] at hspl
    have hc : c ∈ text := hspl ▸ mem_append_right _ mem_cons_self
    refine absurd ⟨j, _, (hdig c hc).2, ?_⟩ hform
    rw [digitChar_digit (hdig c hc).1, hspl]
  | c :: d :: rest =>
    rw [hrest] at hspl
    have hc : c ∈ text := hspl ▸ mem_append_right _ mem_cons_self
    have hne : c ≠ '0' := by
      have := head?_dropWhile_not (· = '0') text
      rw [hrest] at this
      simpa using this
    have hpos : 0 < c.toNat - '0'.toNat := by
      refine Nat.pos_of_ne_zero fun hd => hne ?_
      rw [← digitChar_digit (hdig c hc).1, hd]
      rfl
    rw [numeralValue, ← hspl, ofDigitChars_zeros, ofDigitChars_zeros]
    simp only [Nat.ofDigitChars_cons]
    exact ofDigitChars_eight_lt (by omega)

theorem decodeDec_of_not_blank (h : ¬ Blank text) :
    decodeDec text decimal = some v ↔
      text.length ≤ 39 ∧ (text.head? = some '0' → decimal = true ∨ text.length ≤ 1) ∧
        assignText text = some v.toNat := by
  rw [decodeDec_eq_some, reads_iff, (dropWhile_isSpace h).2]
  exact and_left_comm

theorem isNumeral_of_assignText (hne : text ≠ []) (h : assignText text = some n) : IsNumeral text :=
  ⟨hne, fun c hc => ((assignText_eq_some.1 h).1 c hc).1⟩

theorem octalSafe_of_short (h : text.head? = some '0' → text.length ≤ 1) : OctalSafe text := by
  intro hzero
  obtain ⟨rest, rfl⟩ := head?_eq_some_iff.1 hzero
  have hrest : rest = [] := length_eq_zero_iff.1 (by simpa using h hzero)
  exact ⟨0, 0, by decide, by rw [hrest]; rfl⟩

theorem decodeDec_integer (h : ¬ Blank text) : decodeDec text = some v ↔
    IsNumeral text ∧ text.length ≤ 39 ∧ (text.head? = some '0' → text.length ≤ 1) ∧
      v.toNat = numeralValue text := by
  rw [decodeDec_of_not_blank h]
  constructor
  · rintro ⟨hlen, hzero, hasg⟩
    have hzero : text.head? = some '0' → text.length ≤ 1 :=
      fun hhead => (hzero hhead).resolve_left (by decide)
    have hnum := isNumeral_of_assignText (dropWhile_isSpace h).1 hasg
    exact ⟨hnum, hlen, hzero, ((assignText_of_safe hnum (octalSafe_of_short hzero)).1 hasg).1⟩
  · rintro ⟨hnum, hlen, hzero, hv⟩
    exact ⟨hlen, fun hhead => .inr (hzero hhead),
      (assignText_of_safe hnum (octalSafe_of_short hzero)).2 ⟨hv, v.isLt⟩⟩

theorem decodeDec_fraction (h : ¬ Blank text) (hsafe : OctalSafe text) :
    decodeDec text true = some v ↔
      IsNumeral text ∧ text.length ≤ 39 ∧ v.toNat = numeralValue text := by
  rw [decodeDec_of_not_blank h]
  constructor
  · rintro ⟨hlen, -, hasg⟩
    have hnum := isNumeral_of_assignText (dropWhile_isSpace h).1 hasg
    exact ⟨hnum, hlen, ((assignText_of_safe hnum hsafe).1 hasg).1⟩
  · rintro ⟨hnum, hlen, hv⟩
    exact ⟨hlen, fun _ => .inl rfl, (assignText_of_safe hnum hsafe).2 ⟨hv, v.isLt⟩⟩

theorem decodeDec_fraction_lt (hnum : IsNumeral text) (hsafe : ¬ OctalSafe text)
    (h : decodeDec text true = some v) : v.toNat < numeralValue text :=
  assignText_of_not_safe hnum hsafe ((decodeDec_of_not_blank hnum.not_blank).1 h).2.2

end

/-! ## The scaled form -/

section

theorem length_toDigits_pow (k : Nat) : (Nat.toDigits 10 (10 ^ k)).length = k + 1 := by
  apply Nat.le_antisymm
  · exact (Nat.length_toDigits_le_iff (by decide) (by omega)).2
      (Nat.pow_lt_pow_right (by decide) (Nat.lt_succ_self k))
  · by_contra hlt
    cases k with
    | zero => simp at hlt
    | succ k =>
      have := (Nat.length_toDigits_le_iff (b := 10) (n := 10 ^ (k + 1)) (by decide)
        (Nat.succ_pos k)).1 (by omega)
      exact absurd this (lt_irrefl _)

theorem takeWhile_point (h : '.' ∉ int) : (int ++ '.' :: frac).takeWhile (· ≠ '.') = int := by
  rw [takeWhile_append_of_pos]
  · simp
  · intro c hc
    simpa using fun hpt : c = '.' => h (hpt ▸ hc)

theorem dropWhile_point (h : '.' ∉ int) :
    ((int ++ '.' :: frac).dropWhile (· ≠ '.')).tail = frac := by
  rw [dropWhile_append_of_pos]
  · simp
  · intro c hc
    simpa using fun hpt : c = '.' => h (hpt ▸ hc)

theorem toNat_ofNat_amount (h : n < 2 ^ 128) : (BitVec.ofNat 128 n).toNat = n := by
  rw [BitVec.toNat_ofNat, Nat.mod_eq_of_lt h]

theorem stored_iff : (n < 2 ^ 128 ∧ some (BitVec.ofNat 128 n) = some v) ↔ v.toNat = n := by
  constructor
  · rintro ⟨hlt, hv⟩
    rw [← Option.some.inj hv, toNat_ofNat_amount hlt]
  · rintro rfl
    exact ⟨v.isLt, by rw [BitVec.ofNat_toNat, BitVec.setWidth_eq]⟩

theorem decodeDecScaled_whole (h : '.' ∉ text) : decodeDecScaled text (10 ^ k) = some v ↔
    text.length ≤ 40 ∧ ∃ i, decodeDec text = some i ∧ v.toNat = i.toNat * 10 ^ k := by
  unfold decodeDecScaled
  simp only [if_pos h, ite_none_left_eq_some, bind_eq_bind, bind_eq_some_iff,
    not_or, not_lt, not_le, stored_iff]
  constructor
  · rintro ⟨⟨hlen, -⟩, hread⟩
    exact ⟨hlen, hread⟩
  · rintro ⟨hlen, i, hi, hv⟩
    exact ⟨⟨hlen, (decodeDec_eq_some.1 hi).2.head?_ne_minus⟩, i, hi, hv⟩

theorem decodeDecScaled_eq_some (h : '.' ∉ int) :
    decodeDecScaled (int ++ '.' :: frac) (10 ^ k) = some v ↔
      (int.length + frac.length < 40 ∧ int ≠ [] ∧ frac ≠ [] ∧ frac.length ≤ k) ∧
        ∃ i d, decodeDec int = some i ∧ decodeDec frac true = some d ∧
          v.toNat = i.toNat * 10 ^ k + d.toNat * 10 ^ (k - frac.length) := by
  have hmem : ¬ '.' ∉ int ++ '.' :: frac := by simp
  unfold decodeDecScaled
  simp only [if_neg hmem, takeWhile_point h, dropWhile_point h, length_toDigits_pow,
    ite_none_left_eq_some, bind_eq_bind, bind_eq_some_iff, not_or, not_lt,
    not_le, stored_iff, length_append, length_cons]
  constructor
  · rintro ⟨⟨hlen, -⟩, hint, i, hi, -, hfrac, d, hd, hk, hv⟩
    rw [show k + 1 - frac.length - 1 = k - frac.length by omega] at hv
    exact ⟨⟨by omega, hint, hfrac, by omega⟩, i, d, hi, hd, hv⟩
  · rintro ⟨⟨hlen, hint, hfrac, hk⟩, i, d, hi, hd, hv⟩
    have hsmall : i.toNat * 10 ^ k < 2 ^ 128 := (Nat.le_add_right _ _).trans_lt (hv ▸ v.isLt)
    have hminus : (int ++ '.' :: frac).head? ≠ some '-' := by
      rw [head?_append_of_ne_nil _ hint]
      exact (decodeDec_eq_some.1 hi).2.head?_ne_minus
    refine ⟨⟨by omega, hminus⟩, hint, i, hi, hsmall, hfrac, d, hd, by omega, ?_⟩
    rw [show k + 1 - frac.length - 1 = k - frac.length by omega]
    exact hv

/-! ## Exactness -/

/-- What `decode_dec` accepts is a numeral that stands for the stored value, and a numeral without
leading zeros, of at most 39 characters and below `2 ^ 128` is accepted. -/
structure ExactDec (text : Text) : Prop where
  sound : ∀ v, decodeDec text = some v → IsNumeral text ∧ v.toNat = numeralValue text
  complete : IsNumeral text → NoLeadingZero text → text.length ≤ 39 → numeralValue text < 2 ^ 128 →
    (decodeDec text).isSome

/-- A numeral with value `n` that `decode_dec` with the scale `10 ^ k` has to accept. -/
structure MustAccept (k : Nat) (text : Text) (n : Nat) : Prop where
  numeral : ScaledNumeral k text n
  noLeadingZero : NoLeadingZero text
  length : text.length ≤ 40
  lt : n < 2 ^ 128

/-- The same for `decode_dec` with the scale `10 ^ k`. -/
structure ExactScaled (k : Nat) (text : Text) : Prop where
  sound : ∀ v, decodeDecScaled text (10 ^ k) = some v → ScaledNumeral k text v.toNat
  complete : ∀ n, MustAccept k text n → (decodeDecScaled text (10 ^ k)).isSome

/-- The texts that the scaled form may read wrong: the integer or the fraction is empty or begins
with white space, or the fraction is another number in base eight. -/
def Misread (text : Text) : Prop :=
  Blank text ∨ ∃ int frac, text = int ++ '.' :: frac ∧ '.' ∉ int ∧ (Blank frac ∨ ¬ OctalSafe frac)

/-- What the scaled form accepts, as a text: a whole number, or one with a point that has characters
on both sides and at most `k` after it. There is no leading zero, and the result fits. -/
inductive ScaledAccepted (k : Nat) : Text → Prop
  | whole {text : Text} {i : Nat} : '.' ∉ text → (text.head? = some '0' → text.length ≤ 1) →
      Reads text i → i * 10 ^ k < 2 ^ 128 → ScaledAccepted k text
  | fraction {int frac : Text} {i d : Nat} : '.' ∉ int → int ≠ [] → frac ≠ [] →
      int.length + frac.length < 40 → frac.length ≤ k →
      (int.head? = some '0' → int.length ≤ 1) → Reads int i → Reads frac d →
      i * 10 ^ k + d * 10 ^ (k - frac.length) < 2 ^ 128 → ScaledAccepted k (int ++ '.' :: frac)

theorem Reads.decodeDec (h : Reads text n) (hzero : text.head? = some '0' → text.length ≤ 1) :
    decodeDec text = some (BitVec.ofNat 128 n) :=
  decodeDec_eq_some.2
    ⟨fun hhead => .inr (hzero hhead), (toNat_ofNat_amount h.fits).symm ▸ h⟩

theorem reads_of_decodeDec (h : decodeDec text = some v) :
    (text.head? = some '0' → text.length ≤ 1) ∧ Reads text v.toNat := by
  obtain ⟨hzero, hreads⟩ := decodeDec_eq_some.1 h
  exact ⟨fun hhead => (hzero hhead).resolve_left (by decide), hreads⟩

theorem isSome_decodeDecScaled : (decodeDecScaled text (10 ^ k)).isSome ↔ ScaledAccepted k text := by
  constructor
  · intro h
    obtain ⟨v, hv⟩ := isSome_iff_exists.1 h
    by_cases hpt : '.' ∈ text
    · obtain ⟨int, frac, rfl, hint⟩ := eq_append_cons_of_mem hpt
      obtain ⟨⟨hlen, hne, hne', hk⟩, i, d, hi, hd, hv⟩ := (decodeDecScaled_eq_some hint).1 hv
      obtain ⟨hzero, hreads⟩ := reads_of_decodeDec hi
      exact .fraction hint hne hne' hlen hk hzero hreads (decodeDec_eq_some.1 hd).2 (hv ▸ v.isLt)
    · obtain ⟨-, i, hi, hv⟩ := (decodeDecScaled_whole hpt).1 hv
      obtain ⟨hzero, hreads⟩ := reads_of_decodeDec hi
      exact .whole hpt hzero hreads (hv ▸ v.isLt)
  · intro h
    rw [isSome_iff_exists]
    cases h with
    | @whole _ i hpt hzero hi hlt =>
      refine ⟨BitVec.ofNat 128 (i * 10 ^ k), (decodeDecScaled_whole hpt).2
        ⟨hi.length.trans (by decide), _, hi.decodeDec hzero, ?_⟩⟩
      rw [toNat_ofNat_amount hi.fits, toNat_ofNat_amount hlt]
    | @fraction int frac i d hint hne hne' hlen hk hzero hi hd hlt =>
      have hfrac : decodeDec frac true = some (BitVec.ofNat 128 d) :=
        decodeDec_eq_some.2 ⟨fun _ => .inl rfl, (toNat_ofNat_amount hd.fits).symm ▸ hd⟩
      refine ⟨BitVec.ofNat 128 (i * 10 ^ k + d * 10 ^ (k - frac.length)),
        (decodeDecScaled_eq_some hint).2
          ⟨⟨hlen, hne, hne', hk⟩, _, _, hi.decodeDec hzero, hfrac, ?_⟩⟩
      rw [toNat_ofNat_amount hi.fits, toNat_ofNat_amount hd.fits, toNat_ofNat_amount hlt]

theorem IsNumeral.noLeadingZero (h : IsNumeral text) :
    NoLeadingZero text ↔ (text.head? = some '0' → text = ['0']) := by
  have htake : text.takeWhile (· ≠ '.') = text := by
    refine takeWhile_eq_self_iff.2 fun c hc => ?_
    simpa using fun hpt : c = '.' => h.no_point (hpt ▸ hc)
  rw [NoLeadingZero, htake]

theorem exactDec_of_not_blank (h : ¬ Blank text) : ExactDec text where
  sound v hv := by
    obtain ⟨hnum, -, -, hval⟩ := (decodeDec_integer h).1 hv
    exact ⟨hnum, hval⟩
  complete hnum hzero hlen hlt := by
    refine isSome_iff_exists.2 ⟨BitVec.ofNat 128 (numeralValue text), ?_⟩
    refine (decodeDec_integer h).2 ⟨hnum, hlen, fun hhead => ?_, ?_⟩
    · rw [hnum.noLeadingZero.1 hzero hhead]
      exact le_rfl
    · exact toNat_ofNat_amount hlt

theorem Blank.head?_ne_zero (h : Blank text) : text.head? ≠ some '0' :=
  fun hhead => absurd (h '0' hhead) (by decide)

theorem exactDec_iff (text : Text) : ExactDec text ↔ ¬ (Blank text ∧ ∃ n, Reads text n) := by
  constructor
  · rintro hexact ⟨hblank, n, hreads⟩
    have hread := hreads.decodeDec fun hhead => absurd hhead hblank.head?_ne_zero
    exact (hexact.sound _ hread).1.not_blank hblank
  · intro h
    by_cases hblank : Blank text
    · exact ⟨fun v hv => absurd ⟨hblank, _, (reads_of_decodeDec hv).2⟩ h,
        fun hnum => absurd hblank hnum.not_blank⟩
    · exact exactDec_of_not_blank hblank

theorem ScaledNumeral.not_blank (h : ScaledNumeral k text n) : ¬ Blank text := by
  cases h with
  | whole hint => exact hint.not_blank
  | fraction hint =>
    rw [Blank, head?_append_of_ne_nil _ hint.1]
    exact hint.not_blank

theorem ScaledNumeral.whole_inv (h : ScaledNumeral k text n) (hpt : '.' ∉ text) :
    IsNumeral text ∧ n = numeralValue text * 10 ^ k := by
  cases h with
  | whole hint => exact ⟨hint, rfl⟩
  | fraction => exact absurd (mem_append_right _ mem_cons_self) hpt

theorem ScaledNumeral.fraction_inv (h : ScaledNumeral k (int ++ '.' :: frac) n)
    (hpt : '.' ∉ int) : IsNumeral int ∧ IsNumeral frac ∧ frac.length ≤ k ∧
      n = numeralValue int * 10 ^ k + numeralValue frac * 10 ^ (k - frac.length) := by
  generalize htext : int ++ '.' :: frac = text at h
  cases h with
  | whole hint => exact absurd (htext ▸ mem_append_right _ mem_cons_self) hint.no_point
  | fraction hint' hfrac' hk =>
    have hint := congrArg (List.takeWhile (· ≠ '.')) htext
    have hfrac := congrArg (fun t => (List.dropWhile (· ≠ '.') t).tail) htext
    simp only [takeWhile_point hpt, takeWhile_point hint'.no_point] at hint
    simp only [dropWhile_point hpt, dropWhile_point hint'.no_point] at hfrac
    subst hint hfrac
    exact ⟨hint', hfrac', hk, rfl⟩

theorem ScaledNumeral.unique {n' : Nat} (h : ScaledNumeral k text n) (h' : ScaledNumeral k text n') :
    n = n' := by
  cases h with
  | whole hint => exact (h'.whole_inv hint.no_point).2.symm
  | fraction hint => exact (h'.fraction_inv hint.no_point).2.2.2.symm

theorem length_le_of_lt (h : IsNumeral text) (hzero : text.head? = some '0' → text = ['0'])
    (hlt : numeralValue text < 2 ^ 128) : text.length ≤ 39 := by
  obtain ⟨c, rest, rfl, hc⟩ := h.head
  by_contra hlong
  have hne : c ≠ '0' := by
    rintro rfl
    rw [hzero rfl] at hlong
    exact hlong (by decide)
  have hpos : 1 ≤ c.toNat - '0'.toNat := by
    refine Nat.pos_of_ne_zero fun hd => hne ?_
    rw [← digitChar_digit hc, hd]
    rfl
  have hrest : 39 ≤ rest.length := by
    rw [length_cons] at hlong
    omega
  have : (2 : Nat) ^ 128 ≤ numeralValue (c :: rest) := by
    rw [numeralValue, Nat.ofDigitChars_cons, Nat.ofDigitChars_eq_ofDigitChars_zero]
    calc (2 : Nat) ^ 128 ≤ 10 ^ 39 := by decide
      _ ≤ 10 ^ rest.length := Nat.pow_le_pow_right (by decide) hrest
      _ ≤ 10 ^ rest.length * (10 * 0 + (c.toNat - '0'.toNat)) :=
        Nat.le_mul_of_pos_right _ (by omega)
      _ ≤ _ := Nat.le_add_right _ _
  omega

theorem exactScaled_whole (hblank : ¬ Blank text) (hpt : '.' ∉ text) : ExactScaled k text where
  sound v hv := by
    obtain ⟨-, i, hi, hv⟩ := (decodeDecScaled_whole hpt).1 hv
    obtain ⟨hnum, -, -, hval⟩ := (decodeDec_integer hblank).1 hi
    rw [hv, hval]
    exact .whole hnum
  complete n h := by
    obtain ⟨hnum, rfl⟩ := h.numeral.whole_inv hpt
    have hzero := hnum.noLeadingZero.1 h.noLeadingZero
    have hlt : numeralValue text < 2 ^ 128 :=
      (Nat.le_mul_of_pos_right _ (Nat.pow_pos (by decide))).trans_lt h.lt
    refine isSome_iff_exists.2 ⟨BitVec.ofNat 128 (numeralValue text * 10 ^ k), ?_⟩
    refine (decodeDecScaled_whole hpt).2
      ⟨h.length, BitVec.ofNat 128 (numeralValue text), (decodeDec_integer hblank).2 ?_, ?_⟩
    · refine ⟨hnum, length_le_of_lt hnum hzero hlt, fun hhead => ?_, toNat_ofNat_amount hlt⟩
      rw [hzero hhead]
      exact le_rfl
    · rw [toNat_ofNat_amount h.lt, toNat_ofNat_amount hlt]

theorem exactScaled_fraction (hblank : ¬ Blank (int ++ '.' :: frac)) (hpt : '.' ∉ int)
    (hfrac : ¬ Blank frac) (hsafe : OctalSafe frac) : ExactScaled k (int ++ '.' :: frac) where
  sound v hv := by
    obtain ⟨⟨-, hint, -, hk⟩, i, d, hi, hd, hv⟩ := (decodeDecScaled_eq_some hpt).1 hv
    have hblank : ¬ Blank int := by rwa [Blank, head?_append_of_ne_nil _ hint] at hblank
    obtain ⟨hint, -, -, hivalue⟩ := (decodeDec_integer hblank).1 hi
    obtain ⟨hfrac, -, hdvalue⟩ := (decodeDec_fraction hfrac hsafe).1 hd
    rw [hv, hivalue, hdvalue]
    exact .fraction hint hfrac hk
  complete n h := by
    obtain ⟨hint, hfracNumeral, hk, rfl⟩ := h.numeral.fraction_inv hpt
    have hlen := h.length
    rw [length_append, length_cons] at hlen
    have hzero := h.noLeadingZero
    rw [NoLeadingZero, takeWhile_point hpt, head?_append_of_ne_nil _ hint.1] at hzero
    have hi : numeralValue int < 2 ^ 128 :=
      calc numeralValue int ≤ numeralValue int * 10 ^ k :=
            Nat.le_mul_of_pos_right _ (Nat.pow_pos (by decide))
        _ ≤ _ := Nat.le_add_right _ _
        _ < 2 ^ 128 := h.lt
    have hd : numeralValue frac < 2 ^ 128 :=
      calc numeralValue frac ≤ numeralValue frac * 10 ^ (k - frac.length) :=
            Nat.le_mul_of_pos_right _ (Nat.pow_pos (by decide))
        _ ≤ _ := Nat.le_add_left _ _
        _ < 2 ^ 128 := h.lt
    have hintRead : decodeDec int = some (BitVec.ofNat 128 (numeralValue int)) := by
      refine (decodeDec_integer hint.not_blank).2
        ⟨hint, by omega, fun hhead => ?_, toNat_ofNat_amount hi⟩
      rw [hzero hhead]
      exact le_rfl
    have hfracRead : decodeDec frac true = some (BitVec.ofNat 128 (numeralValue frac)) :=
      (decodeDec_fraction hfrac hsafe).2 ⟨hfracNumeral, by omega, toNat_ofNat_amount hd⟩
    refine isSome_iff_exists.2 ⟨BitVec.ofNat 128
      (numeralValue int * 10 ^ k + numeralValue frac * 10 ^ (k - frac.length)), ?_⟩
    refine (decodeDecScaled_eq_some hpt).2
      ⟨⟨by omega, hint.1, hfracNumeral.1, hk⟩, _, _, hintRead, hfracRead, ?_⟩
    rw [toNat_ofNat_amount h.lt, toNat_ofNat_amount hi, toNat_ofNat_amount hd]

theorem exactScaled_of_not_misread (h : ¬ Misread text) : ExactScaled k text := by
  obtain ⟨hblank, hfrac⟩ := not_or.1 h
  by_cases hpt : '.' ∈ text
  · obtain ⟨int, frac, rfl, hint⟩ := eq_append_cons_of_mem hpt
    have hgood : ¬ (Blank frac ∨ ¬ OctalSafe frac) := fun hbad => hfrac ⟨int, frac, rfl, hint, hbad⟩
    push Not at hgood
    exact exactScaled_fraction hblank hint hgood.1 hgood.2
  · exact exactScaled_whole hblank hpt

theorem Misread.not_sound (h : Misread text) (hread : decodeDecScaled text (10 ^ k) = some v) :
    ¬ ScaledNumeral k text v.toNat := by
  intro hnum
  rcases h with hblank | ⟨int, frac, rfl, hpt, hbad⟩
  · exact hnum.not_blank hblank
  · obtain ⟨hint, hfrac, -, hv⟩ := hnum.fraction_inv hpt
    obtain ⟨-, i, d, hi, hd, hv'⟩ := (decodeDecScaled_eq_some hpt).1 hread
    rcases hbad with hblank | hsafe
    · exact hfrac.not_blank hblank
    · have hlt := decodeDec_fraction_lt hfrac hsafe hd
      have hivalue := ((decodeDec_integer hint.not_blank).1 hi).2.2.2
      rw [hv', hivalue] at hv
      exact absurd (Nat.eq_of_mul_eq_mul_right (Nat.pow_pos (by decide)) (Nat.add_left_cancel hv)) hlt.ne

theorem MustAccept.read_iff (h : MustAccept k text v.toNat) :
    decodeDecScaled text (10 ^ k) = some v ↔ ¬ Misread text := by
  refine ⟨fun hread hmis => hmis.not_sound hread h.numeral, fun hgood => ?_⟩
  have hexact : ExactScaled k text := exactScaled_of_not_misread hgood
  obtain ⟨w, hw⟩ := isSome_iff_exists.1 (hexact.complete _ h)
  rw [hw, BitVec.eq_of_toNat_eq ((hexact.sound w hw).unique h.numeral)]

theorem exactScaled_iff (k : Nat) (text : Text) : ExactScaled k text ↔
    ¬ (Misread text ∧ (ScaledAccepted k text ∨ ∃ n, MustAccept k text n)) := by
  constructor
  · rintro hexact ⟨hmis, hread⟩
    have hsome : (decodeDecScaled text (10 ^ k)).isSome := by
      rcases hread with hread | ⟨n, hn⟩
      · exact isSome_decodeDecScaled.2 hread
      · exact hexact.complete n hn
    obtain ⟨v, hv⟩ := isSome_iff_exists.1 hsome
    exact hmis.not_sound hv (hexact.sound v hv)
  · intro h
    by_cases hmis : Misread text
    · refine ⟨fun v hv => absurd ⟨hmis, .inl ?_⟩ h, fun n hn => absurd ⟨hmis, .inr ⟨n, hn⟩⟩ h⟩
      rw [← isSome_decodeDecScaled, hv]
      rfl
    · exact exactScaled_of_not_misread hmis

/-- The unscaled form is exact except on a text that is empty or begins with white space and goes on
with digits only. The scaled form is exact except on a text with an empty integer or fraction, with
white space in front of one, or with a fraction that is another number in base eight, if that text is
accepted or should be. -/
theorem decode_dec_exact_iff (text : Text) (k : Nat) :
    (ExactDec text ↔ ¬ (Blank text ∧ ∃ n, Reads text n)) ∧
      (ExactScaled k text ↔ ¬ (Misread text ∧ (ScaledAccepted k text ∨ ∃ n, MustAccept k text n))) :=
  ⟨exactDec_iff text, exactScaled_iff k text⟩

/-- `12` is read exactly, and `1.25` is with any scale. -/
theorem decode_dec_exact_plain :
    ExactDec "12".toList ∧ ∀ k, ExactScaled k (['1'] ++ '.' :: ['2', '5']) := by
  refine ⟨(decode_dec_exact_iff _ 0).1.2 fun h => absurd (h.1 '1' rfl) (by decide), fun k =>
    (decode_dec_exact_iff _ k).2.2 fun ⟨hmis, _⟩ => ?_⟩
  rcases hmis with hblank | ⟨int, frac, htext, hpt, hbad⟩
  · exact absurd (hblank '1' rfl) (by decide)
  · have hfrac : ((int ++ '.' :: frac).dropWhile (· ≠ '.')).tail = frac := dropWhile_point hpt
    rw [← htext] at hfrac
    obtain rfl : ['2', '5'] = frac := hfrac
    rcases hbad with hblank | hsafe
    · exact absurd (hblank '2' rfl) (by decide)
    · exact hsafe fun hzero => absurd hzero (by decide)

/-- `1.012` with the scale 1000 is read as 1010, and the empty text as zero. -/
theorem decode_dec_octal_fraction :
    (decodeDecScaled "1.012".toList (10 ^ 3) = some 1010 ∧
      ScaledNumeral 3 "1.012".toList 1012 ∧ ¬ ExactScaled 3 "1.012".toList) ∧
    decodeDec [] = some 0 ∧ ¬ ExactDec [] := by
  have hread : decodeDecScaled "1.012".toList (10 ^ 3) = some 1010 := by decide
  have hnum : ScaledNumeral 3 (['1'] ++ '.' :: ['0', '1', '2']) 1012 :=
    .fraction (.of_all (by decide) (by decide)) (.of_all (by decide) (by decide)) (by decide)
  refine ⟨⟨hread, hnum, fun h => ?_⟩, by decide, fun h => (h.sound 0 (by decide)).1.1 rfl⟩
  have hsnd : ScaledNumeral 3 (['1'] ++ '.' :: ['0', '1', '2']) 1010 := h.sound _ hread
  exact absurd (hsnd.fraction_inv (by decide)).2.2.2 (by decide)

end

end Futurehead
