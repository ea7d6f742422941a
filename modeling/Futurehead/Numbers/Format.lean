import Mathlib.Algebra.Order.Floor.Semifield
import Mathlib.Data.Rat.Floor
import Mathlib.Tactic.FieldSimp
import Futurehead.Numbers.Amount

/-!
# Amounts as text (`format_balance`)

The integer part is written digit by digit from the largest power of ten down, the fraction until
nothing is left or the precision is used up. A balance too small for the precision is written as
`< 0.01`. Whether it is too small is decided by a division by the scale over `10 ^ precision`, and
that divisor is zero when the precision exceeds the digits of the scale.
-/

namespace Futurehead

open List

/-! ## The code -/

/-- The loop of `format_frac`. No result means a division by zero. -/
def formatFrac : (precision reduce rem : Nat) → Option Text
  | 0, _, _ => some []
  | precision + 1, reduce, rem =>
    if 1 < reduce ∧ 0 < rem then
      let reduce := reduce / 10
      if reduce = 0 then none
      else
        let val := rem / reduce
        (formatFrac precision reduce (rem - val * reduce)).map (Nat.toDigits 10 val ++ ·)
    else some []

/-- The first loop of `format_dec`: the largest power of ten that is not above the value, and the
number of digits. -/
def largestPow10 (value pow decCount : Nat) (h : 0 < pow) : Nat × Nat :=
  if value < pow * 10 then (pow, decCount)
  else largestPow10 value (pow * 10) (decCount + 1) (by omega)
termination_by value - pow

/-- Which digits, counted from the right, are followed by a separator. -/
def emitGroup (groupings : List Int) : (decCount groupIndex groupCount : Nat) → List Bool
  | 0, _, _ => []
  | decCount + 1, groupIndex, groupCount =>
    if groupings.getD groupIndex 0 < groupCount + 1 then
      true :: emitGroup groupings decCount (min (groupIndex + 1) (groupings.length - 1)) 1
    else false :: emitGroup groupings decCount groupIndex (groupCount + 1)

/-- The last loop of `format_dec`. -/
def formatDigits (groupSep : Char) (emit : List Bool) (reduce rem decCount : Nat) : Text :=
  if 0 < reduce then
    let val := rem / reduce
    let rem := rem - val * reduce
    let decCount := decCount - 1
    Nat.toDigits 10 val ++
      ((if groupSep ≠ '\x00' ∧ emit.getD decCount false ∧ 1 < reduce then [groupSep] else []) ++
        formatDigits groupSep emit (reduce / 10) rem decCount)
  else []
termination_by reduce

/-- `format_dec`. The character zero stands for no grouping. -/
def formatDec (value : Nat) (groupSep : Char) (groupings : List Int) : Text :=
  let (largest, decCount) := largestPow10 value 1 1 (by decide)
  if 39 < decCount then []
  else
    let emit := if groupSep ≠ '\x00' then emitGroup groupings decCount 0 0 else []
    formatDigits groupSep emit largest value decCount

/-- The smallest number with the given decimals. -/
def smallestText (precision : Nat) (decimalPoint : Char) : Text :=
  (if 0 < precision then '0' :: decimalPoint :: List.replicate (precision - 1) '0' else []) ++ ['1']

/-- `format_balance`. No result means a division by zero. -/
def formatBalance (balance : Amount) (scale precision : Nat) (groupDigits : Bool)
    (thousandsSep decimalPoint : Char) (grouping : List Int) : Option Text :=
  if scale = 0 then none
  else
    let intPart := balance.toNat / scale
    let fracPart := balance.toNat % scale
    let precScale := (· / 10)^[precision] scale
    if intPart = 0 ∧ 0 < fracPart ∧ precScale = 0 then none
    else if intPart = 0 ∧ 0 < fracPart ∧ fracPart / precScale = 0 then
      some ("< ".toList ++ smallestText precision decimalPoint)
    else
      let int := formatDec intPart
        (if groupDigits ∧ 0 < grouping.length then thousandsSep else '\x00') grouping
      if 0 < precision ∧ 0 < fracPart then
        (formatFrac precision scale fracPart).map (int ++ decimalPoint :: ·)
      else some int

/-! ## Digits written -/

section

variable {m n k p q d : Nat} {text t : Text} {sep : Char}

theorem toDigits_digit (h : d < 10) : Nat.toDigits 10 d = [Nat.digitChar d] :=
  Nat.toDigits_of_lt_base h

theorem isDigit_digitChar (h : d < 10) : (Nat.digitChar d).isDigit := by
  have key : ∀ d : Fin 10, (Nat.digitChar d).isDigit := by decide
  exact key ⟨d, h⟩

theorem numeralValue_cons (h : d < 10) (t : Text) :
    numeralValue (Nat.digitChar d :: t) = d * 10 ^ t.length + numeralValue t := by
  rw [numeralValue, Nat.ofDigitChars_cons, Nat.ofDigitChars_eq_ofDigitChars_zero, digit_digitChar h]
  ring

theorem div_pow_lt (h : n < 10 ^ (m + 1)) : n / 10 ^ m < 10 :=
  Nat.div_lt_of_lt_mul (by rwa [← Nat.pow_succ])

theorem sub_div_mul (n m : Nat) : n - n / m * m = n % m := by
  rw [Nat.mul_comm, Nat.mod_eq_sub_mul_div]

theorem div_pow_split (h : q ≤ m) (n : Nat) :
    n / 10 ^ (m - q) = n / 10 ^ m * 10 ^ q + n % 10 ^ m / 10 ^ (m - q) := by
  have hpow : 10 ^ m = 10 ^ (m - q) * 10 ^ q := by rw [← Nat.pow_add, Nat.sub_add_cancel h]
  calc n / 10 ^ (m - q) = (10 ^ m * (n / 10 ^ m) + n % 10 ^ m) / 10 ^ (m - q) := by
        rw [Nat.div_add_mod]
    _ = (10 ^ (m - q) * (n / 10 ^ m * 10 ^ q) + n % 10 ^ m) / 10 ^ (m - q) := by
        nth_rewrite 1 [hpow]
        ring_nf
    _ = _ := Nat.mul_add_div (Nat.pow_pos (by decide)) _ _

theorem formatFrac_succ (hn : 0 < n) (hlt : n < 10 ^ (m + 1)) :
    formatFrac (p + 1) (10 ^ (m + 1)) n =
      (formatFrac p (10 ^ m) (n % 10 ^ m)).map (Nat.digitChar (n / 10 ^ m) :: ·) := by
  have hone : 1 < 10 ^ (m + 1) := Nat.one_lt_pow (by omega) (by decide)
  have hreduce : 10 ^ (m + 1) / 10 = 10 ^ m := by rw [Nat.pow_succ, Nat.mul_div_cancel _ (by decide)]
  have hpos : 10 ^ m ≠ 0 := Nat.pos_iff_ne_zero.1 (Nat.pow_pos (by decide))
  rw [formatFrac, if_pos ⟨hone, hn⟩]
  simp only [hreduce, if_neg hpos, sub_div_mul, toDigits_digit (div_pow_lt hlt)]
  rfl

theorem formatFrac_eq (p : Nat) (hlt : n < 10 ^ m) : ∃ t, formatFrac p (10 ^ m) n = some t ∧
    (∀ c ∈ t, c.isDigit) ∧ t.length ≤ min p m ∧
      numeralValue t * 10 ^ (min p m - t.length) = n / 10 ^ (m - min p m) ∧
        (0 < p → 0 < n → t ≠ []) := by
  induction p generalizing m n with
  | zero =>
    refine ⟨[], rfl, nofun, by simp, ?_, nofun⟩
    simpa [numeralValue] using (Nat.div_eq_of_lt hlt).symm
  | succ p ih =>
    by_cases hn : 0 < n
    · obtain ⟨m, rfl⟩ : ∃ m', m = m' + 1 :=
        Nat.exists_eq_succ_of_ne_zero (by rintro rfl; rw [Nat.pow_zero] at hlt; omega)
      obtain ⟨t, ht, hdig, hlength, hval, -⟩ :=
        ih (Nat.mod_lt n (Nat.pow_pos (by decide) : 0 < 10 ^ m))
      have hd := div_pow_lt hlt
      have hmin : min (p + 1) (m + 1) = min p m + 1 := by omega
      rw [formatFrac_succ hn hlt, ht, hmin]
      refine ⟨Nat.digitChar (n / 10 ^ m) :: t, rfl, ?_, ?_, ?_, fun _ _ => cons_ne_nil _ _⟩
      · exact forall_mem_cons.2 ⟨isDigit_digitChar hd, hdig⟩
      · rw [length_cons]
        omega
      · have hq : min p m ≤ m := Nat.min_le_right _ _
        generalize min p m = q at hlength hval hq
        have hpow : 10 ^ q = 10 ^ t.length * 10 ^ (q - t.length) := by
          rw [← Nat.pow_add, Nat.add_sub_cancel' hlength]
        rw [numeralValue_cons hd, length_cons, Nat.add_sub_add_right, Nat.add_sub_add_right,
          div_pow_split hq, ← hval, hpow]
        ring
    · obtain rfl : n = 0 := by omega
      refine ⟨[], ?_, nofun, by simp, ?_, fun _ h => absurd h (lt_irrefl 0)⟩
      · rw [formatFrac, if_neg (by simp)]
      · simp [numeralValue]

theorem formatFrac_zero (p reduce : Nat) : formatFrac p reduce 0 = some [] := by
  cases p with
  | zero => rfl
  | succ p => rw [formatFrac, if_neg (by simp)]

theorem formatFrac_single {i j : Nat} (hd : 0 < d) (hlt : d < 10) (hp : i < p) :
    formatFrac p (10 ^ (j + i + 1)) (d * 10 ^ j) =
      some (List.replicate i '0' ++ [Nat.digitChar d]) := by
  have hpos : 0 < 10 ^ j := Nat.pow_pos (by decide)
  induction i generalizing p with
  | zero =>
    obtain ⟨p, rfl⟩ := Nat.exists_eq_succ_of_ne_zero (by omega : p ≠ 0)
    have hsmall : d * 10 ^ j < 10 ^ (j + 1) := by
      rw [Nat.pow_succ, Nat.mul_comm]
      exact Nat.mul_lt_mul_of_pos_left hlt hpos
    rw [formatFrac_succ (Nat.mul_pos hd hpos) hsmall, Nat.mul_div_cancel _ hpos,
      Nat.mul_mod_left, formatFrac_zero]
    rfl
  | succ i ih =>
    obtain ⟨p, rfl⟩ := Nat.exists_eq_succ_of_ne_zero (by omega : p ≠ 0)
    have hsmall : d * 10 ^ j < 10 ^ (j + (i + 1)) := by
      calc d * 10 ^ j < 10 * 10 ^ j := Nat.mul_lt_mul_of_pos_right hlt hpos
        _ = 10 ^ (j + 1) := by ring
        _ ≤ 10 ^ (j + (i + 1)) := Nat.pow_le_pow_right (by decide) (by omega)
    have hle : 10 ^ (j + (i + 1)) ≤ 10 ^ (j + (i + 1) + 1) :=
      Nat.pow_le_pow_right (by decide) (by omega)
    rw [formatFrac_succ (Nat.mul_pos hd hpos) (by omega), Nat.div_eq_of_lt hsmall,
      Nat.mod_eq_of_lt hsmall, ← Nat.add_assoc, ih (by omega)]
    rfl

theorem largestPow10_eq {value pow c e : Nat} (h : 0 < pow) (hpow : pow = 10 ^ e) (hc : c = e + 1)
    (hle : e = 0 ∨ 10 ^ e ≤ value) : ∃ e, largestPow10 value pow c h = (10 ^ e, e + 1) ∧
      (e = 0 ∨ 10 ^ e ≤ value) ∧ value < 10 ^ (e + 1) := by
  fun_induction largestPow10 value pow c h generalizing e with
  | case1 pow c h hlt =>
    subst hpow hc
    exact ⟨e, rfl, hle, by rwa [Nat.pow_succ]⟩
  | case2 pow c h hge ih =>
    subst hpow hc
    exact ih (Nat.pow_succ 10 e).symm rfl (.inr (by rw [Nat.pow_succ]; omega))

theorem formatDigits_pow (emit : List Bool) (count : Nat) (hlt : n < 10 ^ (m + 1)) :
    formatDigits '\x00' emit (10 ^ m) n count =
      Nat.digitChar (n / 10 ^ m) :: formatDigits '\x00' emit (10 ^ m / 10) (n % 10 ^ m) (count - 1) := by
  rw [formatDigits, if_pos (Nat.pow_pos (by decide))]
  simp only [sub_div_mul, toDigits_digit (div_pow_lt hlt)]
  rfl

theorem formatDigits_spec (emit : List Bool) (count : Nat) (hlt : n < 10 ^ (m + 1)) :
    (∀ c ∈ formatDigits '\x00' emit (10 ^ m) n count, c.isDigit) ∧
      (formatDigits '\x00' emit (10 ^ m) n count).length = m + 1 ∧
        numeralValue (formatDigits '\x00' emit (10 ^ m) n count) = n := by
  induction m generalizing n count with
  | zero =>
    have hnil : formatDigits '\x00' emit (10 ^ 0 / 10) (n % 10 ^ 0) (count - 1) = [] := by
      rw [formatDigits, if_neg (by decide)]
    have hd := div_pow_lt hlt
    rw [formatDigits_pow emit count hlt, hnil]
    refine ⟨forall_mem_singleton.2 (isDigit_digitChar hd), rfl, ?_⟩
    rw [numeralValue_cons hd]
    simp [numeralValue]
  | succ m ih =>
    have hd := div_pow_lt hlt
    have hreduce : 10 ^ (m + 1) / 10 = 10 ^ m := by
      rw [Nat.pow_succ, Nat.mul_div_cancel _ (by decide)]
    obtain ⟨hdig, hlength, hval⟩ :=
      ih (count - 1) (Nat.mod_lt n (Nat.pow_pos (by decide) : 0 < 10 ^ (m + 1)))
    rw [formatDigits_pow emit count hlt, hreduce]
    refine ⟨forall_mem_cons.2 ⟨isDigit_digitChar hd, hdig⟩, ?_, ?_⟩
    · rw [length_cons, hlength]
    · rw [numeralValue_cons hd, hlength, hval, Nat.mul_comm, Nat.div_add_mod]

theorem formatDec_spec (groupings : List Int) (hlt : n < 10 ^ (m + 1)) (hm : m ≤ 38) :
    ∃ text, formatDec n '\x00' groupings = text ∧ IsNumeral text ∧ numeralValue text = n ∧
      text.length ≤ m + 1 ∧ (text.head? = some '0' → text = ['0']) := by
  obtain ⟨e, hlargest, hle, hsmall⟩ : ∃ e, largestPow10 n 1 1 (by decide) = (10 ^ e, e + 1) ∧
      (e = 0 ∨ 10 ^ e ≤ n) ∧ n < 10 ^ (e + 1) :=
    largestPow10_eq _ (Nat.pow_zero 10).symm rfl (.inl rfl)
  have hem : e ≤ m := by
    rcases hle with rfl | hle
    · exact Nat.zero_le m
    · exact Nat.lt_succ_iff.1 ((Nat.pow_lt_pow_iff_right (by decide)).1 (hle.trans_lt hlt))
  obtain ⟨hdig, hlength, hval⟩ := formatDigits_spec [] (e + 1) hsmall
  refine ⟨formatDigits '\x00' [] (10 ^ e) n (e + 1), ?_, ⟨?_, hdig⟩, hval, by omega, ?_⟩
  · simp only [formatDec, hlargest, if_neg (by omega : ¬ 39 < e + 1)]
    rfl
  · exact ne_nil_of_length_eq_add_one hlength
  · rw [formatDigits_pow [] (e + 1) hsmall] at hlength ⊢
    intro hzero
    have hd := div_pow_lt hsmall
    have hdigit : n / 10 ^ e = 0 := by
      rw [← digit_digitChar hd, Option.some.inj hzero]
      rfl
    have he : e = 0 := hle.resolve_right fun hle =>
      absurd hdigit (Nat.div_pos hle (Nat.pow_pos (by decide))).ne'
    rw [he, length_cons, Nat.add_right_cancel_iff, length_eq_zero_iff] at hlength
    rw [hdigit, he, hlength]
    rfl

end

/-! ## The balance -/

section

variable {k p : Nat} {n : Amount} {text : Text}

/-- A text in decimal notation, and the number that it denotes. -/
inductive Denotes : Text → ℚ → Prop
  | whole {int : Text} : IsNumeral int → Denotes int (numeralValue int)
  | fraction {int frac : Text} : IsNumeral int → IsNumeral frac →
      Denotes (int ++ '.' :: frac) (numeralValue int + numeralValue frac / 10 ^ frac.length)

def inUnits (n : Amount) (k : Nat) : ℚ := n.toNat / 10 ^ k

/-- A number truncated to `p` decimals. -/
def truncate (x : ℚ) (p : Nat) : ℚ := ⌊x * 10 ^ p⌋₊ / 10 ^ p

/-- What the text of a balance has to be. -/
structure FaithfulText (n : Amount) (k p : Nat) (text : Text) : Prop where
  exact : k ≤ p → Denotes text (inUnits n k) ∧ decodeDecScaled text (10 ^ k) = some n
  truncated : p < k → ¬ (n ≠ 0 ∧ truncate (inUnits n k) p = 0) →
    Denotes text (truncate (inUnits n k) p)
  tiny : p < k → n ≠ 0 → truncate (inUnits n k) p = 0 →
    ∃ smallest, text = "< ".toList ++ smallest ∧ Denotes smallest (1 / 10 ^ p)

/-- The fraction of a balance is read back: it is zero, or its first decimal is not zero, or it has
only one decimal that is not zero, and that one is below eight. -/
def FractionReadsBack (k frac : Nat) : Prop :=
  frac = 0 ∨ 10 ^ k ≤ 10 * frac ∨ ∃ d j, d < 8 ∧ frac = d * 10 ^ j

theorem ScaledNumeral.denotes {v : Nat} (h : ScaledNumeral k text v) :
    Denotes text (v / 10 ^ k) := by
  cases h with
  | whole hint =>
    have heq : ((numeralValue text * 10 ^ k : Nat) : ℚ) / 10 ^ k = numeralValue text := by
      push_cast
      field_simp
    rw [heq]
    exact .whole hint
  | @fraction int frac hint hfrac hk =>
    have hpow : (10 : ℚ) ^ k = 10 ^ frac.length * 10 ^ (k - frac.length) := by
      rw [← pow_add, Nat.add_sub_cancel' hk]
    have heq : ((numeralValue int * 10 ^ k + numeralValue frac * 10 ^ (k - frac.length) : Nat) : ℚ) /
        10 ^ k = numeralValue int + numeralValue frac / 10 ^ frac.length := by
      push_cast
      rw [hpow]
      field_simp
    rw [heq]
    exact .fraction hint hfrac

theorem truncate_inUnits (h : p ≤ k) :
    truncate (inUnits n k) p = (n.toNat / 10 ^ (k - p) : Nat) / 10 ^ p := by
  have hpow : (10 : ℚ) ^ k = 10 ^ p * 10 ^ (k - p) := by rw [← pow_add, Nat.add_sub_cancel' h]
  have heq : inUnits n k * 10 ^ p = (n.toNat : ℚ) / (10 ^ (k - p) : Nat) := by
    rw [inUnits, hpow]
    push_cast
    field_simp
  rw [truncate, heq, Nat.floor_div_eq_div]

theorem iterate_div (p scale : Nat) : (· / 10)^[p] scale = scale / 10 ^ p := by
  induction p generalizing scale with
  | zero => simp
  | succ p ih => rw [Function.iterate_succ_apply, ih, Nat.div_div_eq_div_mul, ← Nat.pow_succ']

theorem formatBalance_normal (hk : k ≤ 38) (groupings : List Int) (sep : Char)
    (hnormal : ¬ (n.toNat / 10 ^ k = 0 ∧ 0 < n.toNat % 10 ^ k ∧
      (10 ^ k / 10 ^ p = 0 ∨ n.toNat % 10 ^ k / (10 ^ k / 10 ^ p) = 0))) :
    ∃ int frac, formatBalance n (10 ^ k) p false sep '.' groupings =
        some (if 0 < p ∧ 0 < n.toNat % 10 ^ k then int ++ '.' :: frac else int) ∧
      (IsNumeral int ∧ numeralValue int = n.toNat / 10 ^ k ∧ int.length ≤ 39 - k ∧
        (int.head? = some '0' → int = ['0'])) ∧
      formatFrac p (10 ^ k) (n.toNat % 10 ^ k) = some frac := by
  have hpos : 0 < 10 ^ k := Nat.pow_pos (by decide)
  have hn : n.toNat < 10 ^ 39 := n.isLt.trans (by decide)
  have hint : n.toNat / 10 ^ k < 10 ^ (38 - k + 1) := by
    refine Nat.div_lt_of_lt_mul (hn.trans_eq ?_)
    rw [← Nat.pow_add]
    congr 1
    omega
  obtain ⟨int, hformat, hnum, hval, hlength, hzero⟩ :=
    formatDec_spec groupings hint (Nat.sub_le 38 k)
  obtain ⟨frac, hfrac, -⟩ := formatFrac_eq p (Nat.mod_lt n.toNat hpos)
  refine ⟨int, frac, ?_, ⟨hnum, hval, by omega, hzero⟩, hfrac⟩
  have h1 : ¬ (n.toNat / 10 ^ k = 0 ∧ 0 < n.toNat % 10 ^ k ∧ 10 ^ k / 10 ^ p = 0) :=
    fun h => hnormal ⟨h.1, h.2.1, .inl h.2.2⟩
  have h2 : ¬ (n.toNat / 10 ^ k = 0 ∧ 0 < n.toNat % 10 ^ k ∧
      n.toNat % 10 ^ k / (10 ^ k / 10 ^ p) = 0) := fun h => hnormal ⟨h.1, h.2.1, .inr h.2.2⟩
  simp only [formatBalance, iterate_div, if_neg hpos.ne', if_neg h1, if_neg h2,
    Bool.false_eq_true, false_and, if_false, hformat, hfrac]
  split <;> rfl

theorem octalSafe_iff {m frac : Nat} {t : Text} (hm : m < p) (hfrac : 0 < frac)
    (hlt : frac < 10 ^ (m + 1)) (ht : formatFrac p (10 ^ (m + 1)) frac = some t) :
    OctalSafe t ↔ FractionReadsBack (m + 1) frac := by
  have hhead : t.head? = some (Nat.digitChar (frac / 10 ^ m)) := by
    obtain ⟨p, rfl⟩ := Nat.exists_eq_succ_of_ne_zero (by omega : p ≠ 0)
    rw [formatFrac_succ hfrac hlt] at ht
    obtain ⟨rest, -, rfl⟩ := Option.map_eq_some_iff.1 ht
    rfl
  have hzero : t.head? = some '0' ↔ ¬ 10 ^ (m + 1) ≤ 10 * frac := by
    have hd : frac / 10 ^ m < 10 := div_pow_lt hlt
    have hdigit : Nat.digitChar (frac / 10 ^ m) = '0' ↔ frac / 10 ^ m = 0 :=
      ⟨fun h => by rw [← digit_digitChar hd, h]; rfl, fun h => by rw [h]; rfl⟩
    rw [hhead, Option.some_inj, hdigit, Nat.div_eq_zero_iff_lt (Nat.pow_pos (by decide)),
      Nat.pow_succ]
    omega
  constructor
  · intro hsafe
    by_cases hle : 10 ^ (m + 1) ≤ 10 * frac
    · exact .inr (.inl hle)
    · obtain ⟨i, d, hd, rfl⟩ := hsafe (hzero.2 hle)
      obtain ⟨t, ht', -, hlength, hval, -⟩ := formatFrac_eq p hlt
      obtain rfl := Option.some.inj (ht.symm.trans ht')
      rw [Nat.min_eq_right (by omega), Nat.sub_self, Nat.pow_zero, Nat.div_one, numeralValue,
        ofDigitChars_zeros] at hval
      simp only [Nat.ofDigitChars_cons, Nat.ofDigitChars_nil, digit_digitChar (by omega : d < 10),
        Nat.mul_zero, Nat.zero_add] at hval
      exact .inr (.inr ⟨d, _, hd, hval.symm⟩)
  · rintro (hnone | hle | ⟨d, j, hd, rfl⟩) hhead'
    · omega
    · exact absurd hle (hzero.1 hhead')
    · have hdpos : 0 < d := Nat.pos_of_mul_pos_right hfrac
      have hj : j < m + 1 := (Nat.pow_lt_pow_iff_right (by decide : 1 < 10)).1
        ((Nat.le_mul_of_pos_left _ hdpos).trans_lt hlt)
      have hsingle : formatFrac p (10 ^ (j + (m - j) + 1)) (d * 10 ^ j) = _ :=
        formatFrac_single hdpos (by omega) (by omega)
      rw [Nat.add_sub_cancel' (by omega), ht] at hsingle
      exact ⟨m - j, d, hd, Option.some.inj hsingle⟩

theorem misread_iff {int frac : Text} (hint : IsNumeral int) (hfrac : IsNumeral frac) :
    Misread (int ++ '.' :: frac) ↔ ¬ OctalSafe frac := by
  constructor
  · rintro (hblank | ⟨int', frac', htext, hpt, hbad⟩)
    · rw [Blank, head?_append_of_ne_nil _ hint.1] at hblank
      exact absurd hblank hint.not_blank
    · have heq := congrArg (fun t => (List.dropWhile (· ≠ '.') t).tail) htext
      simp only [dropWhile_point hint.no_point, dropWhile_point hpt] at heq
      subst heq
      exact hbad.resolve_left hfrac.not_blank
  · exact fun hsafe => .inr ⟨int, frac, rfl, hint.no_point, .inr hsafe⟩

theorem IsNumeral.not_misread (h : IsNumeral text) : ¬ Misread text := by
  rintro (hblank | ⟨int, frac, rfl, -⟩)
  · exact h.not_blank hblank
  · exact h.no_point (mem_append_right _ mem_cons_self)

/-- The text of a balance that is not too small. -/
structure NormalText (n : Amount) (k p : Nat) (text : Text) : Prop where
  numeral : ScaledNumeral (min p k) text (n.toNat / 10 ^ (k - min p k))
  noLeadingZero : NoLeadingZero text
  length : text.length ≤ 40
  misread : k ≤ p → (Misread text ↔ ¬ FractionReadsBack k (n.toNat % 10 ^ k))

theorem normalText (hk : k ≤ 38) (groupings : List Int) (sep : Char)
    (hnormal : ¬ (n.toNat / 10 ^ k = 0 ∧ 0 < n.toNat % 10 ^ k ∧
      (10 ^ k / 10 ^ p = 0 ∨ n.toNat % 10 ^ k / (10 ^ k / 10 ^ p) = 0))) :
    ∃ text, formatBalance n (10 ^ k) p false sep '.' groupings = some text ∧
      NormalText n k p text := by
  obtain ⟨int, frac, hformat, ⟨hint, hval, hlength, hzero⟩, hfrac⟩ :=
    formatBalance_normal hk groupings sep hnormal
  have hlt : n.toNat % 10 ^ k < 10 ^ k := Nat.mod_lt _ (Nat.pow_pos (by decide))
  have hspl := div_pow_split (Nat.min_le_right p k) n.toNat
  refine ⟨_, hformat, ?_⟩
  split
  · rename_i hpart
    obtain ⟨t, ht, hdig, hlen, hfracValue, hne⟩ := formatFrac_eq p hlt
    obtain rfl := Option.some.inj (hfrac.symm.trans ht)
    have hnum : IsNumeral frac := ⟨hne hpart.1 hpart.2, hdig⟩
    refine ⟨?_, ?_, ?_, fun hp => ?_⟩
    · rw [hspl, ← hval, ← hfracValue]
      exact .fraction hint hnum hlen
    · rw [NoLeadingZero, takeWhile_point hint.no_point, head?_append_of_ne_nil _ hint.1]
      exact hzero
    · rw [length_append, length_cons]
      omega
    · rw [misread_iff hint hnum, not_iff_not]
      obtain ⟨m, rfl⟩ : ∃ m, k = m + 1 := Nat.exists_eq_succ_of_ne_zero (by
        rintro rfl
        rw [Nat.pow_zero] at hlt
        omega)
      exact octalSafe_iff (by omega) hpart.2 hlt hfrac
  · rename_i hpart
    have hrest : n.toNat % 10 ^ k / 10 ^ (k - min p k) = 0 := by
      rcases Nat.eq_zero_or_pos p with rfl | hp
      · rw [Nat.zero_min, Nat.sub_zero, Nat.div_eq_of_lt hlt]
      · rw [show n.toNat % 10 ^ k = 0 by omega, Nat.zero_div]
    refine ⟨?_, hint.noLeadingZero.2 hzero, by omega, fun hp => ?_⟩
    · rw [hspl, hrest, Nat.add_zero, ← hval]
      exact .whole hint
    · have hnone : n.toNat % 10 ^ k = 0 := by
        rcases Nat.eq_zero_or_pos p with rfl | hp'
        · obtain rfl : k = 0 := by omega
          rw [Nat.pow_zero, Nat.mod_one]
        · omega
      exact iff_of_false hint.not_misread (not_not.2 (.inl hnone))

theorem formatBalance_eq_none (groupings : List Int) (sep : Char) (hn : 0 < n.toNat)
    (hlt : n.toNat < 10 ^ k) (hp : k < p) :
    formatBalance n (10 ^ k) p false sep '.' groupings = none := by
  have hscale : 10 ^ k / 10 ^ p = 0 := Nat.div_eq_of_lt (Nat.pow_lt_pow_right (by decide) hp)
  have hpos : 0 < 10 ^ k := Nat.pow_pos (by decide)
  simp only [formatBalance, iterate_div, if_neg hpos.ne', Nat.div_eq_of_lt hlt, Nat.mod_eq_of_lt hlt,
    hscale, hn, and_self, if_true]

theorem formatBalance_tiny (groupings : List Int) (sep : Char) (hp : p < k) (hn : 0 < n.toNat)
    (hlt : n.toNat < 10 ^ (k - p)) : formatBalance n (10 ^ k) p false sep '.' groupings =
      some ("< ".toList ++ smallestText p '.') := by
  have hscale : 10 ^ k / 10 ^ p = 10 ^ (k - p) := Nat.pow_div hp.le (by decide)
  have hpos : 0 < 10 ^ k := Nat.pow_pos (by decide)
  have hprec : 10 ^ (k - p) ≠ 0 := (Nat.pow_pos (by decide)).ne'
  have hltk : n.toNat < 10 ^ k := hlt.trans_le (Nat.pow_le_pow_right (by decide) (Nat.sub_le k p))
  simp only [formatBalance, iterate_div, if_neg hpos.ne', Nat.div_eq_of_lt hltk,
    Nat.mod_eq_of_lt hltk, hscale, hn, hprec, Nat.div_eq_of_lt hlt, and_false, and_self, if_true,
    if_false]

theorem denotes_smallestText (p : Nat) : Denotes (smallestText p '.') (1 / 10 ^ p) := by
  have hone : IsNumeral ['1'] := .of_all (by decide) (by decide)
  cases p with
  | zero =>
    have heq : (1 : ℚ) / 10 ^ 0 = (numeralValue ['1'] : Nat) := by simp [Nat.ofDigitChars_cons]
    rw [heq]
    exact .whole hone
  | succ p =>
    have hfrac : IsNumeral (List.replicate p '0' ++ ['1']) := by
      refine ⟨by simp, fun c hc => ?_⟩
      rcases mem_append.1 hc with hc | hc
      · rw [eq_of_mem_replicate hc]
        decide
      · exact hone.2 c hc
    have hzero : IsNumeral ['0'] := .of_all (by decide) (by decide)
    have heq : (1 : ℚ) / 10 ^ (p + 1) = (numeralValue ['0'] : Nat) +
        (numeralValue (List.replicate p '0' ++ ['1']) : Nat) /
          10 ^ (List.replicate p '0' ++ ['1']).length := by
      rw [numeralValue, numeralValue, ofDigitChars_zeros]
      simp [Nat.ofDigitChars_cons]
    rw [heq]
    exact .fraction hzero hfrac

/-- `format_balance` returns a text that is right for the balance. -/
def Faithful (n : Amount) (k p : Nat) (sep : Char) (groupings : List Int) : Prop :=
  ∃ text, formatBalance n (10 ^ k) p false sep '.' groupings = some text ∧ FaithfulText n k p text

theorem NormalText.mustAccept (h : NormalText n k p text) (hp : k ≤ p) :
    MustAccept k text n.toNat := by
  have hnum := h.numeral
  rw [Nat.min_eq_right hp, Nat.sub_self, Nat.pow_zero, Nat.div_one] at hnum
  exact ⟨hnum, h.noLeadingZero, h.length, n.isLt⟩

theorem lt_of_tiny (h : n.toNat / 10 ^ k = 0 ∧ 0 < n.toNat % 10 ^ k ∧
      (10 ^ k / 10 ^ p = 0 ∨ n.toNat % 10 ^ k / (10 ^ k / 10 ^ p) = 0)) :
    n.toNat < 10 ^ k ∧ 0 < n.toNat ∧ (10 ^ k / 10 ^ p = 0 ∨ n.toNat / (10 ^ k / 10 ^ p) = 0) := by
  have hlt : n.toNat < 10 ^ k := (Nat.div_eq_zero_iff_lt (Nat.pow_pos (by decide))).1 h.1
  rw [Nat.mod_eq_of_lt hlt] at h
  exact ⟨hlt, h.2⟩

theorem faithful_iff_of_le (hk : k ≤ 38) (hp : k ≤ p) (groupings : List Int) (sep : Char) :
    Faithful n k p sep groupings ↔
      ¬ (0 < n.toNat ∧ n.toNat < 10 ^ k ∧ k < p) ∧ FractionReadsBack k (n.toNat % 10 ^ k) := by
  by_cases hbad : 0 < n.toNat ∧ n.toNat < 10 ^ k ∧ k < p
  · refine iff_of_false ?_ fun h => h.1 hbad
    rintro ⟨text, htext, -⟩
    rw [formatBalance_eq_none groupings sep hbad.1 hbad.2.1 hbad.2.2] at htext
    cases htext
  · obtain ⟨text, htext, hnormalText⟩ := normalText (p := p) hk groupings sep fun htiny => by
      obtain ⟨hlt, hfrac, hprec⟩ := lt_of_tiny htiny
      obtain rfl : p = k := by
        by_contra hne
        exact hbad ⟨hfrac, hlt, by omega⟩
      rw [Nat.div_self (Nat.pow_pos (by decide)), Nat.div_one] at hprec
      omega
    have hacpt := hnormalText.mustAccept hp
    rw [and_iff_right hbad, ← not_iff_not, ← hnormalText.misread hp, ← not_iff_not, not_not,
      ← hacpt.read_iff]
    constructor
    · rintro ⟨text', htext', hfaithful⟩
      obtain rfl := Option.some.inj (htext.symm.trans htext')
      exact (hfaithful.exact hp).2
    · intro hread
      exact ⟨text, htext, fun _ => ⟨hacpt.numeral.denotes, hread⟩, fun h => absurd h hp.not_gt,
        fun h => absurd h hp.not_gt⟩

theorem faithful_of_lt (hk : k ≤ 38) (hp : p < k) (groupings : List Int) (sep : Char) :
    Faithful n k p sep groupings := by
  have htruncate := truncate_inUnits (n := n) hp.le
  have hpos : 0 < 10 ^ (k - p) := Nat.pow_pos (by decide)
  have hzero : truncate (inUnits n k) p = 0 ↔ n.toNat < 10 ^ (k - p) := by
    rw [htruncate, div_eq_zero_iff, Nat.cast_eq_zero, Nat.div_eq_zero_iff_lt hpos]
    simp
  have hne : n ≠ 0 ↔ 0 < n.toNat := by
    rw [Nat.pos_iff_ne_zero, Ne, Ne, not_iff_not]
    exact BitVec.toNat_inj.symm
  by_cases htiny : 0 < n.toNat ∧ n.toNat < 10 ^ (k - p)
  · exact ⟨_, formatBalance_tiny groupings sep hp htiny.1 htiny.2, fun h => absurd h hp.not_ge,
      fun _ h => absurd ⟨hne.2 htiny.1, hzero.2 htiny.2⟩ h,
      fun _ _ _ => ⟨smallestText p '.', rfl, denotes_smallestText p⟩⟩
  · obtain ⟨text, htext, hnormalText⟩ := normalText (p := p) hk groupings sep fun h => by
      obtain ⟨-, hfrac, hprec⟩ := lt_of_tiny h
      rw [Nat.pow_div hp.le (by decide), Nat.div_eq_zero_iff_lt hpos] at hprec
      exact htiny ⟨hfrac, hprec.resolve_left hpos.ne'⟩
    have hnum := hnormalText.numeral.denotes
    rw [Nat.min_eq_left hp.le, ← htruncate] at hnum
    exact ⟨text, htext, fun h => absurd h hp.not_ge, fun _ _ => hnum,
      fun _ hn h => absurd ⟨hne.1 hn, hzero.1 h⟩ htiny⟩

/-- The text of a balance is right unless the precision exceeds the decimals of the scale for a
balance below one unit, which is a division by zero, or all decimals are shown and the fraction is
read back as an octal number. -/
theorem format_balance_faithful_iff (n : Amount) (k p : Nat) (hk : k ≤ 38) (sep : Char)
    (groupings : List Int) : Faithful n k p sep groupings ↔
      ¬ (0 < n.toNat ∧ n.toNat < 10 ^ k ∧ k < p) ∧
        (k ≤ p → FractionReadsBack k (n.toNat % 10 ^ k)) := by
  by_cases hp : k ≤ p
  · rw [faithful_iff_of_le hk hp, forall_prop_of_true hp]
  · refine iff_of_true (faithful_of_lt hk (by omega) groupings sep) ⟨fun h => ?_, fun h => absurd h hp⟩
    omega

/-- Half a unit, with one decimal. -/
theorem format_balance_half : 1 ≤ 38 ∧ Faithful 5 1 1 ',' [3] := by
  refine ⟨by decide, (format_balance_faithful_iff 5 1 1 (by decide) ',' [3]).2 ⟨by decide, ?_⟩⟩
  exact fun _ => .inr (.inl (by decide))

/-- One raw with the scale ten and two decimals is a division by zero. 1012 with the scale 1000 is
written as `1.012` and read back as 1010. -/
theorem format_balance_fails :
    formatBalance 1 (10 ^ 1) 2 false ',' '.' [3] = none ∧ ¬ Faithful 1 1 2 ',' [3] ∧
    formatBalance 1012 (10 ^ 3) 3 false ',' '.' [3] = some "1.012".toList ∧
    decodeDecScaled "1.012".toList (10 ^ 3) = some 1010 ∧ ¬ Faithful 1012 3 3 ',' [3] := by
  have hnone : formatBalance 1 (10 ^ 1) 2 false ',' '.' [3] = none :=
    formatBalance_eq_none [3] ',' (by decide) (by decide) (by decide)
  have hsome : formatBalance 1012 (10 ^ 3) 3 false ',' '.' [3] = some "1.012".toList := by
    simp [formatBalance, formatDec, largestPow10, formatDigits, formatFrac, Nat.toDigits_of_lt_base]
  refine ⟨hnone, ?_, hsome, by decide, ?_⟩
  · rintro ⟨text, htext, -⟩
    rw [hnone] at htext
    cases htext
  · rintro ⟨text, htext, hfaithful⟩
    obtain rfl := Option.some.inj (hsome.symm.trans htext)
    exact absurd (hfaithful.exact le_rfl).2 (by decide)

end

end Futurehead
