import Futurehead.Numbers.Amount

/-!
# Numbers of other widths as text (`uint128_union`, `uint512_union`, `to_string_hex`)

Amounts and signatures are read by the same stream operator as accounts, with a limit of their own
and without the test for an empty text. Work is a built-in number. The stream reads it by its own
rules: one sign, one marker, and digits as far as they go.
-/

namespace Futurehead

open List Option Decoded

/-! ## The code -/

inductive ReadFailure where
  | error
  /-- An exception leaves the reader, or it uses a number that was never assigned. -/
  | exception
  deriving DecidableEq

/-- What is read, or how the reading fails. -/
abbrev Reading := Except ReadFailure

def Decoded.toReading : Decoded → Reading Uint256
  | .value x => .ok x
  | .error => .error .error
  | .throws => .error .exception

/-- `readNumber` for a number of any width. -/
def readNumberBits (width : Nat) : Text → Reading (BitVec width)
  | '0' :: 'x' :: digits | '0' :: 'X' :: digits =>
    match readDigits digits with
    | some n => .ok (BitVec.ofNat width n)
    | none => .error .error
  | run =>
    let digits := run.dropWhile isSign
    if digits = [] then .error .exception
    else
      match run.takeWhile isSign, readDigits digits with
      | [], some n => .ok (BitVec.ofNat width n)
      | ['-'], some n => .ok (-BitVec.ofNat width n)
      | _, _ => .error .error

/-- `decode_hex` for a number of any width, with the limit for the length of the text. -/
def decodeHexBits (width limit : Nat) (text : Text) : Reading (BitVec width) :=
  if limit < text.length then .error .error
  else
    let text := text.dropWhile isSpace
    if text = [] then .ok 0
    else
      let run := text.takeWhile isNumeric
      if run = [] then .error .error
      else
        match readNumberBits width run with
        | .ok x => if text.dropWhile isNumeric = [] then .ok x else .error .error
        | .error failure => .error failure

/-- `uint128_union::encode_hex`. -/
def encodeHexAmount (x : Amount) : Text := encodeDigits 32 x.toNat

/-- `uint128_union::decode_hex`. -/
def decodeHexAmount (text : Text) : Reading Amount := decodeHexBits 128 32 text

/-- `uint512_union::encode_hex`. -/
def encodeHexSignature (x : Signature) : Text := encodeDigits 128 x.toNat

/-- `uint512_union::decode_hex`. -/
def decodeHexSignature (text : Text) : Reading Signature := decodeHexBits 512 128 text

def toStringDec (x : Amount) : Text := Nat.toDigits 10 x.toNat

/-- `to_string_hex`, in lower case. -/
def toStringHex (x : BitVec 64) : Text := (encodeDigits 16 x.toNat).map Char.toLower

def isHexDigit (c : Char) : Bool := (hexDigit c).isSome

/-- The marker in front of the digits of a built-in number. -/
def dropMarker : Text → Text
  | '0' :: 'x' :: digits | '0' :: 'X' :: digits => digits
  | digits => digits

/-- The stream operator for a built-in number: the number, and what is left in the stream. Without
digits the number is zero. Text of white space assigns nothing. -/
def extractHex (text : Text) : Option (BitVec 64 × Text) :=
  let text := text.dropWhile isSpace
  if text = [] then none
  else
    let body := dropMarker (if text.head?.any isSign then text.tail else text)
    let number := BitVec.ofNat 64 ((readDigits (body.takeWhile isHexDigit)).getD 0)
    some (if text.head? = some '-' then -number else number, body.dropWhile isHexDigit)

/-- `from_string_hex`. Whether the stream reports a failure is not looked at. -/
def fromStringHex (text : Text) : Reading (BitVec 64) :=
  if text = [] ∨ 16 < text.length then .error .error
  else
    match extractHex text with
    | none => .error .exception
    | some (number, rest) => if rest = [] then .ok number else .error .error

/-! ## Round trips -/

section

variable {width k n : Nat} {text : Text}

theorem readNumberBits_eq (text : Text) :
    readNumberBits 256 text = (readNumber text).toReading := by
  unfold readNumber
  split
  · rename_i digits
    cases h : readDigits digits <;> simp [h, readNumberBits, toReading]
  · rename_i digits
    cases h : readDigits digits <;> simp [h, readNumberBits, toReading]
  · rename_i h1 h2
    unfold readNumberBits
    split
    · exact absurd rfl (h1 _)
    · exact absurd rfl (h2 _)
    · dsimp only
      split
      · rfl
      · generalize List.takeWhile isSign _ = signs
        split <;> simp_all [toReading]

theorem decodeHex_eq (text : Text) : (decodeHex text).toReading =
    if text = [] then .error .error else decodeHexBits 256 64 text := by
  unfold decodeHex decodeHexBits
  by_cases hnil : text = []
  · simp [hnil, toReading]
  by_cases hlong : 64 < text.length
  · simp [hnil, hlong, toReading]
  rw [if_neg (by simp [hnil, hlong]), if_neg hnil, if_neg hlong]
  dsimp only
  split
  · rfl
  split
  · rfl
  rw [readNumberBits_eq]
  cases readNumber ((text.dropWhile isSpace).takeWhile isNumeric) with
  | value x =>
    by_cases hend : (text.dropWhile isSpace).dropWhile isNumeric = []
    · simp only [toReading, if_pos hend]
    · simp only [toReading, if_neg hend]
  | error => rfl
  | throws => rfl

theorem readNumberBits_of_digits (hne : text ≠ [])
    (hchars : ∀ c ∈ text, isSign c = false ∧ c ≠ 'x' ∧ c ≠ 'X') (h : readDigits text = some n) :
    readNumberBits width text = .ok (BitVec.ofNat width n) := by
  unfold readNumberBits
  split
  · exact absurd rfl (hchars 'x' (by simp)).2.1
  · exact absurd rfl (hchars 'X' (by simp)).2.2
  · obtain ⟨c, rest, rfl⟩ := exists_cons_of_ne_nil hne
    have hc : isSign c = false := (hchars c mem_cons_self).1
    dsimp only
    rw [dropWhile_cons_of_neg (by simp [hc]), takeWhile_cons_of_neg (by simp [hc]), h,
      if_neg (cons_ne_nil _ _)]

theorem dropWhile_isSpace_encodeDigits (k n : Nat) :
    (encodeDigits k n).dropWhile isSpace = encodeDigits k n := by
  cases h : encodeDigits k n with
  | nil => rfl
  | cons c rest =>
    have hc : c ∈ encodeDigits k n := h ▸ mem_cons_self
    exact dropWhile_cons_of_neg (by simp [(mem_encodeDigits hc).1])

theorem decodeHexBits_encodeDigits (x : BitVec width) (hk : 0 < k) (hwidth : width = 4 * k) :
    decodeHexBits width k (encodeDigits k x.toNat) = .ok x := by
  have hpow : 2 ^ width = 16 ^ k := by rw [hwidth, Nat.pow_mul]
  have hlt : x.toNat < 16 ^ k := hpow ▸ x.isLt
  have hlen := encodeDigits_length k x.toNat
  have hne : encodeDigits k x.toNat ≠ [] := fun h => by rw [h] at hlen; simp at hlen; omega
  have hrun : (encodeDigits k x.toNat).takeWhile isNumeric = encodeDigits k x.toNat :=
    takeWhile_eq_self_iff.2 fun c hc => (mem_encodeDigits hc).2.2.1
  have hend : (encodeDigits k x.toNat).dropWhile isNumeric = [] :=
    dropWhile_eq_nil_iff.2 fun c hc => (mem_encodeDigits hc).2.2.1
  have hnumber : readNumberBits width (encodeDigits k x.toNat) = .ok x := by
    rw [readNumberBits_of_digits hne (fun c hc => ?_) (readDigits_encodeDigits k x.toNat)]
    · rw [Nat.mod_eq_of_lt hlt, BitVec.ofNat_toNat, BitVec.setWidth_eq]
    · exact ⟨(mem_encodeDigits hc).2.1, (mem_encodeDigits hc).2.2.2⟩
  unfold decodeHexBits
  rw [if_neg (by omega), dropWhile_isSpace_encodeDigits]
  dsimp only
  rw [if_neg hne, hrun, if_neg hne, hnumber, hend]
  rfl

theorem decodeHex_encodeHex (x : Uint256) : decodeHex (encodeHex x) = .value x := by
  have hne : encodeHex x ≠ [] := by
    intro hnil
    have hlen : (encodeHex x).length = 64 := encodeDigits_length 64 _
    rw [hnil] at hlen
    cases hlen
  have hread := decodeHex_eq (encodeHex x)
  rw [if_neg hne, show decodeHexBits 256 64 (encodeHex x) = .ok x from
    decodeHexBits_encodeDigits x (by decide) rfl] at hread
  cases hdecoded : decodeHex (encodeHex x) with
  | value y =>
    rw [hdecoded] at hread
    cases hread
    rfl
  | error | throws => rw [hdecoded] at hread; cases hread

@[simp] theorem decodeHexAmount_encode (x : Amount) : decodeHexAmount (encodeHexAmount x) = .ok x :=
  decodeHexBits_encodeDigits x (by decide) rfl

@[simp] theorem decodeHexSignature_encode (x : Signature) :
    decodeHexSignature (encodeHexSignature x) = .ok x :=
  decodeHexBits_encodeDigits x (by decide) rfl

theorem toLower_hexChar : ∀ n : Fin 16, hexDigit (hexChar n).toLower = some n.1 ∧
    isSpace (hexChar n).toLower = false ∧ isSign (hexChar n).toLower = false ∧
      (hexChar n).toLower ≠ 'x' ∧ (hexChar n).toLower ≠ 'X' := by decide

theorem mem_encodeDigits_hexChar {c : Char} (h : c ∈ encodeDigits k n) :
    ∃ d : Fin 16, c = hexChar d := by
  induction k generalizing n with
  | zero => cases h
  | succ k ih =>
    rcases mem_append.1 h with h | h
    · exact ih h
    · exact ⟨⟨n % 16, Nat.mod_lt _ (by decide)⟩, mem_singleton.1 h⟩

theorem readDigits_map_toLower (k n : Nat) :
    readDigits ((encodeDigits k n).map Char.toLower) = readDigits (encodeDigits k n) := by
  have hdigit : ∀ c ∈ encodeDigits k n, hexDigit c.toLower = hexDigit c := by
    intro c hc
    obtain ⟨d, rfl⟩ := mem_encodeDigits_hexChar hc
    rw [(toLower_hexChar d).1, hexDigit_hexChar d.2]
  unfold readDigits
  rw [foldlM_map]
  generalize 0 = a
  generalize encodeDigits k n = digits at hdigit
  induction digits generalizing a with
  | nil => rfl
  | cons c digits ih =>
    rw [foldlM_cons, foldlM_cons, hdigit c mem_cons_self]
    congr 1
    funext b
    exact ih b (fun c hc => hdigit c (mem_cons_of_mem _ hc))

theorem mem_toStringHex {x : BitVec 64} {c : Char} (h : c ∈ toStringHex x) :
    isHexDigit c = true ∧ isSpace c = false ∧ isSign c = false ∧ c ≠ 'x' ∧ c ≠ 'X' := by
  obtain ⟨c, hc, rfl⟩ := List.mem_map.1 h
  obtain ⟨d, rfl⟩ := mem_encodeDigits_hexChar hc
  obtain ⟨hdigit, hrest⟩ := toLower_hexChar d
  exact ⟨by simp [isHexDigit, hdigit], hrest⟩

theorem dropMarker_eq_self (h : ∀ c ∈ text, c ≠ 'x' ∧ c ≠ 'X') : dropMarker text = text := by
  unfold dropMarker
  split
  · exact absurd rfl (h 'x' (by simp)).1
  · exact absurd rfl (h 'X' (by simp)).2
  · rfl

theorem toStringHex_length (x : BitVec 64) : (toStringHex x).length = 16 := by
  rw [toStringHex, length_map, encodeDigits_length]

theorem extractHex_toStringHex (x : BitVec 64) : extractHex (toStringHex x) = some (x, []) := by
  obtain ⟨c, rest, hcons⟩ := exists_cons_of_length_eq_add_one (toStringHex_length x)
  have hc : c ∈ toStringHex x := hcons ▸ mem_cons_self
  obtain ⟨-, hspace, hsign, -⟩ := mem_toStringHex hc
  have hdrop : (toStringHex x).dropWhile isSpace = toStringHex x := by
    rw [hcons, dropWhile_cons_of_neg (by simp [hspace])]
  have hhead : (toStringHex x).head? = some c := by rw [hcons]; rfl
  have hminus : c ≠ '-' := by
    rintro rfl
    exact absurd hsign (by decide)
  have hbody : dropMarker (toStringHex x) = toStringHex x :=
    dropMarker_eq_self fun c hc => (mem_toStringHex hc).2.2.2
  have hdig : (toStringHex x).takeWhile isHexDigit = toStringHex x :=
    takeWhile_eq_self_iff.2 fun c hc => (mem_toStringHex hc).1
  have hend : (toStringHex x).dropWhile isHexDigit = [] :=
    dropWhile_eq_nil_iff.2 fun c hc => (mem_toStringHex hc).1
  have hval : readDigits (toStringHex x) = some x.toNat := by
    rw [toStringHex, readDigits_map_toLower, readDigits_encodeDigits,
      Nat.mod_eq_of_lt (show x.toNat < 16 ^ 16 from x.isLt)]
  have hne : toStringHex x ≠ [] := by rw [hcons]; exact cons_ne_nil _ _
  simp only [extractHex, hdrop, hhead, any_some, hsign, Bool.false_eq_true, if_false,
    hbody, hdig, hend, hval, hne, some_inj, hminus]
  simp

@[simp] theorem fromStringHex_toStringHex (x : BitVec 64) :
    fromStringHex (toStringHex x) = .ok x := by
  have hlen := toStringHex_length x
  have hne : toStringHex x ≠ [] := by
    intro h
    rw [h] at hlen
    cases hlen
  rw [fromStringHex, if_neg (by simp [hne, hlen]), extractHex_toStringHex]
  rfl

theorem head_toDigits (n : Nat) (h : (Nat.toDigits 10 n).head? = some '0') : n = 0 := by
  induction n using Nat.strong_induction_on with
  | _ n ih =>
    rw [Nat.toDigits_eq_if (by decide)] at h
    split at h
    · rename_i hlt
      rw [head?_cons, some_inj] at h
      rw [← digit_digitChar hlt, h]
      rfl
    · rename_i hge
      rw [head?_append_of_ne_nil _ (ne_nil_of_length_pos Nat.length_toDigits_pos)] at h
      have := ih (n / 10) (by omega) h
      omega

theorem isNumeral_toDigits (n : Nat) : IsNumeral (Nat.toDigits 10 n) :=
  ⟨ne_nil_of_length_pos Nat.length_toDigits_pos,
    fun _ hc => Nat.isDigit_of_mem_toDigits (by decide) (by decide) hc⟩

theorem numeralValue_toDigits (n : Nat) : numeralValue (Nat.toDigits 10 n) = n :=
  Nat.ofDigitChars_toDigits (by decide) (by decide)

@[simp] theorem decodeDec_toStringDec (x : Amount) : decodeDec (toStringDec x) = some x := by
  have hnum := isNumeral_toDigits x.toNat
  refine (decodeDec_integer hnum.not_blank).2
    ⟨hnum, ?_, fun hzero => ?_, (numeralValue_toDigits x.toNat).symm⟩
  · exact (Nat.length_toDigits_le_iff (by decide) (by decide)).2 (x.isLt.trans (by decide))
  · have hx : x.toNat = 0 := head_toDigits _ hzero
    simp [hx]

end

end Futurehead
