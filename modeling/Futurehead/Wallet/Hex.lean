import Mathlib.Data.List.TakeWhile
import Futurehead.Blocks

/-!
# Hexadecimal numbers (`uint256_union::encode_hex`, `uint256_union::decode_hex`)

`decode_hex` leaves the reading to the stream operator of the number type. That operator skips white
space, takes all characters that can occur in a number, and then looks at what it has taken: a sign,
a marker and digits. Text of white space only is read as zero, and text of signs only throws an
exception that `decode_hex` does not catch.
-/

namespace Futurehead

open List Option

/-- A `std::string`. -/
abbrev Text := List Char

def hexDigit (c : Char) : Option Nat :=
  if '0' ≤ c ∧ c ≤ '9' then some (c.toNat - '0'.toNat)
  else if 'a' ≤ c ∧ c ≤ 'f' then some (c.toNat - 'a'.toNat + 10)
  else if 'A' ≤ c ∧ c ≤ 'F' then some (c.toNat - 'A'.toNat + 10)
  else none

def hexChar (n : Nat) : Char :=
  ['0', '1', '2', '3', '4', '5', '6', '7', '8', '9', 'A', 'B', 'C', 'D', 'E', 'F'].getD n '0'

/-- The last `k` digits of a number, in upper case and filled up with zeros. -/
def encodeDigits : (k : Nat) → Nat → Text
  | 0, _ => []
  | k + 1, n => encodeDigits k (n / 16) ++ [hexChar (n % 16)]

/-- `encode_hex`, and so `to_string`. -/
def encodeHex (x : Uint256) : Text := encodeDigits 64 x.toNat

/-! ## Reading -/

def isSpace (c : Char) : Bool := c == ' ' || (decide ('\t' ≤ c) && decide (c ≤ '\r'))

def isSign (c : Char) : Bool := c == '+' || c == '-'

/-- A character that can occur in a number. -/
def isNumeric (c : Char) : Bool := isSign c || c == 'x' || c == 'X' || (hexDigit c).isSome

/-- What `decode_hex` ends with. -/
inductive Decoded where
  | value (x : Uint256)
  | error
  /-- An exception leaves the function. -/
  | throws
  deriving DecidableEq

/-- The digits after the marker. Any other character is an error. -/
def readDigits (digits : Text) : Option Nat :=
  digits.foldlM (fun n c => (hexDigit c).map (16 * n + ·)) 0

/-- The number that a run of numeric characters stands for. Without a marker one is put after the
signs, and there is no place for it if nothing follows. Only a single minus sign is known. -/
def readNumber : Text → Decoded
  | '0' :: 'x' :: digits | '0' :: 'X' :: digits =>
    match readDigits digits with
    | some n => .value (BitVec.ofNat 256 n)
    | none => .error
  | run =>
    let digits := run.dropWhile isSign
    if digits = [] then .throws
    else
      match run.takeWhile isSign, readDigits digits with
      | [], some n => .value (BitVec.ofNat 256 n)
      | ['-'], some n => .value (-BitVec.ofNat 256 n)
      | _, _ => .error

/-- `decode_hex`. The stream has to be at its end after the number. -/
def decodeHex (text : Text) : Decoded :=
  if text = [] ∨ 64 < text.length then .error
  else
    let text := text.dropWhile isSpace
    if text = [] then .value 0
    else
      let run := text.takeWhile isNumeric
      if run = [] then .error
      else
        match readNumber run with
        | .value x => if text.dropWhile isNumeric = [] then .value x else .error
        | result => result

/-! ## Digits -/

theorem hexDigit_hexChar {n : Nat} (h : n < 16) : hexDigit (hexChar n) = some n := by
  have key : ∀ n : Fin 16, hexDigit (hexChar n) = some n.1 := by decide
  exact key ⟨n, h⟩

theorem encodeDigits_length (k n : Nat) : (encodeDigits k n).length = k := by
  induction k generalizing n with
  | zero => rfl
  | succ k ih => rw [encodeDigits, length_append, ih, length_singleton]

theorem mem_encodeDigits {k n : Nat} {c : Char} (h : c ∈ encodeDigits k n) :
    isSpace c = false ∧ isSign c = false ∧ isNumeric c = true ∧ c ≠ 'x' ∧ c ≠ 'X' := by
  have key : ∀ n : Fin 16, isSpace (hexChar n) = false ∧ isSign (hexChar n) = false ∧
      isNumeric (hexChar n) = true ∧ hexChar n ≠ 'x' ∧ hexChar n ≠ 'X' := by decide
  induction k generalizing n with
  | zero => cases h
  | succ k ih =>
    rcases mem_append.1 h with h | h
    · exact ih h
    · rw [mem_singleton.1 h]
      exact key ⟨n % 16, Nat.mod_lt _ (by omega)⟩

theorem readDigits_encodeDigits (k n : Nat) : readDigits (encodeDigits k n) = some (n % 16 ^ k) := by
  induction k generalizing n with
  | zero => simp [encodeDigits, readDigits, Nat.mod_one]
  | succ k ih =>
    have hdig := ih (n / 16)
    unfold readDigits at hdig ⊢
    rw [encodeDigits, foldlM_append, hdig]
    have hlast : hexDigit (hexChar (n % 16)) = some (n % 16) :=
      hexDigit_hexChar (Nat.mod_lt _ (by omega))
    simp only [bind_eq_bind, bind_some, foldlM_cons, foldlM_nil, hlast, map_some, Option.pure_def]
    rw [Nat.pow_succ', Nat.mod_mul, Nat.add_comm]

end Futurehead
