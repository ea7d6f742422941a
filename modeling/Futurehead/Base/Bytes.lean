import Mathlib.Data.BitVec
import Mathlib.Data.Vector.Basic
import Mathlib.Tactic.Ring

/-!
# Byte strings and fixed-size formats

A `Format` writes the values of a type as byte strings of one size and knows how to decode them. A
stream is a byte string that is read from the front, and a read fails if it is too short.
-/

abbrev Byte := BitVec 8

abbrev Bytes := List Byte

/-- What reads a value from the front of a stream. -/
abbrev Reader (α : Type) := StateT Bytes Option α

theorem Reader.pure_apply {α : Type} (a : α) (bytes : Bytes) :
    (pure a : Reader α) bytes = some (a, bytes) := rfl

/-! ## Numbers -/

/-- The first `n` little-endian bytes of a number. -/
def bytesLE : Nat → Nat → Bytes
  | 0, _ => []
  | n + 1, x => BitVec.ofNat 8 x :: bytesLE n (x / 256)

def natLE : Bytes → Nat
  | [] => 0
  | b :: bytes => b.toNat + 256 * natLE bytes

theorem length_bytesLE (n x : Nat) : (bytesLE n x).length = n := by
  induction n generalizing x with
  | zero => rfl
  | succ n ih => rw [bytesLE, List.length_cons, ih]

theorem natLE_bytesLE {n x : Nat} (h : x < 256 ^ n) : natLE (bytesLE n x) = x := by
  induction n generalizing x with
  | zero => simp at h; simp [bytesLE, natLE, h]
  | succ n ih =>
    have hdiv : x / 256 < 256 ^ n := by
      rw [pow_succ] at h
      exact Nat.div_lt_of_lt_mul (by rwa [Nat.mul_comm] at h)
    rw [bytesLE, natLE, ih hdiv, BitVec.toNat_ofNat]
    omega

theorem bytesLE_natLE (bytes : Bytes) :
    bytesLE bytes.length (natLE bytes) = bytes ∧ natLE bytes < 256 ^ bytes.length := by
  induction bytes with
  | nil => exact ⟨rfl, by simp [natLE]⟩
  | cons b bytes ih =>
    have hb := b.isLt
    have hdiv : (b.toNat + 256 * natLE bytes) / 256 = natLE bytes := by omega
    have hmod : BitVec.ofNat 8 (b.toNat + 256 * natLE bytes) = b :=
      BitVec.eq_of_toNat_eq (by rw [BitVec.toNat_ofNat]; omega)
    refine ⟨by rw [natLE, List.length_cons, bytesLE, hdiv, hmod, ih.1], ?_⟩
    rw [natLE, List.length_cons, pow_succ]
    omega

/-! ## Readers -/

/-- A successful read takes `n` bytes of the stream. -/
def Takes {α : Type} (reader : Reader α) (n : Nat) : Prop :=
  ∀ bytes x rest, reader bytes = some (x, rest) → bytes.length = n + rest.length

namespace Takes

variable {α β : Type} {reader : Reader α} {n m : Nat}

theorem pure (x : α) : Takes (Pure.pure x) 0 := by
  rintro bytes _ _ ⟨⟩
  exact (Nat.zero_add _).symm

theorem bind {next : α → Reader β} (h : Takes reader n) (hnext : ∀ x, Takes (next x) m) :
    Takes (reader >>= next) (n + m) := by
  intro bytes y rest hread
  obtain ⟨⟨x, mid⟩, hx, hy⟩ := Option.bind_eq_some_iff.1 hread
  rw [h _ _ _ hx, hnext x _ _ _ hy, Nat.add_assoc]

theorem map (f : α → β) (h : Takes reader n) : Takes (f <$> reader) n := h.bind fun x => .pure (f x)

end Takes

/-! ## Formats -/

/-- A type whose values are written as byte strings of one size. -/
structure Format (α : Type) where
  size : Nat
  write : α → Bytes
  decode : Bytes → α
  length_write : ∀ x, (write x).length = size
  decode_write : ∀ x, decode (write x) = x

namespace Format

variable {α : Type} (f : Format α)

attribute [simp] length_write

/-- Reads a value, or fails if the stream is too short. -/
def read : Reader α := fun bytes =>
  if f.size ≤ bytes.length then some (f.decode (bytes.take f.size), bytes.drop f.size) else none

@[simp] theorem read_write (x : α) (rest : Bytes) :
    f.read (f.write x ++ rest) = some (x, rest) := by
  unfold read
  rw [if_pos (by simp), List.take_left' (f.length_write x), List.drop_left' (f.length_write x),
    f.decode_write]

theorem takes_read : Takes f.read f.size := by
  intro bytes x rest h
  unfold read at h
  split at h
  · cases h
    rw [List.length_drop]
    omega
  · cases h

@[simp] theorem read_write_nil (x : α) : f.read (f.write x) = some (x, []) := by
  simpa using f.read_write x []

@[simp] theorem read_write_bind {β : Type} (next : α → Reader β) (x : α) (rest : Bytes) :
    (f.read >>= next) (f.write x ++ rest) = next x rest := by
  simp only [bind, StateT.bind, read_write, Option.bind_some]

@[simp] theorem read_write_nil_bind {β : Type} (next : α → Reader β) (x : α) :
    (f.read >>= next) (f.write x) = next x [] := by
  simpa using f.read_write_bind next x []

theorem write_append_inj {x y : α} {r s : Bytes} :
    f.write x ++ r = f.write y ++ s ↔ x = y ∧ r = s := by
  refine ⟨fun h => ?_, fun ⟨hx, hr⟩ => by rw [hx, hr]⟩
  have hread := f.read_write x r
  rw [h, f.read_write] at hread
  cases hread
  exact ⟨rfl, rfl⟩

theorem write_inj {x y : α} : f.write x = f.write y ↔ x = y := by
  simpa using f.write_append_inj (x := x) (y := y) (r := []) (s := [])

@[simp] theorem length_flatMap_write (xs : List α) :
    (xs.flatMap f.write).length = f.size * xs.length := by
  induction xs with
  | nil => simp
  | cons x xs ih => rw [List.flatMap_cons, List.length_append, ih, length_write, List.length_cons]; ring

theorem flatMap_write_inj {xs ys : List α} (hl : xs.length = ys.length)
    (h : xs.flatMap f.write = ys.flatMap f.write) : xs = ys := by
  induction xs generalizing ys with
  | nil => exact (List.length_eq_zero_iff.1 hl.symm).symm
  | cons x xs ih =>
    cases ys with
    | nil => cases hl
    | cons y ys =>
      rw [List.flatMap_cons, List.flatMap_cons, write_append_inj] at h
      rw [h.1, ih (Nat.succ.inj hl) h.2]

private theorem toNat_lt {w n : Nat} (h : w ≤ 8 * n) (x : BitVec w) : x.toNat < 256 ^ n := by
  calc x.toNat < 2 ^ w := x.isLt
    _ ≤ 2 ^ (8 * n) := Nat.pow_le_pow_right (by decide) h
    _ = 256 ^ n := by rw [Nat.pow_mul]

/-- A word in `n` little-endian bytes. -/
def wordLE (w n : Nat) (h : w ≤ 8 * n) : Format (BitVec w) where
  size := n
  write x := bytesLE n x.toNat
  decode bytes := BitVec.ofNat w (natLE bytes)
  length_write x := length_bytesLE n x.toNat
  decode_write x := by rw [natLE_bytesLE (toNat_lt h x), BitVec.ofNat_toNat, BitVec.setWidth_eq]

/-- A word in `n` big-endian bytes. -/
def word (w n : Nat) (h : w ≤ 8 * n) : Format (BitVec w) where
  size := n
  write x := (bytesLE n x.toNat).reverse
  decode bytes := BitVec.ofNat w (natLE bytes.reverse)
  length_write x := by rw [List.length_reverse, length_bytesLE]
  decode_write x := by
    rw [List.reverse_reverse, natLE_bytesLE (toNat_lt h x), BitVec.ofNat_toNat, BitVec.setWidth_eq]

/-- Every byte string of the size is what some value writes. -/
def Exact (f : Format α) : Prop := ∀ bytes, bytes.length = f.size → f.write (f.decode bytes) = bytes

theorem wordLE_exact {w n : Nat} (h : w ≤ 8 * n) (hw : 8 * n ≤ w) : (wordLE w n h).Exact := by
  intro bytes hlen
  obtain ⟨hbytes, hlt⟩ := bytesLE_natLE bytes
  obtain rfl : w = 8 * n := by omega
  change bytesLE n (BitVec.ofNat (8 * n) (natLE bytes)).toNat = bytes
  change bytes.length = n at hlen
  rw [hlen] at hbytes hlt
  rw [BitVec.toNat_ofNat, Nat.mod_eq_of_lt (by rwa [Nat.pow_mul]), hbytes]

theorem word_exact {w n : Nat} (h : w ≤ 8 * n) (hw : 8 * n ≤ w) : (word w n h).Exact := by
  intro bytes hlen
  have hexact := wordLE_exact h hw bytes.reverse (List.length_reverse.trans hlen)
  exact (congrArg List.reverse hexact).trans (List.reverse_reverse bytes)

variable {f}

theorem Exact.read_bind {β : Type} (hf : f.Exact) {next : α → Reader β} {bytes rest : Bytes} {y : β} :
    (f.read >>= next) bytes = some (y, rest) ↔
      ∃ x tail, bytes = f.write x ++ tail ∧ next x tail = some (y, rest) := by
  constructor
  · intro h
    obtain ⟨⟨x, tail⟩, hread, hnext⟩ := Option.bind_eq_some_iff.1 h
    unfold read at hread
    split at hread
    · rename_i hlen
      cases hread
      refine ⟨_, _, ?_, hnext⟩
      rw [hf _ (List.length_take_of_le hlen), List.take_append_drop]
    · cases hread
  · rintro ⟨x, tail, rfl, hnext⟩
    rw [read_write_bind, hnext]

end Format

/-! ## Lists -/

/-- Reads `n` values. -/
def readMany {α : Type} (reader : Reader α) : (n : Nat) → Reader (List.Vector α n)
  | 0 => pure .nil
  | n + 1 => do
    let x ← reader
    let xs ← readMany reader n
    pure (x ::ᵥ xs)

theorem readMany_flatMap {α : Type} {reader : Reader α} {write : α → Bytes} {n : Nat}
    (h : ∀ x rest, reader (write x ++ rest) = some (x, rest)) (xs : List.Vector α n)
    (rest : Bytes) : readMany reader n (xs.toList.flatMap write ++ rest) = some (xs, rest) := by
  induction xs using List.Vector.inductionOn with
  | nil => rfl
  | cons ih =>
    rw [List.Vector.toList_cons, List.flatMap_cons, List.append_assoc]
    simp only [readMany, bind, StateT.bind, h, Option.bind_some, ih]
    rfl

/-- Reads values while something is left of the stream, at most `n` of them. -/
def readUpTo {α : Type} (reader : Reader α) : Nat → Reader (List α)
  | _, [] => some ([], [])
  | 0, _ :: _ => none
  | n + 1, bytes => do
    let (x, rest) ← reader bytes
    let (xs, rest) ← readUpTo reader n rest
    some (x :: xs, rest)

/-- Reads values while something is left of the stream. Each of them takes at least one byte. -/
def readAll {α : Type} (reader : Reader α) : Reader (List α) :=
  fun bytes => readUpTo reader bytes.length bytes

theorem readUpTo_eq {α : Type} {reader : Reader α}
    {size : Nat} (h : Takes reader size) (hsize : 0 < size) {n m : Nat} {bytes : Bytes}
    (hn : bytes.length ≤ n) (hm : bytes.length ≤ m) :
    readUpTo reader n bytes = readUpTo reader m bytes := by
  induction n generalizing m bytes with
  | zero =>
    rw [List.length_eq_zero_iff.1 (Nat.le_zero.1 hn)]
    cases m <;> rfl
  | succ n ih =>
    cases bytes with
    | nil => cases m <;> rfl
    | cons b bytes =>
      cases m with
      | zero => cases hm
      | succ m =>
        simp only [readUpTo]
        cases hread : reader (b :: bytes) with
        | none => rfl
        | some value =>
          have hlen := h _ _ _ hread
          rw [List.length_cons] at hlen hn hm
          simp only [bind, Option.bind_some]
          rw [ih (m := m) (by omega) (by omega)]

theorem readAll_cons {α : Type} {reader : Reader α}
    {size : Nat} (h : Takes reader size) (hsize : 0 < size) {bytes rest : Bytes} {x : α}
    (hx : reader bytes = some (x, rest)) :
    readAll reader bytes = (readAll reader rest).map fun (xs, rest) => (x :: xs, rest) := by
  have hlen := h _ _ _ hx
  cases bytes with
  | nil => rw [List.length_nil] at hlen; omega
  | cons b bytes =>
    rw [List.length_cons] at hlen
    simp only [readAll, List.length_cons, readUpTo, hx, bind, Option.bind_some]
    rw [readUpTo_eq h hsize (n := bytes.length) (m := rest.length) (by omega) le_rfl]
    cases readUpTo reader rest.length rest <;> rfl

theorem readAll_flatMap {α : Type} {reader : Reader α} {write : α → Bytes}
    {size : Nat} (htakes : Takes reader size) (hsize : 0 < size) {xs : List α}
    (h : ∀ x ∈ xs, ∀ rest, reader (write x ++ rest) = some (x, rest)) :
    readAll reader (xs.flatMap write) = some (xs, []) := by
  induction xs with
  | nil => rfl
  | cons x xs ih =>
    rw [List.flatMap_cons, readAll_cons htakes hsize (h x List.mem_cons_self _),
      ih fun y hy => h y (List.mem_cons_of_mem x hy)]
    rfl
