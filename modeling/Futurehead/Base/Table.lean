import Mathlib.Data.Finmap
import Mathlib.Algebra.Order.BigOperators.Group.Multiset
import Mathlib.Algebra.Order.Group.Nat

/-!
# Tables

A key-value table is a `Finmap` with one value type. This file adds what the developments over it
need and `Mathlib.Data.Finmap` does not have.
-/

universe u v w

abbrev Table (K : Type u) (V : Type v) := Finmap (fun _ : K => V)

namespace Finmap

open Multiset

variable {K : Type u} {V : Type v} [DecidableEq K]

theorem lookup_insert_eq (m : Table K V) (k k' : K) (x : V) :
    (m.insert k x).lookup k' = if k' = k then some x else m.lookup k' := by
  split
  · rename_i h; subst h; exact lookup_insert m
  · rename_i h; exact lookup_insert_of_ne m h

theorem lookup_erase_eq (m : Table K V) (k k' : K) :
    (m.erase k).lookup k' = if k' = k then none else m.lookup k' := by
  split
  · rename_i h; subst h; exact lookup_erase _ m
  · rename_i h; exact lookup_erase_ne h

variable {m : Table K V} {k k' : K} {x y : V}

theorem lookup_insert_eq_some (h : k ∉ m) :
    (m.insert k x).lookup k' = some y ↔ k' = k ∧ x = y ∨ m.lookup k' = some y := by
  rw [lookup_insert_eq]
  by_cases heq : k' = k
  · subst heq
    simp [lookup_eq_none.2 h]
  · simp [heq]

theorem lookup_erase_eq_some : (m.erase k).lookup k' = some y ↔ k' ≠ k ∧ m.lookup k' = some y := by
  rw [lookup_erase_eq]
  by_cases heq : k' = k
  · simp [heq]
  · simp [heq]

theorem insert_erase (m : Table K V) (k : K) (x : V) : (m.erase k).insert k x = m.insert k x := by
  apply ext_lookup
  intro k'
  simp only [lookup_insert_eq, lookup_erase_eq]
  split <;> rfl

theorem insert_erase_of_lookup (h : m.lookup k = some x) : (m.erase k).insert k x = m := by
  apply ext_lookup
  intro k'
  simp only [lookup_insert_eq, lookup_erase_eq]
  split
  · rename_i e; rw [e, h]
  · rfl

theorem insert_of_lookup (h : m.lookup k = some x) : m.insert k x = m := by
  rw [← insert_erase, insert_erase_of_lookup h]

theorem erase_of_lookup_none (h : m.lookup k = none) : m.erase k = m := by
  apply ext_lookup
  intro k'
  rw [lookup_erase_eq]
  split
  · rename_i e; rw [e, h]
  · rfl

section

variable {M : Type w} [AddCommMonoid M]

/-- The sum of `f` over the values of a table. -/
def total (f : V → M) (m : Table K V) : M := (m.entries.map fun e => f e.2).sum

/-- The list holds the values of the table, each as often as the table. -/
def Lists (m : Table K V) (values : List V) : Prop := m.entries.map (·.2) = (values : Multiset V)

omit [DecidableEq K] in
theorem total_of_lists {m : Table K V} {values : List V} (f : V → M) (h : m.Lists values) :
    total f m = (values.map f).sum := by
  have hmap : m.entries.map (fun e => f e.2) = (m.entries.map (·.2)).map f := by
    rw [map_map]; rfl
  rw [total, hmap, h, map_coe, sum_coe]

omit [DecidableEq K] in
@[simp] theorem total_empty (f : V → M) : total f (∅ : Table K V) = 0 := rfl

theorem total_insert_of_notMem {m : Table K V} {k : K} (f : V → M) (x : V) (h : k ∉ m) :
    total f (m.insert k x) = f x + total f m := by
  unfold total
  rw [entries_insert_of_notMem h, map_cons, sum_cons]

theorem total_erase {m : Table K V} {k : K} {x : V} (f : V → M) (h : m.lookup k = some x) :
    total f m = f x + total f (m.erase k) := by
  conv => lhs; rw [← insert_erase_of_lookup h]
  exact total_insert_of_notMem f x notMem_erase_self

theorem total_split (f : V → M) (m : Table K V) (k : K) :
    total f m = ((m.lookup k).map f).getD 0 + total f (m.erase k) := by
  cases h : m.lookup k with
  | none => simp [erase_of_lookup_none h]
  | some x => simp [total_erase f h]

theorem total_eq_of_lookup_ne (f : V → M) {m m' : Table K V} (k : K)
    (h : ∀ k' ≠ k, m'.lookup k' = m.lookup k') :
    total f m' + ((m.lookup k).map f).getD 0 = total f m + ((m'.lookup k).map f).getD 0 := by
  have herase : m'.erase k = m.erase k := by
    apply ext_lookup
    intro k'
    rw [lookup_erase_eq, lookup_erase_eq]
    split
    · rfl
    · rename_i hk; exact h k' hk
  rw [total_split f m' k, total_split f m k, herase]
  ac_rfl

omit [DecidableEq K] in
theorem map_total {N : Type*} [AddCommMonoid N] (g : M →+ N) (f : V → M) (m : Table K V) :
    total (fun x => g (f x)) m = g (total f m) := by
  unfold total
  rw [map_multiset_sum, map_map]
  rfl

end

theorem le_total (f : V → Nat) (h : m.lookup k = some x) : f x ≤ total f m := by
  rw [total_erase f h]; omega

/-- Only one entry of a table has a given key. -/
theorem sum_entries_of_key (m : Table K V) (k : K) (f : V → Nat) :
    (m.entries.map fun e => if e.1 = k then f e.2 else 0).sum = ((m.lookup k).map f).getD 0 := by
  have hrest (m : Table K V) (h : k ∉ m) :
      (m.entries.map fun e => if e.1 = k then f e.2 else 0).sum = 0 := by
    refine sum_eq_zero fun n hn => ?_
    obtain ⟨e, he, rfl⟩ := mem_map.1 hn
    refine if_neg ?_
    rintro rfl
    exact h (mem_map_of_mem Sigma.fst he)
  cases h : m.lookup k with
  | none => exact hrest m (Finmap.lookup_eq_none.1 h)
  | some x =>
    conv => lhs; rw [← insert_erase_of_lookup h]
    rw [entries_insert_of_notMem notMem_erase_self, map_cons, sum_cons,
      hrest _ notMem_erase_self, if_pos rfl]
    rfl

omit [DecidableEq K] in
theorem total_mono (m : Table K V) {f g : V → Nat} (h : ∀ x, f x ≤ g x) : total f m ≤ total g m :=
  sum_map_le_sum_map _ _ fun e _ => h e.2

omit [DecidableEq K] in
theorem card_keys_eq_total (m : Table K V) : m.keys.card = total (fun _ => 1) m := by
  unfold total keys
  simp [Multiset.keys]

theorem card_keys_of_lookup_ne {m' : Table K V} (k : K) (h : ∀ k' ≠ k, m'.lookup k' = m.lookup k') :
    m'.keys.card + (if k ∈ m then 1 else 0) = m.keys.card + (if k ∈ m' then 1 else 0) := by
  have := total_eq_of_lookup_ne (fun _ => 1) k h
  rw [card_keys_eq_total, card_keys_eq_total]
  convert this using 2
  · cases hk : m.lookup k <;> simp [← lookup_isSome, hk]
  · cases hk : m'.lookup k <;> simp [← lookup_isSome, hk]

end Finmap
