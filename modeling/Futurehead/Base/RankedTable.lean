import Futurehead.Base.UniqueQueue
import Mathlib.Data.List.Sort

/-!
# Ranked tables

A table has one entry for each key and keeps its entries in the order of their numbers, the greatest
first. A new entry comes after those with the same number. `Best` says that the kept ones are the greatest
of all that were offered.
-/

universe u v

/-- One entry for each key, the greatest number first. -/
structure RankedTable (K : Type u) extends UniqueQueue K Nat where
  ordered : entries.Pairwise fun x y => y.2 ≤ x.2

namespace RankedTable

variable {K : Type u} {t : RankedTable K} {x : K × Nat}

def empty : RankedTable K := ⟨.empty, .nil⟩

def size (t : RankedTable K) : Nat := t.entries.length

def eraseLast (t : RankedTable K) : RankedTable K where
  entries := t.entries.dropLast
  nodup := t.nodup.sublist ((List.dropLast_sublist _).map _)
  ordered := t.ordered.sublist (List.dropLast_sublist _)

theorem eraseLast_spec {least : K × Nat} (h : t.entries.getLast? = some least) :
    t.entries.Perm (least :: t.eraseLast.entries) ∧ ∀ y ∈ t.eraseLast.entries, least.2 ≤ y.2 := by
  have heq : t.eraseLast.entries ++ [least] = t.entries := List.dropLast_append_getLast? _ h
  have hord := t.ordered
  rw [← heq] at hord ⊢
  exact ⟨List.perm_append_singleton _ _,
    fun y hy => (List.pairwise_append.1 hord).2.2 y hy least List.mem_cons_self⟩

theorem ordered_insert {l : List (K × Nat)} (h : l.Pairwise fun x y => y.2 ≤ x.2) :
    (l.orderedInsert (fun x y => y.2 < x.2) x).Pairwise fun x y => y.2 ≤ x.2 := by
  induction l with
  | nil => exact List.pairwise_singleton _ _
  | cons y l ih =>
    obtain ⟨hy, hl⟩ := List.pairwise_cons.1 h
    rw [List.orderedInsert_cons]
    split
    · next hlt =>
      refine List.pairwise_cons.2 ⟨fun z hz => ?_, h⟩
      obtain rfl | hz := List.mem_cons.1 hz
      · exact hlt.le
      · exact (hy z hz).trans hlt.le
    · next hle =>
      refine List.pairwise_cons.2 ⟨fun z hz => ?_, ih hl⟩
      obtain rfl | hz := List.mem_orderedInsert _ |>.1 hz
      · exact Nat.le_of_not_lt hle
      · exact hy z hz

variable [DecidableEq K]

def erase (t : RankedTable K) (key : K) : RankedTable K :=
  ⟨t.toUniqueQueue.erase key, t.ordered.sublist List.filter_sublist⟩

/-- A key that is there already is left as it is. -/
def emplace (t : RankedTable K) (x : K × Nat) : RankedTable K :=
  if h : x.1 ∈ t.keys then t
  else
    { entries := t.entries.orderedInsert (fun x y => y.2 < x.2) x
      nodup := (((List.perm_orderedInsert _ x _).map _).nodup_iff).2 (List.nodup_cons.2 ⟨h, t.nodup⟩)
      ordered := ordered_insert t.ordered }

/-- An entry stays where it is if it is still in order with the others, and is placed anew otherwise. -/
def modify (t : RankedTable K) (x : K × Nat) : RankedTable K :=
  if h : (t.toUniqueQueue.modify x.1 fun _ => x.2).entries.Pairwise fun x y => y.2 ≤ x.2 then ⟨_, h⟩
  else (t.erase x.1).emplace x

theorem emplace_perm (h : x.1 ∉ t.keys) : (t.emplace x).entries.Perm (x :: t.entries) := by
  rw [emplace, dif_neg h]
  exact List.perm_orderedInsert _ x t.entries

theorem modify_perm (h : x.1 ∈ t.keys) : (t.modify x).entries.Perm (x :: (t.erase x.1).entries) := by
  unfold modify
  split
  · exact UniqueQueue.modify_perm h
  · exact emplace_perm (UniqueQueue.find?_eq_none.1 UniqueQueue.find?_erase_self)

end RankedTable

/-- As many of `offers` are kept as there may be, and none of the others is greater. -/
def Best {α : Type u} {β : Type v} [LE β] (key : α → β) (max : Nat) (offers kept : List α) : Prop :=
  kept.length = min max offers.length ∧
    ∃ rest, offers.Perm (kept ++ rest) ∧ ∀ x ∈ rest, ∀ y ∈ kept, key x ≤ key y

namespace Best

variable {α : Type u} {β : Type v} [Preorder β] {key : α → β} {max : Nat} {offers kept : List α} {x : α}

theorem perm {offers' kept' : List α} (h : Best key max offers kept) (ho : offers.Perm offers')
    (hk : kept.Perm kept') : Best key max offers' kept' := by
  obtain ⟨hlen, rest, hperm, hle⟩ := h
  refine ⟨by rw [← hk.length_eq, ← ho.length_eq]; exact hlen, rest, ?_, fun x hx y hy => ?_⟩
  · exact ho.symm.trans (hperm.trans (hk.append_right rest))
  · exact hle x hx y (hk.mem_iff.2 hy)

theorem add (h : Best key max offers kept) (hroom : kept.length < max) :
    Best key max (x :: offers) (x :: kept) := by
  obtain ⟨hlen, rest, hperm, -⟩ := h
  have hsum := hperm.length_eq
  rw [List.length_append] at hsum
  obtain rfl : rest = [] := List.eq_nil_of_length_eq_zero (by omega)
  refine ⟨by rw [List.length_cons, List.length_cons]; omega, [], hperm.cons x, fun _ hx => ?_⟩
  cases hx

theorem pass (h : Best key max offers kept) (hfull : kept.length = max)
    (hx : ∀ y ∈ kept, key x ≤ key y) : Best key max (x :: offers) kept := by
  obtain ⟨hlen, rest, hperm, hle⟩ := h
  refine ⟨by rw [List.length_cons]; omega, x :: rest, (hperm.cons x).trans List.perm_middle.symm,
    List.forall_mem_cons.2 ⟨hx, hle⟩⟩

/-- A greater one takes the place of the least. -/
theorem exchange {least : α} {others : List α} (h : Best key max offers (least :: others))
    (hfull : (least :: others).length = max) (hleast : ∀ y ∈ others, key least ≤ key y)
    (hx : key least ≤ key x) : Best key max (x :: offers) (x :: others) := by
  obtain ⟨hlen, rest, hperm, hle⟩ := h
  rw [List.length_cons] at hfull hlen
  refine ⟨by rw [List.length_cons, List.length_cons]; omega, least :: rest,
    (hperm.trans List.perm_middle.symm).cons x, fun z hz => ?_⟩
  have hz : key z ≤ key least := by
    obtain rfl | hz := List.mem_cons.1 hz
    · exact le_rfl
    · exact hle z hz least List.mem_cons_self
  exact List.forall_mem_cons.2 ⟨hz.trans hx, fun y hy => hz.trans (hleast y hy)⟩

end Best
