import Mathlib.Data.Finset.Card
import Mathlib.Data.List.Nodup

/-!
# Queues with unique keys

A queue keeps its entries in the order in which they came, with at most one entry for each key. An
entry whose key is there already is not taken: it changes neither the value nor the order. A bounded
queue drops its oldest entry when it gets too long.
-/

universe u v

/-- Entries in the order in which they came, one for each key. -/
structure UniqueQueue (K : Type u) (V : Type v) where
  entries : List (K × V)
  nodup : (entries.map Prod.fst).Nodup

namespace UniqueQueue

open List

variable {K : Type u} {V : Type v} [DecidableEq K] {q : UniqueQueue K V} {k k' : K} {x x' : V}
  {n : Nat} {s : Finset K}

def empty : UniqueQueue K V := ⟨[], nodup_nil⟩

def keys (q : UniqueQueue K V) : List K := q.entries.map Prod.fst

def find? (q : UniqueQueue K V) (k : K) : Option V :=
  (q.entries.find? fun e => e.1 = k).map Prod.snd

/-- A new entry at the back, unless the key is there. -/
def emplaceBack (q : UniqueQueue K V) (k : K) (x : V) : UniqueQueue K V :=
  if h : k ∈ q.keys then q
  else ⟨q.entries ++ [(k, x)], by
    rw [map_append, nodup_append]
    exact ⟨q.nodup, nodup_singleton k, by rintro a ha b hb rfl; simp_all [keys]⟩⟩

def popFront (q : UniqueQueue K V) : UniqueQueue K V :=
  ⟨q.entries.tail, q.nodup.sublist (q.entries.tail_sublist.map _)⟩

/-- The oldest entry is dropped if there are more than `n`. -/
def bound (n : Nat) (q : UniqueQueue K V) : UniqueQueue K V :=
  if n < q.entries.length then q.popFront else q

def modify (q : UniqueQueue K V) (k : K) (f : V → V) : UniqueQueue K V :=
  ⟨q.entries.map fun e => if e.1 = k then (e.1, f e.2) else e, by
    have hkeys : Prod.fst ∘ (fun e : K × V => if e.1 = k then (e.1, f e.2) else e) = Prod.fst := by
      funext e
      simp only [Function.comp_apply, apply_ite Prod.fst, ite_self]
    rw [map_map, hkeys]
    exact q.nodup⟩

def erase (q : UniqueQueue K V) (k : K) : UniqueQueue K V :=
  ⟨q.entries.filter fun e => e.1 ≠ k, q.nodup.sublist (filter_sublist.map _)⟩

/-- The entry of a key, with the keys of all entries behind it in `s`. -/
def Behind (q : UniqueQueue K V) (k : K) (x : V) (s : Finset K) : Prop :=
  ∃ front back, q.entries = front ++ (k, x) :: back ∧ ∀ e ∈ back, e.1 ∈ s

/-! ## Entries that stay -/

theorem behind_emplaceBack (h : k ∉ q.keys) (x : V) (s : Finset K) :
    (q.emplaceBack k x).Behind k x s :=
  ⟨q.entries, [], by rw [emplaceBack, dif_neg h], nofun⟩

theorem Behind.emplaceBack (h : q.Behind k x s) (hk : k' ∈ s) (x' : V) :
    (q.emplaceBack k' x').Behind k x s := by
  obtain ⟨front, back, heq, hback⟩ := h
  unfold UniqueQueue.emplaceBack
  split
  · exact ⟨front, back, heq, hback⟩
  · refine ⟨front, back ++ [(k', x')], ?_, ?_⟩
    · simp only [heq, append_assoc, cons_append]
    · intro e he
      rcases mem_append.1 he with he | he
      · exact hback e he
      · cases mem_singleton.1 he
        exact hk

theorem Behind.erase (h : q.Behind k x s) (hk : k ≠ k') : (q.erase k').Behind k x s := by
  obtain ⟨front, back, heq, hback⟩ := h
  refine ⟨front.filter fun e => e.1 ≠ k', back.filter fun e => e.1 ≠ k', ?_, ?_⟩
  · have hkeep : decide (k ≠ k') = true := decide_eq_true hk
    simp only [UniqueQueue.erase, heq, filter_append, filter_cons, hkeep, if_true]
  · exact fun e he => hback e (mem_of_mem_filter he)

theorem Behind.length_le {front back : List (K × V)} (heq : q.entries = front ++ (k, x) :: back)
    (hback : ∀ e ∈ back, e.1 ∈ s) : back.length ≤ s.card := by
  have hnd : (back.map Prod.fst).Nodup := by
    have h := q.nodup
    rw [heq, map_append, map_cons] at h
    exact h.of_append_right.of_cons
  have hsub : (back.map Prod.fst).toFinset ⊆ s := by
    intro k' hk'
    obtain ⟨e, he, rfl⟩ := mem_map.1 (mem_toFinset.1 hk')
    exact hback e he
  have hcard := Finset.card_le_card hsub
  rwa [toFinset_card_of_nodup hnd, length_map] at hcard

theorem Behind.bound (h : q.Behind k x s) (hs : s.card < n) : (q.bound n).Behind k x s := by
  obtain ⟨front, back, heq, hback⟩ := h
  unfold UniqueQueue.bound
  split
  · rename_i hlong
    cases front with
    | nil =>
      -- only the entries behind it could push it out, and there are not enough of them
      have hlen := Behind.length_le heq hback
      rw [heq] at hlong
      simp at hlong
      omega
    | cons e front => exact ⟨front, back, by simp only [popFront, heq, cons_append, tail_cons], hback⟩
  · exact ⟨front, back, heq, hback⟩

theorem Behind.find? (h : q.Behind k x s) : q.find? k = some x := by
  obtain ⟨front, back, heq, -⟩ := h
  have hfro (e : K × V) (he : e ∈ front) : ¬ decide (e.1 = k) := by
    intro hek
    have hnd := q.nodup
    rw [heq, map_append, map_cons] at hnd
    have hdisj := disjoint_of_nodup_append hnd
    exact hdisj (mem_map_of_mem he) (by rw [of_decide_eq_true hek]; exact mem_cons_self)
  have hnone : front.find? (fun e => decide (e.1 = k)) = none := List.find?_eq_none.2 hfro
  rw [UniqueQueue.find?, heq, find?_append, hnone, Option.none_or, find?_cons_of_pos (by simp),
    Option.map_some]

/-! ## Entries that are not replaced -/

theorem find?_eq_none : q.find? k = none ↔ k ∉ q.keys := by
  simp only [find?, Option.map_eq_none_iff, List.find?_eq_none, decide_eq_true_eq, keys,
    mem_map, not_exists, not_and]

theorem mem_of_find? (h : q.find? k = some x) : (k, x) ∈ q.entries := by
  obtain ⟨e, he, rfl⟩ := Option.map_eq_some_iff.1 h
  have hk : e.1 = k := by simpa using find?_some he
  rw [← hk]
  exact mem_of_find?_eq_some he

theorem emplaceBack_of_mem (h : k ∈ q.keys) (x : V) : q.emplaceBack k x = q := dif_pos h

omit [DecidableEq K] in
theorem bound_of_length_le (h : q.entries.length ≤ n) : q.bound n = q := if_neg (by omega)

theorem length_bound_emplaceBack (h : q.entries.length ≤ n) (x : V) :
    ((q.emplaceBack k x).bound n).entries.length ≤ n := by
  have hlen : (q.emplaceBack k x).entries.length ≤ n + 1 := by
    unfold emplaceBack
    split
    · omega
    · rw [length_append, length_singleton]
      omega
  unfold bound
  split
  · rw [popFront, length_tail]
    omega
  · omega

theorem length_erase_le : (q.erase k).entries.length ≤ q.entries.length := length_filter_le _ _

theorem find?_emplaceBack_ne (h : k ≠ k') (x' : V) : (q.emplaceBack k' x').find? k = q.find? k := by
  unfold emplaceBack
  split
  · rfl
  · simp [find?, find?_append, h.symm]

theorem find?_erase_ne (h : k ≠ k') : (q.erase k').find? k = q.find? k := by
  have hsame (e : K × V) : decide (decide (e.1 ≠ k') = true ∧ decide (e.1 = k) = true) =
      decide (e.1 = k) := by
    by_cases he : e.1 = k
    · simp [he, h]
    · simp [he]
  simp only [find?, erase, find?_filter, hsame]

theorem find?_popFront : q.popFront.find? k = q.find? k ∨ q.popFront.find? k = none := by
  cases heq : q.entries with
  | nil =>
    left
    simp [find?, popFront, heq]
  | cons e rest =>
    by_cases hk : e.1 = k
    · right
      have hnd := q.nodup
      rw [heq, map_cons, nodup_cons] at hnd
      simp only [find?_eq_none, keys, popFront, heq, tail_cons, ← hk]
      exact hnd.1
    · left
      simp [find?, popFront, heq, hk]

theorem find?_bound : (q.bound n).find? k = q.find? k ∨ (q.bound n).find? k = none := by
  unfold bound
  split
  · exact find?_popFront
  · exact .inl rfl

theorem find?_erase_self : (q.erase k).find? k = none := by
  simp [find?_eq_none, keys, erase]

theorem find?_modify (f : V → V) :
    (q.modify k f).find? k' = if k' = k then (q.find? k).map f else q.find? k' := by
  have hkey (e : K × V) : (decide ((if e.1 = k then (e.1, f e.2) else e).1 = k')) = decide (e.1 = k') := by
    simp only [apply_ite Prod.fst, ite_self]
  simp only [find?, modify, find?_map, Function.comp_def, hkey, Option.map_map]
  split
  · rename_i hk
    subst hk
    refine Option.map_congr fun e he => ?_
    have hek : e.1 = k' := by simpa using find?_some he
    simp [hek]
  · rename_i hk
    refine Option.map_congr fun e he => ?_
    have hek : e.1 = k' := by simpa using find?_some he
    simp [hek, hk]

theorem modify_perm (h : k ∈ q.keys) : (q.modify k fun _ => x).entries.Perm ((k, x) :: (q.erase k).entries) := by
  obtain ⟨e, he, rfl⟩ := mem_map.1 h
  obtain ⟨front, back, heq⟩ := append_of_mem he
  have hnd := q.nodup
  rw [heq, map_append, map_cons, nodup_middle, nodup_cons, ← map_append] at hnd
  have hne : ∀ e' ∈ front ++ back, e'.1 ≠ e.1 := fun e' he' hkey => hnd.1 (hkey ▸ mem_map_of_mem he')
  have hkeep (l : List (K × V)) (hl : l ⊆ front ++ back) :
      (l.map fun e' => if e'.1 = e.1 then (e'.1, x) else e') = l :=
    (map_congr_left fun e' he' => if_neg (hne e' (hl he'))).trans (map_id' l)
  have hmodify : (q.modify e.1 fun _ => x).entries = front ++ (e.1, x) :: back := by
    simp only [modify, heq, map_append, map_cons, if_true,
      hkeep front (subset_append_left front back), hkeep back (subset_append_right front back)]
  have herase : (q.erase e.1).entries = front ++ back := by
    rw [← filter_eq_self.2 fun e' he' => decide_eq_true (hne e' he')]
    simp [erase, heq]
  rw [hmodify, herase]
  exact perm_middle

theorem mem_emplaceBack {e : K × V} (h : e ∈ (q.emplaceBack k x).entries) :
    e ∈ q.entries ∨ e = (k, x) := by
  unfold emplaceBack at h
  split at h
  · exact .inl h
  · simpa using h

omit [DecidableEq K] in
theorem mem_bound {e : K × V} (h : e ∈ (q.bound n).entries) : e ∈ q.entries := by
  unfold bound at h
  split at h
  · exact mem_of_mem_tail h
  · exact h

theorem mem_erase {e : K × V} (h : e ∈ (q.erase k).entries) : e ∈ q.entries :=
  mem_of_mem_filter h

end UniqueQueue
