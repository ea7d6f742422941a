import Mathlib.Data.List.Basic

/-!
# Ordered tables

A table keeps its entries in the order of their keys, which is given by a number for each key. An entry
can be appended if its key comes after all others. A merge iterator goes through two tables at once and
tells from which one each entry is.
-/

universe u v w

/-- Entries in the order of their keys, one for each key. -/
structure OrderedTable (K : Type u) (V : Type v) (rank : K → Nat) where
  entries : List (K × V)
  ordered : entries.Pairwise fun x y => rank x.1 < rank y.1

namespace OrderedTable

variable {K : Type u} {V : Type v} {rank : K → Nat}

def empty : OrderedTable K V rank := ⟨[], List.Pairwise.nil⟩

def find? [DecidableEq K] (t : OrderedTable K V rank) (key : K) : Option V :=
  (t.entries.find? fun x => x.1 = key).map Prod.snd

/-- A new entry at the end, if its key is the greatest. -/
def append (t : OrderedTable K V rank) (x : K × V) : Option (OrderedTable K V rank) :=
  if h : ∀ y ∈ t.entries, rank y.1 < rank x.1 then
    some ⟨t.entries ++ [x], List.pairwise_append.2 ⟨t.ordered, List.pairwise_singleton _ _,
      fun y hy _ hz => List.mem_singleton.1 hz ▸ h y hy⟩⟩
  else none

theorem append_eq {t : OrderedTable K V rank} {x : K × V} (h : ∀ y ∈ t.entries, rank y.1 < rank x.1) :
    ∃ t', t.append x = some t' ∧ t'.entries = t.entries ++ [x] :=
  ⟨_, dif_pos h, rfl⟩

theorem appendAll_eq {xs : List (K × V)} {t : OrderedTable K V rank}
    (h : (t.entries ++ xs).Pairwise fun x y => rank x.1 < rank y.1) :
    ∃ t', xs.foldlM append t = some t' ∧ t'.entries = t.entries ++ xs := by
  induction xs generalizing t with
  | nil => exact ⟨t, rfl, (List.append_nil _).symm⟩
  | cons x xs ih =>
    obtain ⟨-, -, hcross⟩ := List.pairwise_append.1 h
    obtain ⟨t1, happend, hents⟩ := append_eq fun y hy => hcross y hy x List.mem_cons_self
    rw [← List.singleton_append, ← List.append_assoc, ← hents] at h
    obtain ⟨t', hrest, hents'⟩ := ih h
    refine ⟨t', by rw [List.foldlM_cons, happend]; exact hrest, ?_⟩
    rw [hents', hents, List.append_assoc, List.singleton_append]

/-- An entry that cannot be appended is lost. -/
def appendOrSkip (t : OrderedTable K V rank) (x : K × V) : OrderedTable K V rank := (t.append x).getD t

theorem foldl_appendOrSkip {xs : List (K × V)} {t t' : OrderedTable K V rank}
    (h : xs.foldlM append t = some t') : xs.foldl appendOrSkip t = t' := by
  induction xs generalizing t with
  | nil => exact Option.some.inj h
  | cons x xs ih =>
    rw [List.foldlM_cons] at h
    obtain ⟨t1, happend, hrest⟩ := Option.bind_eq_some_iff.1 h
    rw [List.foldl_cons, appendOrSkip, happend]
    exact ih hrest

theorem appendAll_filterMap {α : Type w} {key : α → K} {f : α → Option V} {xs : List α}
    (h : xs.Pairwise fun x y => rank (key x) < rank (key y)) :
    ∃ t : OrderedTable K V rank, (xs.filterMap fun x => (f x).map (key x, ·)).foldlM append empty = some t ∧
      ∀ k v, (k, v) ∈ t.entries ↔ ∃ x ∈ xs, key x = k ∧ f x = some v := by
  have hnew : (xs.filterMap fun x => (f x).map (key x, ·)).Pairwise fun x y => rank x.1 < rank y.1 := by
    refine List.pairwise_filterMap.2 (h.imp fun hlt x hx y hy => ?_)
    obtain ⟨_, -, rfl⟩ := Option.map_eq_some_iff.1 hx
    obtain ⟨_, -, rfl⟩ := Option.map_eq_some_iff.1 hy
    exact hlt
  obtain ⟨t, happend, hents⟩ := appendAll_eq (t := empty) hnew
  refine ⟨t, happend, fun k v => ?_⟩
  rw [hents, empty, List.nil_append, List.mem_filterMap]
  simp only [Option.map_eq_some_iff, Prod.mk.injEq]
  constructor
  · rintro ⟨x, hx, v, hv, rfl, rfl⟩
    exact ⟨x, hx, rfl, hv⟩
  · rintro ⟨x, hx, rfl, hv⟩
    exact ⟨x, hx, v, hv, rfl, rfl⟩

theorem mem_zip_iff {W : Type w} {xs : List (K × W)} {t : OrderedTable K V rank} {x : K × W} {y : K × V}
    (hkeys : xs.map Prod.fst = t.entries.map Prod.fst) :
    (x, y) ∈ xs.zip t.entries ↔ x ∈ xs ∧ y ∈ t.entries ∧ x.1 = y.1 := by
  obtain ⟨ys, hord⟩ := t
  dsimp only at hkeys ⊢
  induction xs generalizing ys with
  | nil => simp
  | cons x' xs ih =>
    cases ys with
    | nil => cases hkeys
    | cons y' ys =>
      obtain ⟨hkey, htail⟩ := List.cons.inj hkeys
      obtain ⟨hlt, hord⟩ := List.pairwise_cons.1 hord
      rw [List.zip_cons_cons, List.mem_cons, ih ys hord htail, Prod.mk.injEq, List.mem_cons,
        List.mem_cons]
      constructor
      · rintro (⟨rfl, rfl⟩ | ⟨hx, hy, heq⟩)
        · exact ⟨.inl rfl, .inl rfl, hkey⟩
        · exact ⟨.inr hx, .inr hy, heq⟩
      · rintro ⟨rfl | hx, rfl | hy, heq⟩
        · exact .inl ⟨rfl, rfl⟩
        · exact absurd (hlt y hy) (by rw [← heq, ← hkey]; exact Nat.lt_irrefl _)
        · have hmem : x.1 ∈ ys.map Prod.fst := htail ▸ List.mem_map_of_mem hx
          obtain ⟨z, hz, hzx⟩ := List.mem_map.1 hmem
          exact absurd (hlt z hz) (by rw [hzx, heq]; exact Nat.lt_irrefl _)
        · exact .inr ⟨hx, hy, heq⟩

end OrderedTable

theorem mapM_eq_some_iff {α : Type u} {β : Type v} {f : α → Option β} {xs : List α} {ys : List β} :
    xs.mapM f = some ys ↔ (∀ x ∈ xs, (f x).isSome) ∧ ys = xs.filterMap f := by
  induction xs generalizing ys with
  | nil =>
    simp
  | cons x xs ih =>
    rw [List.mapM_cons]
    cases hx : f x with
    | none => simp [hx]
    | some y =>
      cases hxs : xs.mapM f with
      | none =>
        have hfails : ¬ ∀ x ∈ xs, (f x).isSome := fun hall => by
          have := ih.2 ⟨hall, rfl⟩
          rw [hxs] at this
          cases this
        simp [hx, hfails]
      | some zs =>
        obtain ⟨hall, rfl⟩ := ih.1 hxs
        have hcons : (x :: xs).filterMap f = y :: xs.filterMap f := List.filterMap_cons_some hx
        rw [hcons, List.forall_mem_cons, hx]
        exact ⟨fun heq => ⟨⟨rfl, hall⟩, (Option.some.inj heq).symm⟩, fun h => congrArg some h.2.symm⟩

/-- The entries of two tables that have not been visited. -/
structure MergeIterator (K : Type u) (V : Type v) where
  left : List (K × V)
  right : List (K × V)

namespace MergeIterator

variable {K : Type u} {V : Type v} (rank : K → Nat) (before : V → V → Bool)

/-- The least entry, whether it is from the left table, and the iterator behind it. Values decide between
entries with the same key. -/
def step : MergeIterator K V → Option ((K × V) × Bool × MergeIterator K V)
  | ⟨[], []⟩ => none
  | ⟨[], y :: ys⟩ => some (y, false, ⟨[], ys⟩)
  | ⟨x :: xs, []⟩ => some (x, true, ⟨xs, []⟩)
  | ⟨x :: xs, y :: ys⟩ =>
    if rank x.1 < rank y.1 then some (x, true, ⟨xs, y :: ys⟩)
    else if rank y.1 < rank x.1 then some (y, false, ⟨x :: xs, ys⟩)
    else if before x.2 y.2 then some (x, true, ⟨xs, y :: ys⟩)
    else some (y, false, ⟨x :: xs, ys⟩)

def visits : (fuel : Nat) → MergeIterator K V → List ((K × V) × Bool)
  | 0, _ => []
  | fuel + 1, it =>
    match it.step rank before with
    | none => []
    | some (x, first, it) => (x, first) :: visits fuel it

def Has (it : MergeIterator K V) (x : (K × V) × Bool) : Prop :=
  x.2 = true ∧ x.1 ∈ it.left ∨ x.2 = false ∧ x.1 ∈ it.right

/-- Both tables are in order and have no key in common. -/
structure Disjoint (it : MergeIterator K V) : Prop where
  left : it.left.Pairwise fun x y => rank x.1 < rank y.1
  right : it.right.Pairwise fun x y => rank x.1 < rank y.1
  ne : ∀ x ∈ it.left, ∀ y ∈ it.right, rank x.1 ≠ rank y.1

variable {rank before} {it it' : MergeIterator K V} {x : K × V} {first : Bool}

/-- What a step does that takes an entry. -/
structure Takes (rank : K → Nat) (it : MergeIterator K V) (x : K × V) (first : Bool)
    (it' : MergeIterator K V) : Prop where
  disjoint : it'.Disjoint rank
  length : it.left.length + it.right.length = it'.left.length + it'.right.length + 1
  has : ∀ z, it.Has z ↔ z = (x, first) ∨ it'.Has z
  least : ∀ z, it'.Has z → rank x.1 < rank z.1.1

theorem takes_left {xs right : List (K × V)} (h : Disjoint rank ⟨x :: xs, right⟩)
    (hlt : ∀ y ∈ right, rank x.1 < rank y.1) : Takes rank ⟨x :: xs, right⟩ x true ⟨xs, right⟩ := by
  obtain ⟨hleft, hright, hne⟩ := h
  obtain ⟨hx, hxs⟩ := List.pairwise_cons.1 hleft
  refine ⟨⟨hxs, hright, fun y hy => hne y (List.mem_cons_of_mem x hy)⟩, ?_, fun ⟨z, b⟩ => ?_, ?_⟩
  · simp only [List.length_cons]
    omega
  · simp only [Has, List.mem_cons, Prod.mk.injEq]
    tauto
  · rintro ⟨z, b⟩ (⟨-, hz⟩ | ⟨-, hz⟩)
    · exact hx z hz
    · exact hlt z hz

theorem takes_right {left ys : List (K × V)} (h : Disjoint rank ⟨left, x :: ys⟩)
    (hlt : ∀ y ∈ left, rank x.1 < rank y.1) : Takes rank ⟨left, x :: ys⟩ x false ⟨left, ys⟩ := by
  obtain ⟨hleft, hright, hne⟩ := h
  obtain ⟨hx, hys⟩ := List.pairwise_cons.1 hright
  refine ⟨⟨hleft, hys, fun y hy z hz => hne y hy z (List.mem_cons_of_mem x hz)⟩, ?_, fun ⟨z, b⟩ => ?_, ?_⟩
  · simp only [List.length_cons]
    omega
  · simp only [Has, List.mem_cons, Prod.mk.injEq]
    tauto
  · rintro ⟨z, b⟩ (⟨-, hz⟩ | ⟨-, hz⟩)
    · exact hlt z hz
    · exact hx z hz

theorem lt_of_lt_head {y : K × V} {ys : List (K × V)} {n : Nat}
    (h : (y :: ys).Pairwise fun x y => rank x.1 < rank y.1) (hn : n < rank y.1) :
    ∀ z ∈ y :: ys, n < rank z.1 := by
  intro z hz
  obtain rfl | hz := List.mem_cons.1 hz
  · exact hn
  · exact Nat.lt_trans hn ((List.pairwise_cons.1 h).1 z hz)

theorem step_spec (h : it.Disjoint rank) (hstep : it.step rank before = some (x, first, it')) :
    Takes rank it x first it' := by
  obtain ⟨left, right⟩ := it
  cases left with
  | nil =>
    cases right with
    | nil => cases hstep
    | cons y ys =>
      cases hstep
      exact takes_right h fun _ hz => by cases hz
  | cons a xs =>
    cases right with
    | nil =>
      cases hstep
      exact takes_left h fun _ hz => by cases hz
    | cons y ys =>
      have hne := h.ne a List.mem_cons_self y List.mem_cons_self
      by_cases hlt : rank a.1 < rank y.1
      · rw [step, if_pos hlt] at hstep
        cases hstep
        exact takes_left h (lt_of_lt_head h.right hlt)
      · have hgt : rank y.1 < rank a.1 := by omega
        rw [step, if_neg hlt, if_pos hgt] at hstep
        cases hstep
        exact takes_right h (lt_of_lt_head h.left hgt)

theorem eq_of_step_eq_none (h : it.step rank before = none) : it = ⟨[], []⟩ := by
  obtain ⟨left, right⟩ := it
  cases left with
  | nil =>
    cases right with
    | nil => rfl
    | cons y ys => cases h
  | cons x xs =>
    cases right with
    | nil => cases h
    | cons y ys =>
      simp only [step] at h
      split at h
      · cases h
      · split at h
        · cases h
        · split at h <;> cases h

theorem visits_spec {fuel : Nat} (h : it.Disjoint rank) (hfuel : it.left.length + it.right.length ≤ fuel) :
    (∀ z, z ∈ it.visits rank before fuel ↔ it.Has z) ∧
      (it.visits rank before fuel).Pairwise fun x y => rank x.1.1 < rank y.1.1 := by
  induction fuel generalizing it with
  | zero =>
    obtain ⟨left, right⟩ := it
    obtain rfl : left = [] := List.length_eq_zero_iff.1 (by dsimp only at hfuel; omega)
    obtain rfl : right = [] := List.length_eq_zero_iff.1 (by dsimp only at hfuel; omega)
    simp [visits, Has]
  | succ fuel ih =>
    unfold visits
    cases hstep : it.step rank before with
    | none =>
      rw [eq_of_step_eq_none hstep]
      simp [Has]
    | some taken =>
      obtain ⟨x, first, it'⟩ := taken
      obtain ⟨hdisj, hlen, hhas, hleast⟩ := step_spec h hstep
      obtain ⟨hmem, hord⟩ := ih hdisj (by omega)
      refine ⟨fun z => ?_, List.pairwise_cons.2 ⟨fun z hz => hleast z ((hmem z).1 hz), hord⟩⟩
      rw [List.mem_cons, hhas, hmem]

end MergeIterator
