import Mathlib.Data.List.TakeWhile
import Mathlib.Order.Defs.Unbundled

/-!
# Merge join

Two tables are read in the order of their keys, side by side. `mergeJoin` lists what is met: a key
that only the left table has, one that only the right one has, and a key of both with its two
values. It is written by recursion on the left table, as a reader does that gets the left table
entry by entry.
-/

universe u v w

/-- The entries are in the order of their keys, and no key occurs twice. -/
def Ascending {K : Type u} {V : Type v} [LT K] (xs : List (K × V)) : Prop :=
  xs.Pairwise fun x y => x.1 < y.1

inductive JoinItem (K : Type u) (A : Type v) (B : Type w)
  | left (key : K) (a : A)
  | right (key : K) (b : B)
  | both (key : K) (a : A) (b : B)

namespace JoinItem

variable {K : Type u} {A : Type v} {B : Type w}

/-- The entry of the left table, with what the right table has for its key. -/
def left? : JoinItem K A B → Option (K × A × Option B)
  | left key a => some (key, a, none)
  | right _ _ => none
  | both key a b => some (key, a, some b)

/-- The entry of the right table, with what the left table has for its key. -/
def right? : JoinItem K A B → Option (K × B × Option A)
  | left _ _ => none
  | right key b => some (key, b, none)
  | both key a b => some (key, b, some a)

end JoinItem

section

variable {K : Type u} {A : Type v} {B : Type w} [LT K] [DecidableLT K] [DecidableEq K]

def mergeJoin : List (K × A) → List (K × B) → List (JoinItem K A B)
  | [], ys => ys.map fun y => .right y.1 y.2
  | x :: xs, ys =>
    (ys.takeWhile fun y => y.1 < x.1).map (fun y => .right y.1 y.2) ++
      match ys.dropWhile fun y => y.1 < x.1 with
      | [] => .left x.1 x.2 :: mergeJoin xs []
      | y :: rest =>
        if x.1 = y.1 then .both x.1 x.2 y.2 :: mergeJoin xs rest
        else .left x.1 x.2 :: mergeJoin xs (y :: rest)

theorem mergeJoin_cons_both {x : K × A} {y : K × B} {ys rest : List (K × B)}
    (h : ys.dropWhile (fun y => y.1 < x.1) = y :: rest) (hkey : x.1 = y.1) (xs : List (K × A)) :
    mergeJoin (x :: xs) ys = (ys.takeWhile fun y => y.1 < x.1).map (fun y => .right y.1 y.2) ++
      .both x.1 x.2 y.2 :: mergeJoin xs rest := by
  rw [mergeJoin, h]
  simp only [if_pos hkey]

theorem mergeJoin_cons_left {x : K × A} {ys : List (K × B)}
    (h : ∀ y rest, ys.dropWhile (fun y => y.1 < x.1) = y :: rest → x.1 ≠ y.1)
    (xs : List (K × A)) :
    mergeJoin (x :: xs) ys = (ys.takeWhile fun y => y.1 < x.1).map (fun y => .right y.1 y.2) ++
      .left x.1 x.2 :: mergeJoin xs (ys.dropWhile fun y => y.1 < x.1) := by
  rw [mergeJoin]
  cases hdrop : ys.dropWhile fun y => y.1 < x.1 with
  | nil => rfl
  | cons y rest => simp only [if_neg (h y rest hdrop)]

end

namespace Ascending

variable {K : Type u} {A : Type v} [LT K] {x y : K × A} {xs ys : List (K × A)}

theorem tail (h : Ascending (x :: xs)) : Ascending xs := (List.pairwise_cons.1 h).2

theorem head_lt (h : Ascending (x :: xs)) (hy : y ∈ xs) : x.1 < y.1 :=
  (List.pairwise_cons.1 h).1 y hy

theorem append_right (h : Ascending (xs ++ ys)) : Ascending ys := (List.pairwise_append.1 h).2.1

end Ascending

namespace MergeJoin

variable {K : Type u} {A : Type v} {B : Type w} [LT K] [DecidableLT K] [DecidableEq K]

omit [LT K] [DecidableLT K] in
theorem lookup_of_ne {key : K} {xs : List (K × A)} (h : ∀ x ∈ xs, x.1 ≠ key) :
    xs.lookup key = none := by
  rw [List.lookup_eq_none_iff]
  intro x hx
  simpa using (h x hx).symm

omit [LT K] [DecidableLT K] in
theorem lookup_append_of_ne {key : K} {xs ys : List (K × A)} (h : ∀ x ∈ xs, x.1 ≠ key) :
    (xs ++ ys).lookup key = ys.lookup key := by
  rw [List.lookup_append, lookup_of_ne h, Option.none_or]

omit [LT K] [DecidableLT K] in
theorem lookup_cons_self (x : K × A) (xs : List (K × A)) : (x :: xs).lookup x.1 = some x.2 := by
  rw [List.lookup_cons, beq_self_eq_true]

omit [LT K] [DecidableLT K] in
theorem lookup_cons_of_ne {key : K} {x : K × A} {xs : List (K × A)} (h : x.1 ≠ key) :
    (x :: xs).lookup key = xs.lookup key := by
  have hfront : ∀ y ∈ [x], y.1 ≠ key := by simpa using h
  exact lookup_append_of_ne hfront

/-- How the right table stands to a key of the left one: the entries `below` it, and the rest, in
which only the first entry can have the key. -/
structure Split (key : K) (ys below rest : List (K × B)) : Prop where
  eq : below ++ rest = ys
  below_lt : ∀ y ∈ below, y.1 < key
  rest_ge : ∀ y ∈ rest, ¬ y.1 < key
  ascending : Ascending rest

variable [IsTrans K (· < ·)] [Std.Irrefl (α := K) (· < ·)]

omit [DecidableEq K] [Std.Irrefl (α := K) (· < ·)] in
theorem split (key : K) {ys : List (K × B)} (h : Ascending ys) :
    Split key ys (ys.takeWhile fun y => y.1 < key) (ys.dropWhile fun y => y.1 < key) := by
  have heq := List.takeWhile_append_dropWhile (p := fun y : K × B => decide (y.1 < key)) (l := ys)
  have hasc : Ascending (ys.dropWhile fun y => y.1 < key) := by
    rw [← heq] at h
    exact h.append_right
  refine ⟨heq, fun y hy => by simpa using List.mem_takeWhile_imp hy, fun y hy hlt => ?_, hasc⟩
  cases hrest : ys.dropWhile fun y => y.1 < key with
  | nil => rw [hrest] at hy; cases hy
  | cons z zs =>
    have hz : ¬ z.1 < key := by
      have := List.head?_dropWhile_not (fun y : K × B => decide (y.1 < key)) ys
      simpa [hrest] using this
    rw [hrest] at hy hasc
    rcases List.mem_cons.1 hy with rfl | hy
    · exact hz hlt
    · exact hz (IsTrans.trans _ _ _ (hasc.head_lt hy) hlt)

/-- What is met for one entry of the left table, and what is then left of the right table. -/
inductive Hit (x : K × A) : List (K × B) → JoinItem K A B → List (K × B) → Prop
  | both {y : K × B} {rest : List (K × B)} (h : y.1 = x.1) :
      Hit x (y :: rest) (.both x.1 x.2 y.2) rest
  | left {rest : List (K × B)} (h : ∀ y ∈ rest, y.1 ≠ x.1) : Hit x rest (.left x.1 x.2) rest

omit [Std.Irrefl (α := K) (· < ·)] in
theorem mergeJoin_cons (x : K × A) (xs : List (K × A)) {ys : List (K × B)} (h : Ascending ys) :
    ∃ below rest hit rest', Split x.1 ys below rest ∧ Hit x rest hit rest' ∧
      mergeJoin (x :: xs) ys =
        below.map (fun y => JoinItem.right y.1 y.2) ++ hit :: mergeJoin xs rest' := by
  have hsplit := split x.1 h
  by_cases hhit : ∃ y rest, ys.dropWhile (fun y => y.1 < x.1) = y :: rest ∧ x.1 = y.1
  · obtain ⟨y, rest, hdrop, hkey⟩ := hhit
    rw [hdrop] at hsplit
    exact ⟨_, _, _, _, hsplit, .both hkey.symm, mergeJoin_cons_both hdrop hkey xs⟩
  · have hmiss (y : K × B) (rest : List (K × B))
        (hdrop : ys.dropWhile (fun y => y.1 < x.1) = y :: rest) : x.1 ≠ y.1 :=
      fun hkey => hhit ⟨y, rest, hdrop, hkey⟩
    refine ⟨_, _, _, _, hsplit, .left fun z hz heq => ?_, mergeJoin_cons_left hmiss xs⟩
    cases hdrop : ys.dropWhile fun y => y.1 < x.1 with
    | nil => rw [hdrop] at hz; cases hz
    | cons y rest =>
      rw [hdrop] at hz hsplit
      rcases List.mem_cons.1 hz with rfl | hz
      · exact hmiss _ _ hdrop heq.symm
      · exact hsplit.rest_ge y (by simp) (heq ▸ hsplit.ascending.head_lt hz)

omit [DecidableLT K] [DecidableEq K] [IsTrans K (· < ·)] [Std.Irrefl (α := K) (· < ·)] in
theorem Hit.ascending {x : K × A} {rest rest' : List (K × B)} {hit : JoinItem K A B}
    (h : Hit x rest hit rest') (hasc : Ascending rest) : Ascending rest' := by
  cases h with
  | both _ => exact hasc.tail
  | left _ => exact hasc

theorem filterMap_left_mergeJoin {xs : List (K × A)} {ys : List (K × B)} (hx : Ascending xs)
    (hy : Ascending ys) :
    (mergeJoin xs ys).filterMap JoinItem.left? = xs.map fun x => (x.1, x.2, ys.lookup x.1) := by
  have hright (ys : List (K × B)) : ((ys.map fun y =>
      (JoinItem.right y.1 y.2 : JoinItem K A B)).filterMap JoinItem.left?) = [] := by
    rw [List.filterMap_map]
    exact List.filterMap_eq_nil_iff.2 fun _ _ => rfl
  induction xs generalizing ys with
  | nil => exact hright ys
  | cons x xs ih =>
    obtain ⟨below, rest, hit, rest', hsplit, hhit, heq⟩ := mergeJoin_cons x xs hy
    have hbelow {key : K} (hle : x.1 = key ∨ x.1 < key) : ys.lookup key = rest.lookup key := by
      rw [← hsplit.eq]
      refine lookup_append_of_ne fun y hy => ?_
      rintro rfl
      have hlt := hsplit.below_lt y hy
      rcases hle with hle | hle
      · exact Std.Irrefl.irrefl _ (hle ▸ hlt)
      · exact Std.Irrefl.irrefl _ (IsTrans.trans _ _ _ hlt hle)
    have htail : ∀ z ∈ xs, rest'.lookup z.1 = ys.lookup z.1 := by
      intro z hz
      have hlt := hx.head_lt hz
      rw [hbelow (.inr hlt)]
      cases hhit with
      | left _ => rfl
      | both hkey =>
        refine (lookup_cons_of_ne ?_).symm
        rw [hkey]
        intro hsame
        exact Std.Irrefl.irrefl _ (hsame ▸ hlt)
    rw [heq, List.filterMap_append, hright, List.nil_append, List.map_cons, hbelow (.inl rfl)]
    have hrec : (mergeJoin xs rest').filterMap JoinItem.left? =
        xs.map fun z => (z.1, z.2, ys.lookup z.1) := by
      rw [ih hx.tail (hhit.ascending hsplit.ascending)]
      exact List.map_congr_left fun z hz => by rw [htail z hz]
    cases hhit with
    | both hkey =>
      rw [List.filterMap_cons, hrec, ← hkey, lookup_cons_self]
      rfl
    | left hnone =>
      rw [List.filterMap_cons, hrec, lookup_of_ne hnone]
      rfl

theorem filterMap_right_mergeJoin {xs : List (K × A)} {ys : List (K × B)} (hx : Ascending xs)
    (hy : Ascending ys) :
    (mergeJoin xs ys).filterMap JoinItem.right? = ys.map fun y => (y.1, y.2, xs.lookup y.1) := by
  have hright (ys : List (K × B)) : ((ys.map fun y =>
      (JoinItem.right y.1 y.2 : JoinItem K A B)).filterMap JoinItem.right?) =
        ys.map fun y => (y.1, y.2, none) := by
    rw [List.filterMap_map, ← List.filterMap_eq_map]
    rfl
  induction xs generalizing ys with
  | nil => exact hright ys
  | cons x xs ih =>
    obtain ⟨below, rest, hit, rest', hsplit, hhit, heq⟩ := mergeJoin_cons x xs hy
    have hbelow : ∀ y ∈ below, (x :: xs).lookup y.1 = none := by
      intro y hy
      have hlt := hsplit.below_lt y hy
      refine lookup_of_ne fun z hz => ?_
      rintro hsame
      rcases List.mem_cons.1 hz with rfl | hz
      · exact Std.Irrefl.irrefl _ (hsame ▸ hlt)
      · exact Std.Irrefl.irrefl _ (hsame ▸ IsTrans.trans _ _ _ hlt (hx.head_lt hz))
    have hrec (hne : ∀ y ∈ rest', y.1 ≠ x.1) : (mergeJoin xs rest').filterMap JoinItem.right? =
        rest'.map fun y => (y.1, y.2, (x :: xs).lookup y.1) := by
      rw [ih hx.tail (hhit.ascending hsplit.ascending)]
      exact List.map_congr_left fun y hy => by rw [lookup_cons_of_ne (hne y hy).symm]
    have hfront : below.map (fun y => (y.1, y.2, (none : Option A))) =
        below.map fun y => (y.1, y.2, (x :: xs).lookup y.1) :=
      List.map_congr_left fun y hy => by rw [hbelow y hy]
    rw [heq, List.filterMap_append, hright, hfront, ← hsplit.eq, List.map_append]
    congr 1
    cases hhit with
    | @both y _ hkey =>
      have hne : ∀ z ∈ rest', z.1 ≠ x.1 := by
        intro z hz hsame
        have hlt := hsplit.ascending.head_lt hz
        rw [hkey, hsame] at hlt
        exact Std.Irrefl.irrefl _ hlt
      rw [List.filterMap_cons, hrec hne, List.map_cons, hkey, lookup_cons_self]
      rfl
    | left hne => rw [List.filterMap_cons_none rfl, hrec hne]

end MergeJoin
