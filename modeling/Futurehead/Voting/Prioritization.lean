import Futurehead.Base.RankedTable
import Futurehead.Store

/-!
# Frontiers to confirm first (`active_transactions`, `futurehead/node/active_transactions`)

The node keeps the accounts with the most uncemented blocks, up to a maximum. An account that is there
already gets its new number. Another one comes in while there is room, and after that only in the place of
the account with the fewest uncemented blocks. The caller has a variable for the size of the container,
which each accepted call sets.
-/

namespace Futurehead

open List

/-- `prioritize_num_uncemented` in the order of `tag_uncemented`, and the variable for its size. -/
structure CementableFrontiers where
  frontiers : RankedTable Account := .empty
  size : Nat := 0

/-- The arguments of a call, with what `is_processing_block` answers meanwhile. -/
structure FrontierCall where
  account : Account
  info : AccountInfo
  confirmationHeight : Nat
  isProcessingBlock : BlockHash → Bool

/-- The account and its uncemented blocks, if the call is accepted. -/
def FrontierCall.accepted? (c : FrontierCall) : Option (Account × Nat) :=
  if c.confirmationHeight < c.info.blockCount ∧ ¬c.isProcessingBlock c.info.head then
    some (c.account, c.info.blockCount - c.confirmationHeight)
  else none

namespace CementableFrontiers

/-- The container after an accepted call. To go back from the end of an empty one has no result. -/
def prioritize (max : Nat) (s : CementableFrontiers) (x : Account × Nat) : Option (RankedTable Account) :=
  match s.frontiers.find? x.1 with
  | some n => if n ≠ x.2 then some (s.frontiers.modify x) else some s.frontiers
  | none =>
    if s.size = max then
      -- replace the lowest uncemented frontier if the current one has more
      s.frontiers.entries.getLast?.map fun least =>
        if least.2 < x.2 then s.frontiers.eraseLast.emplace x else s.frontiers
    else some (s.frontiers.emplace x)

/-- `prioritize_account_for_confirmation`, with `max_priority_cementable_frontiers`. -/
def prioritizeAccountForConfirmation (max : Nat) (s : CementableFrontiers) (c : FrontierCall) :
    Option CementableFrontiers :=
  match c.accepted? with
  | some x => (s.prioritize max x).map fun frontiers => ⟨frontiers, frontiers.size⟩
  | none => some s

/-- What holds of the container after the accepted calls, the last one first. -/
structure Kept (max : Nat) (offers : List (Account × Nat)) (s : CementableFrontiers) : Prop where
  size_eq : s.size = s.frontiers.size
  le_max : s.frontiers.size ≤ max
  last : ∀ x ∈ s.frontiers.entries, offers.find? (fun y => y.1 = x.1) = some x
  best : (offers.map Prod.fst).Nodup → Best Prod.snd max offers s.frontiers.entries

variable {max : Nat} {offers : List (Account × Nat)} {s : CementableFrontiers} {x : Account × Nat}

variable {t : RankedTable Account}

theorem Kept.cons (h : Kept max offers s) (hle : t.size ≤ max)
    (hmem : ∀ y ∈ t.entries, y = x ∨ y ∈ s.frontiers.entries ∧ y.1 ≠ x.1)
    (hbest : x.1 ∉ offers.map Prod.fst → Best Prod.snd max offers s.frontiers.entries →
      Best Prod.snd max (x :: offers) t.entries) : Kept max (x :: offers) ⟨t, t.size⟩ where
  size_eq := rfl
  le_max := hle
  last y hy := by
    obtain rfl | ⟨hold, hne⟩ := hmem y hy
    · exact find?_cons_of_pos (decide_eq_true rfl)
    · rw [find?_cons_of_neg (by simpa using hne.symm)]
      exact h.last y hold
  best hnd := by
    rw [map_cons, nodup_cons] at hnd
    exact hbest hnd.1 (h.best hnd.2)

theorem Kept.put {rest : List (Account × Nat)} (h : Kept max offers s)
    (hperm : t.entries.Perm (x :: rest)) (hlt : rest.length < max)
    (hrest : ∀ y ∈ rest, y ∈ s.frontiers.entries ∧ y.1 ≠ x.1)
    (hbest : x.1 ∉ offers.map Prod.fst → Best Prod.snd max offers s.frontiers.entries →
      Best Prod.snd max (x :: offers) (x :: rest)) : Kept max (x :: offers) ⟨t, t.size⟩ := by
  refine h.cons ?_ (fun y hy => ?_) fun hnew hbef => (hbest hnew hbef).perm (.refl _) hperm.symm
  · rw [RankedTable.size, hperm.length_eq]
    exact hlt
  · exact (mem_cons.1 (hperm.mem_iff.1 hy)).imp id (hrest y)

theorem Kept.known {n : Nat} (h : Kept max offers s) (hfind : s.frontiers.find? x.1 = some n) :
    ∃ t, s.prioritize max x = some t ∧ Kept max (x :: offers) ⟨t, t.size⟩ := by
  have hold : (x.1, n) ∈ s.frontiers.entries := UniqueQueue.mem_of_find? hfind
  have hkeys : x.1 ∈ s.frontiers.keys := mem_map.2 ⟨_, hold, rfl⟩
  -- an account that is there was offered before
  have hagain : ¬x.1 ∉ offers.map Prod.fst := fun hnew =>
    hnew (mem_map.2 ⟨_, mem_of_find?_eq_some (h.last _ hold), rfl⟩)
  by_cases heq : n = x.2
  · refine ⟨s.frontiers, by simp [prioritize, hfind, heq], h.cons h.le_max (fun y hy => ?_)
      fun hnew => absurd hnew hagain⟩
    by_cases hkey : y.1 = x.1
    · exact .inl ((inj_on_of_nodup_map s.frontiers.nodup hy hold hkey).trans (Prod.ext rfl heq))
    · exact .inr ⟨hy, hkey⟩
  · have hperm := RankedTable.modify_perm hkeys
    have hlen := (UniqueQueue.modify_perm (x := x.2) hkeys).length_eq
    refine ⟨s.frontiers.modify x, by simp [prioritize, hfind, heq], h.put hperm ?_ (fun y hy => ?_)
      fun hnew => absurd hnew hagain⟩
    · rw [UniqueQueue.modify, length_map] at hlen
      exact hlen.symm.le.trans h.le_max
    · simpa [RankedTable.erase, UniqueQueue.erase] using hy

theorem Kept.full (h : Kept max offers s) (hfull : s.frontiers.size = max)
    (hne : ∀ y ∈ s.frontiers.entries, y.1 ≠ x.1) {least : Account × Nat}
    (hlast : s.frontiers.entries.getLast? = some least)
    (ht : t = if least.2 < x.2 then s.frontiers.eraseLast.emplace x else s.frontiers) :
    Kept max (x :: offers) ⟨t, t.size⟩ := by
  obtain ⟨hperm, hleast⟩ := RankedTable.eraseLast_spec hlast
  rw [RankedTable.size, hperm.length_eq] at hfull
  subst ht
  split
  · next hlt =>
    have hsub : ∀ y ∈ s.frontiers.eraseLast.entries, y ∈ s.frontiers.entries ∧ y.1 ≠ x.1 := fun y hy =>
      have hold := hperm.mem_iff.2 (mem_cons_of_mem _ hy)
      ⟨hold, hne y hold⟩
    have hkeys : x.1 ∉ s.frontiers.eraseLast.keys := fun hx => by
      obtain ⟨y, hy, hkey⟩ := mem_map.1 hx
      exact (hsub y hy).2 hkey
    exact h.put (RankedTable.emplace_perm hkeys) hfull.le hsub fun _ hbef =>
      (hbef.perm (.refl _) hperm).exchange hfull hleast hlt.le
  · next hle =>
    refine h.cons h.le_max (fun y hy => .inr ⟨hy, hne y hy⟩) fun _ hbef =>
      hbef.pass (hperm.length_eq.trans hfull) fun y hy => (Nat.le_of_not_lt hle).trans ?_
    obtain rfl | hy := mem_cons.1 (hperm.mem_iff.1 hy)
    · exact le_rfl
    · exact hleast y hy

theorem Kept.new (hmax : 0 < max) (h : Kept max offers s) (hfind : s.frontiers.find? x.1 = none) :
    ∃ t, s.prioritize max x = some t ∧ Kept max (x :: offers) ⟨t, t.size⟩ := by
  have hkeys : x.1 ∉ s.frontiers.keys := UniqueQueue.find?_eq_none.1 hfind
  have hne : ∀ y ∈ s.frontiers.entries, y.1 ≠ x.1 := fun y hy heq => hkeys (heq ▸ mem_map_of_mem hy)
  by_cases hfull : s.frontiers.size = max
  · have hnonempty : s.frontiers.entries ≠ [] := ne_nil_of_length_pos (hmax.trans_eq hfull.symm)
    have hlast := getLast?_eq_some_getLast hnonempty
    exact ⟨_, by simp only [prioritize, hfind, h.size_eq, hfull, if_true, hlast, Option.map_some],
      h.full hfull hne hlast rfl⟩
  · have hlt : s.frontiers.size < max := lt_of_le_of_ne h.le_max hfull
    exact ⟨s.frontiers.emplace x, by simp [prioritize, hfind, h.size_eq, hfull],
      h.put (RankedTable.emplace_perm hkeys) hlt (fun y hy => ⟨hy, hne y hy⟩) fun _ hbef => hbef.add hlt⟩

theorem Kept.step (hmax : 0 < max) (h : Kept max offers s) (c : FrontierCall) :
    ∃ s', s.prioritizeAccountForConfirmation max c = some s' ∧ Kept max (c.accepted?.toList ++ offers) s' := by
  unfold prioritizeAccountForConfirmation
  cases c.accepted? with
  | none => exact ⟨s, rfl, h⟩
  | some x =>
    obtain ⟨t, ht, hkept⟩ : ∃ t, s.prioritize max x = some t ∧ Kept max (x :: offers) ⟨t, t.size⟩ := by
      cases hfind : s.frontiers.find? x.1 with
      | none => exact h.new hmax hfind
      | some y => exact h.known hfind
    exact ⟨⟨t, t.size⟩, by simp only [ht, Option.map_some], hkept⟩

theorem Kept.run (hmax : 0 < max) (h : Kept max offers s) (calls : List FrontierCall) :
    ∃ s', calls.foldlM (prioritizeAccountForConfirmation max) s = some s' ∧
      Kept max ((calls.filterMap FrontierCall.accepted?).reverse ++ offers) s' := by
  induction calls generalizing offers s with
  | nil => exact ⟨s, rfl, h⟩
  | cons c calls ih =>
    obtain ⟨s1, hstep, h1⟩ := h.step hmax c
    obtain ⟨s', hrest, h'⟩ := ih h1
    refine ⟨s', by rw [foldlM_cons, hstep]; exact hrest, ?_⟩
    cases hc : c.accepted? <;> simpa [hc] using h'

/-- The container never has more accounts than the maximum. It has each account once, with the number of
its last accepted call, and the variable has its size. If no account is accepted twice, it has the ones
with the most uncemented blocks. -/
theorem prioritization_keeps_largest {max : Nat} (hmax : 0 < max) (calls : List FrontierCall) :
    ∃ s, calls.foldlM (prioritizeAccountForConfirmation max) {} = some s ∧
      s.frontiers.size ≤ max ∧ s.size = s.frontiers.size ∧ s.frontiers.keys.Nodup ∧
      (∀ x ∈ s.frontiers.entries,
        (calls.filterMap FrontierCall.accepted?).reverse.find? (fun y => y.1 = x.1) = some x) ∧
      (((calls.filterMap FrontierCall.accepted?).map Prod.fst).Nodup →
        Best Prod.snd max (calls.filterMap FrontierCall.accepted?) s.frontiers.entries) := by
  have hstart : Kept max [] {} :=
    ⟨rfl, Nat.zero_le _, fun _ hx => absurd hx not_mem_nil,
      fun _ => ⟨(Nat.min_zero _).symm, [], .refl _, fun _ hx => absurd hx not_mem_nil⟩⟩
  obtain ⟨s, hrun, h⟩ := hstart.run hmax calls
  rw [append_nil] at h
  refine ⟨s, hrun, h.le_max, h.size_eq, s.frontiers.nodup, h.last, fun hnd => ?_⟩
  rw [← nodup_reverse, ← map_reverse] at hnd
  exact (h.best hnd).perm (reverse_perm _) (.refl _)

def Sample.frontierCall (account : Account) (blockCount : Nat) : FrontierCall :=
  ⟨account, { blockCount }, 1, fun _ => false⟩

theorem prioritization_keeps_largest_of_three :
    ∃ s, [Sample.frontierCall 1 5, Sample.frontierCall 2 3, Sample.frontierCall 3 9].foldlM
        (prioritizeAccountForConfirmation 2) {} = some s ∧
      Best Prod.snd 2 [(1, 4), (2, 2), (3, 8)] s.frontiers.entries := by
  obtain ⟨s, hrun, -, -, -, -, hbest⟩ := prioritization_keeps_largest (Nat.zero_lt_two)
    [Sample.frontierCall 1 5, Sample.frontierCall 2 3, Sample.frontierCall 3 9]
  exact ⟨s, hrun, hbest (by decide)⟩

end CementableFrontiers

end Futurehead
