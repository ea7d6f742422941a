import Futurehead.Ledger.Undo
import Futurehead.Lattice.Dependency

/-!
# What a rollback removes

`Rolled l L target removed l' L'` says how a rollback took the ledger `l` of the lattice `L` to the
ledger `l'` of a smaller lattice `L'`: it removed the blocks `removed`, each of which rests on
`target` and is not cemented. Rollbacks compose (`Rolled.trans`), and taking one block off a chain
is one (`rolled_of_removes`).
-/

namespace Futurehead

open List Futurehead.Lattice

variable {p : Params} {known : Block → Prop}

/-- The block on top of `c` in the chain of `a` is cemented. -/
def Ledger.CementedAt (l : Ledger) (a : Account) (c : List Entry) : Prop :=
  ∃ i, l.confirmationHeightGet a = some i ∧ c.length + 1 ≤ i.height

/-- A cemented block rests on `h`, so `h` cannot be rolled back. -/
def Ledger.Pinned (l : Ledger) (L : Lattice p known) (h : BlockHash) : Prop :=
  ∃ a e c, L.At a e c ∧ L.RestsOn (e.hash p) h ∧ l.CementedAt a c

theorem Ledger.Pinned.below {l : Ledger} {L : Lattice p known} {h' h : BlockHash}
    (hp : l.Pinned L h') (hr : L.RestsOn h' h) : l.Pinned L h := by
  obtain ⟨a, e, c, hat, he, hcem⟩ := hp
  exact ⟨a, e, c, hat, he.trans hr, hcem⟩

/-- A rollback for `target` took `l` and its lattice `L` to `l'` and `L'`. -/
structure Rolled (l : Ledger) (L : Lattice p known) (target : BlockHash) (removed : List Block)
    (l' : Ledger) (L' : Lattice p known) : Prop where
  within : L'.chain.Within L.chain
  rank : L'.rank = L.rank
  mem : ∀ b, b ∈ removed ↔ ∃ a e c, L.At a e c ∧ ¬ L'.At a e c ∧ e.block = b
  nodup : (removed.map p.hash).Nodup
  restsOn : ∀ {a e c}, L.At a e c → ¬ L'.At a e c → L.RestsOn (e.hash p) target
  uncemented : ∀ {a e c}, L.At a e c → ¬ L'.At a e c → ¬ l.CementedAt a c
  /-- The confirmation height of an account that still has blocks is not touched. -/
  confirmation : ∀ a, L'.chain a ≠ [] → l'.confirmationHeightGet a = l.confirmationHeightGet a
  blockCount : l.blockCount = l'.blockCount + removed.length

namespace Rolled

variable {l l1 l2 l3 : Ledger} {L L1 L2 L3 : Lattice p known} {target t1 t2 : BlockHash}
  {removed removed1 removed2 : List Block} {a : Account} {e : Entry} {c : List Entry}

theorem refl (l : Ledger) (L : Lattice p known) (target : BlockHash) :
    Rolled l L target [] l L where
  within := .refl _
  rank := rfl
  mem := fun b => by
    simp only [not_mem_nil, false_iff]
    rintro ⟨a, e, c, hat, hnot, -⟩
    exact hnot hat
  nodup := nodup_nil
  restsOn := fun hat hnot => absurd hat hnot
  uncemented := fun hat hnot => absurd hat hnot
  confirmation := fun _ _ => rfl
  blockCount := rfl

theorem of_eq (r : Rolled l1 L1 target removed l2 L2)
    (hconf : l1.confirmationHeight = l.confirmationHeight)
    (hcnt : l1.blockCount = l.blockCount) : Rolled l L1 target removed l2 L2 := by
  have hget (a : Account) : l1.confirmationHeightGet a = l.confirmationHeightGet a := by
    unfold Ledger.confirmationHeightGet; rw [hconf]
  exact
    { r with
      uncemented := fun {a e c} hat hnot => by
        have := r.uncemented hat hnot
        unfold Ledger.CementedAt at this ⊢
        rwa [← hget]
      confirmation := fun a ha => (r.confirmation a ha).trans (hget a)
      blockCount := hcnt.symm.trans r.blockCount }

theorem perm (r : Rolled l1 L1 target removed1 l2 L2) (h : removed1.Perm removed2) :
    Rolled l1 L1 target removed2 l2 L2 :=
  { r with
    mem := fun b => h.mem_iff.symm.trans (r.mem b)
    nodup := (h.map p.hash).nodup_iff.1 r.nodup
    blockCount := by rw [← h.length_eq]; exact r.blockCount }

section

variable (r : Rolled l1 L1 target removed l2 L2)

include r

theorem cementedAt_iff (h : L2.At a e c) : l2.CementedAt a c ↔ l1.CementedAt a c := by
  unfold Ledger.CementedAt
  rw [r.confirmation a h.ne_nil]

theorem pinned {h : BlockHash} (hp : l2.Pinned L2 h) : l1.Pinned L1 h := by
  obtain ⟨a, e, c, hat, hr, hcem⟩ := hp
  exact ⟨a, e, c, r.within.at hat, Chains.restsOn_of_within r.within hr,
    (r.cementedAt_iff hat).1 hcem⟩

theorem at_of_rank_lt (hat : L1.At a e c) (hlt : L1.rank (e.hash p) < L1.rank target) :
    L2.At a e c := by
  by_contra hnot
  have := rank_le_of_restsOn (r.restsOn hat hnot)
  omega

end

theorem retarget (r : Rolled l1 L1 t1 removed l2 L2) (h : L1.RestsOn t1 target) :
    Rolled l1 L1 target removed l2 L2 :=
  { r with restsOn := fun hat hnot => (r.restsOn hat hnot).trans h }

theorem at_of_pinned (H : HashAssumptions p known) (r : Rolled l1 L1 target removed l2 L2)
    (hat : L1.At a e c) (hp : l1.Pinned L1 (e.hash p)) : L2.At a e c := by
  by_contra hnot
  obtain ⟨y, x, d, hx, hr, hcem⟩ := hp
  refine r.uncemented hx (fun hx2 => ?_) hcem
  refine not_at_of_restsOn H r.within hr (fun {z w f} hz heq => hnot ?_) hx2 rfl
  obtain ⟨rfl, rfl, rfl⟩ := at_unique H (r.within.at hz) hat heq
  exact hz

theorem trans (H : HashAssumptions p known) (r1 : Rolled l1 L1 t1 removed1 l2 L2)
    (r2 : Rolled l2 L2 t2 removed2 l3 L3) (h1 : L1.RestsOn t1 target) (h2 : L1.RestsOn t2 target) :
    Rolled l1 L1 target (removed1 ++ removed2) l3 L3 where
  within := r2.within.trans r1.within
  rank := r2.rank.trans r1.rank
  mem := fun b => by
    rw [mem_append, r1.mem, r2.mem]
    constructor
    · rintro (⟨a, e, c, hat, hnot, hb⟩ | ⟨a, e, c, hat, hnot, hb⟩)
      · exact ⟨a, e, c, hat, fun h => hnot (r2.within.at h), hb⟩
      · exact ⟨a, e, c, r1.within.at hat, hnot, hb⟩
    · rintro ⟨a, e, c, hat, hnot, hb⟩
      by_cases hmid : L2.At a e c
      · exact .inr ⟨a, e, c, hmid, hnot, hb⟩
      · exact .inl ⟨a, e, c, hat, hmid, hb⟩
  nodup := by
    rw [map_append, nodup_append]
    refine ⟨r1.nodup, r2.nodup, ?_⟩
    rintro _ hx _ hy heq
    obtain ⟨b1, hb1, rfl⟩ := mem_map.1 hx
    obtain ⟨b2, hb2, rfl⟩ := mem_map.1 hy
    obtain ⟨a, e, c, hat, hnot, rfl⟩ := (r1.mem b1).1 hb1
    obtain ⟨a', e', c', hat', -, rfl⟩ := (r2.mem b2).1 hb2
    -- the second one is still there after the first rollback
    obtain ⟨rfl, rfl, rfl⟩ := at_unique H hat (r1.within.at hat') heq
    exact hnot hat'
  restsOn := fun {a e c} hat hnot => by
    by_cases hmid : L2.At a e c
    · exact (Chains.restsOn_of_within r1.within (r2.restsOn hmid hnot)).trans h2
    · exact (r1.restsOn hat hmid).trans h1
  uncemented := fun {a e c} hat hnot => by
    by_cases hmid : L2.At a e c
    · exact fun hcem => r2.uncemented hmid hnot ((r1.cementedAt_iff hmid).2 hcem)
    · exact r1.uncemented hat hmid
  confirmation := fun a ha => by
    have hne : L2.chain a ≠ [] := fun hnil => by
      have := r2.within a
      rw [hnil, suffix_nil] at this
      exact ha this
    exact (r2.confirmation a ha).trans (r1.confirmation a hne)
  blockCount := by rw [r1.blockCount, r2.blockCount, length_append]; omega

end Rolled

/-! ## Taking one block off -/

section

variable {L τ : Lattice p known} {l l' : Ledger} {shift shift' : Account → Amount} {a : Account}
  {n : Entry} {c : List Entry} {source : PendingInfo}

theorem exists_pop (hc : L.chain a = n :: c) (h : ¬ L.Received (n.hash p)) :
    ∃ τ : Lattice p known, Chains.Grows τ.chain a n L.chain ∧ τ.rank = L.rank ∧ τ.chain a = c :=
  ⟨L.pop a hc h, L.pop_grows a hc h, rfl, Function.update_self ..⟩

theorem not_received_of_kind (H : HashAssumptions p known) (hat : L.At a n c)
    (hk : ∀ d, n.kind p c ≠ .send d) : ¬ L.Received (n.hash p) := by
  rintro ⟨y, e, d, hat', hr⟩
  obtain ⟨_, _, z, x, f, hx, hh, hs, -⟩ := sends_of_receive hat' hr
  obtain ⟨rfl, rfl, rfl⟩ := at_unique H hx hat hh
  exact hk y hs

theorem exists_pop_of_kind (H : HashAssumptions p known) (hc : L.chain a = n :: c)
    (hk : ∀ d, n.kind p c ≠ .send d) :
    ∃ τ : Lattice p known, Chains.Grows τ.chain a n L.chain ∧ τ.rank = L.rank ∧ τ.chain a = c :=
  exists_pop hc (not_received_of_kind H (Chains.at_head hc) hk)

theorem rolled_of_removes (H : HashAssumptions p known) (g : Chains.Grows τ.chain a n L.chain)
    (hrank : τ.rank = L.rank) (h : Represents l L shift) (hg : n.kind p (τ.chain a) ≠ .genesis)
    (hcem : ¬ l.CementedAt a (τ.chain a)) (rm : Removes p l a (τ.chain a) n source shift' l')
    (hsrc : ∀ s, n.kind p (τ.chain a) = .receive s →
      ∃ y e c, τ.At y e c ∧ e.hash p = s ∧ source = ⟨y, e.sent c, e.details.epoch⟩) :
    Represents { l' with blockCount := l'.blockCount - 1 } τ (fun r => shift r + shift' r) ∧
      Rolled l L (n.hash p) [n.block] { l' with blockCount := l'.blockCount - 1 } τ := by
  have hrep := h.pop H g hg rm hsrc
  -- the only block that is gone is `n`
  have hgone {y e d} (hat : L.At y e d) (hnot : ¬ τ.At y e d) : y = a ∧ e = n ∧ d = τ.chain a :=
    (g.at_iff.1 hat).resolve_right hnot
  refine ⟨hrep, ⟨g.within, hrank, fun b => ?_, by simp, ?_, ?_, fun x hx => ?_, ?_⟩⟩
  · rw [mem_singleton]
    constructor
    · rintro rfl
      exact ⟨a, n, _, g.at_new, Chains.Grows.not_at_self n, rfl⟩
    · rintro ⟨y, e, d, hat, hnot, rfl⟩
      obtain ⟨-, rfl, -⟩ := hgone hat hnot
      rfl
  · intro y e d hat hnot
    obtain ⟨-, rfl, -⟩ := hgone hat hnot
    exact .refl
  · intro y e d hat hnot
    obtain ⟨rfl, -, rfl⟩ := hgone hat hnot
    exact hcem
  · refine (rm.confirmation x).trans (if_neg ?_)
    rintro ⟨hnil, rfl⟩
    exact hx hnil
  · have hcnt := blocks_card_of_grows H g hrep.blocks h.blocks
    have hl' : l'.blockCount - 1 = l'.blocks.keys.card := hrep.blockCount
    simp only [length_singleton]
    rw [h.blockCount, hcnt, hl']

end

end Futurehead
