import Futurehead.Lattice.Queries
import Mathlib.Logic.Relation

/-!
# Dependencies between blocks

A block depends on the block below it and on the send it receives. `RestsOn` is the reflexive and
transitive closure: the blocks that rest on `h` are the ones that cannot stay when `h` goes.
-/

namespace Futurehead

variable {x e : Entry} {d c : List Entry} {a : Account} {h h' : BlockHash}

variable {p : Params} {known : Block → Prop}

/-- The block `h'` stands on `h` or receives it. -/
def Chains.DependsOn (L : Chains) (p : Params) (h' h : BlockHash) : Prop :=
  ∃ a e c, L.At a e c ∧ e.hash p = h' ∧ ((c ≠ [] ∧ headHash p c = h) ∨ e.kind p c = .receive h)

/-- `h'` is `h`, or depends on a block that rests on `h`. -/
def Chains.RestsOn (L : Chains) (p : Params) (h' h : BlockHash) : Prop :=
  Relation.ReflTransGen (L.DependsOn p) h' h

/-- Every chain of `L'` is the lower part of the chain of `L`. -/
def Chains.Within (L' L : Chains) : Prop := ∀ a, L' a <:+ L a

namespace Chains

variable {L L' L'' : Chains}

theorem Within.refl (L : Chains) : L.Within L := fun _ => List.suffix_rfl

theorem Within.trans (h : L''.Within L') (h' : L'.Within L) : L''.Within L :=
  fun a => (h a).trans (h' a)

theorem Within.at (w : L'.Within L) (h : L'.At a e c) : L.At a e c := List.IsSuffix.trans h (w a)

theorem Grows.within (g : Grows L a e L') : L.Within L' := fun y => by
  by_cases hy : y = a
  · rw [hy, g.chain_self]; exact List.suffix_cons e (L a)
  · rw [g.chain_ne hy]

theorem restsOn_of_within (w : L'.Within L) (hr : L'.RestsOn p h' h) : L.RestsOn p h' h := by
  refine Relation.ReflTransGen.mono (fun x y => ?_) _ _ hr
  rintro ⟨a, e, c, hat, rest⟩
  exact ⟨a, e, c, w.at hat, rest⟩

theorem restsOn_below (hat : L.At a e c) (hx : x :: d <:+ e :: c) :
    L.RestsOn p (e.hash p) (x.hash p) := by
  induction c generalizing e with
  | nil =>
    rcases List.suffix_cons_iff.1 hx with heq | hs
    · cases heq; exact .refl
    · simp at hs
  | cons y c ih =>
    rcases List.suffix_cons_iff.1 hx with heq | hs
    · cases heq; exact .refl
    · exact .head ⟨a, e, y :: c, hat, rfl, .inl ⟨by simp, rfl⟩⟩ (ih hat.below hs)

theorem restsOn_source (hat : L.At a e c) (hk : e.kind p c = .receive h) :
    L.RestsOn p (e.hash p) h :=
  .single ⟨a, e, c, hat, rfl, .inr hk⟩

end Chains

namespace Lattice

variable {L : Lattice p known}

abbrev DependsOn (L : Lattice p known) (h' h : BlockHash) : Prop := L.chain.DependsOn p h' h

abbrev RestsOn (L : Lattice p known) (h' h : BlockHash) : Prop := L.chain.RestsOn p h' h

theorem rank_lt_of_dependsOn (hd : L.DependsOn h' h) : L.rank h < L.rank h' := by
  obtain ⟨a, e, c, hat, rfl, ⟨hc, rfl⟩ | hk⟩ := hd
  · cases c with
    | nil => exact absurd rfl hc
    | cons x c => exact L.rank_previous hat
  · exact L.rank_source hat hk

theorem rank_le_of_restsOn (hr : L.RestsOn h' h) : L.rank h ≤ L.rank h' := by
  induction hr with
  | refl => exact Nat.le_refl _
  | tail _ hd ih => exact Nat.le_of_lt ((rank_lt_of_dependsOn hd).trans_le ih)

theorem at_of_dependsOn (hd : L.DependsOn h' h) : ∃ a e c, L.At a e c ∧ e.hash p = h := by
  obtain ⟨a, e, c, hat, rfl, ⟨hc, rfl⟩ | hk⟩ := hd
  · cases c with
    | nil => exact absurd rfl hc
    | cons x c => exact ⟨a, x, c, hat.below, rfl⟩
  · obtain ⟨_, _, y, x, d, hat', hh, -⟩ := sends_of_receive hat hk
    exact ⟨y, x, d, hat', hh⟩

theorem first_of_genesis (hat : L.At a e c) (hk : e.kind p c = .genesis) : c = [] := by
  obtain ⟨_, _, hx⟩ := extends_at hat
  refine hx.open_first ?_
  unfold Entry.kind at hk
  unfold Entry.type
  cases hb : e.block.hashables with
  | openBlock source rep acc => rfl
  | stateBlock acc prev rep bal link =>
    rw [hb, Hashables.kind] at hk
    split_ifs at hk
  | _ => rw [hb] at hk; cases hk

theorem not_genesis_of_restsOn (H : HashAssumptions p known) (hat : L.At a e c)
    (hr : L.RestsOn (e.hash p) h) (hlt : L.rank h < L.rank (e.hash p)) : e.kind p c ≠ .genesis := by
  intro hk
  rcases Relation.ReflTransGen.cases_head hr with rfl | ⟨_, ⟨b, x, d, hx, hh, hd⟩, -⟩
  · exact absurd hlt (lt_irrefl _)
  obtain ⟨rfl, rfl, rfl⟩ := at_unique H hx hat hh
  rcases hd with ⟨hne, -⟩ | hrec
  · exact hne (first_of_genesis hat hk)
  · exact Kind.noConfusion (hk.symm.trans hrec)

theorem type_above (hat : L.At a e c) (hx : x :: d <:+ e :: c)
    (ht : x.type = .state) : e.type = .state := by
  induction c generalizing e with
  | nil =>
    rcases List.suffix_cons_iff.1 hx with heq | hs
    · cases heq; exact ht
    · simp at hs
  | cons y c ih =>
    rcases List.suffix_cons_iff.1 hx with heq | hs
    · cases heq; exact ht
    · obtain ⟨_, _, he⟩ := extends_at hat
      by_contra hne
      exact he.legacy hne y rfl (ih hat.below hs)

theorem not_at_of_restsOn (H : HashAssumptions p known) {L' : Lattice p known}
    (w : L'.chain.Within L.chain) (hr : L.RestsOn h' h)
    (hgone : ∀ {a e c}, L'.At a e c → e.hash p ≠ h) (hat : L'.At a e c) : e.hash p ≠ h' := by
  induction hr using Relation.ReflTransGen.head_induction_on generalizing a e c with
  | refl => exact hgone hat
  | head hd _ ih =>
    rintro rfl
    obtain ⟨y, x, d, hx, hh, hdep⟩ := hd
    -- the dependency is one of the same block in the smaller lattice, whose target is still there
    obtain ⟨rfl, rfl, rfl⟩ := at_unique H hx (w.at hat) hh
    obtain ⟨y, z, d', hz, hzh⟩ := at_of_dependsOn ⟨_, _, _, hat, rfl, hdep⟩
    exact ih hz hzh

end Lattice

/-! ## Dependencies of a ledger -/

/-- The stored block `h'` has the block `h` among its `dependent_blocks`. -/
def Ledger.DependsOn (p : Params) (l : Ledger) (h' h : BlockHash) : Prop :=
  ∃ b, l.blockGet h' = some b ∧ h ≠ 0 ∧
    ((Ledger.dependentBlocks p b).1 = h ∨ (Ledger.dependentBlocks p b).2 = h)

/-- `h'` is `h`, or has a dependent block that rests on `h`. -/
def Ledger.RestsOn (p : Params) (l : Ledger) (h' h : BlockHash) : Prop :=
  Relation.ReflTransGen (l.DependsOn p) h' h

section

variable (H : HashAssumptions p known) {L : Lattice p known} {l : Ledger}

theorem isSend_at {acc rep : Account} {prev : BlockHash} {bal : Amount}
    {link : Link} (hat : L.At a e c)
    (hb : e.block.hashables = .stateBlock acc prev rep bal link)
    (s : BlockHash) : Ledger.isSend (e.stored a c s) = decide (bal < chainBal c) := by
  obtain ⟨_, epoch, hx⟩ := Lattice.extends_at hat
  have hd : (e.stored a c s).sideband.details = e.details := by
    unfold Entry.stored Entry.sideband Entry.type; rw [hb]; rfl
  rw [Ledger.isSend, hd, hx.details, hb, chainDetails, Hashables.kind]
  split_ifs with hlt hlink
  · simpa using hlt
  · cases p.epochInfo link <;> simpa using hlt
  · simpa using hlt

include H

theorem dependentBlocks_at (hat : L.At a e c) (s h : BlockHash) (hne : h ≠ 0) :
    ((Ledger.dependentBlocks p (e.stored a c s)).1 = h ∨
      (Ledger.dependentBlocks p (e.stored a c s)).2 = h) ↔
      (c ≠ [] ∧ headHash p c = h) ∨ e.kind p c = .receive h := by
  obtain ⟨amt, epoch, hx⟩ := Lattice.extends_at hat
  have hprev : (c ≠ [] ∧ headHash p c = h) ↔ headHash p c = h := by
    constructor
    · exact fun hc => hc.2
    · intro hh
      exact ⟨fun hc => hne (hh.symm.trans ((Lattice.headHash_eq_zero H hat).2 hc)), hh⟩
  rw [hprev, ← hx.previous]
  have hz : ¬ 0#256 = h := fun h0 => hne h0.symm
  unfold Ledger.dependentBlocks Entry.kind
  rw [Entry.stored_block]
  cases hb : e.block.hashables with
  | sendBlock prev dest bal | changeBlock prev rep =>
    simp [Hashables.previous, Hashables.kind, hz]
  | receiveBlock prev source => simp [Hashables.previous, Hashables.kind]
  | openBlock source rep acc =>
    by_cases hg : source = p.genesisAccount <;>
      simp [Hashables.previous, Hashables.kind, hg, hz]
  | stateBlock acc prev rep bal link =>
    rw [isSend_at hat hb]
    simp only [Hashables.previous, Hashables.kind]
    by_cases hlt : bal < chainBal c
    · simp [hlt, hz]
    · by_cases hep : p.isEpochLink link
      · simp [hlt, hep, hz]
      · by_cases hlink : link = 0#256
        · subst hlink; simp [hlt, hz]
        · simp [hlt, hep, hlink]

theorem dependsOn_iff (hb : BlocksRep p l.blocks L.chain) (h' h : BlockHash) :
    l.DependsOn p h' h ↔ L.DependsOn h' h := by
  constructor
  · rintro ⟨b, hg, hne, hdep⟩
    obtain ⟨a, e, c, hat, rfl⟩ := at_of_blockGet hb hg
    rw [blockGet_at H hb hat] at hg
    cases hg
    exact ⟨a, e, c, hat, rfl, (dependentBlocks_at H hat _ h hne).1 hdep⟩
  · rintro ⟨a, e, c, hat, rfl, hdep⟩
    obtain ⟨y, x, d, hx, rfl⟩ := Lattice.at_of_dependsOn ⟨a, e, c, hat, rfl, hdep⟩
    have hne := Lattice.hash_ne_zero H hx
    exact ⟨_, blockGet_at H hb hat, hne, (dependentBlocks_at H hat _ _ hne).2 hdep⟩

theorem restsOn_iff (hb : BlocksRep p l.blocks L.chain) (h' h : BlockHash) :
    l.RestsOn p h' h ↔ L.RestsOn h' h := by
  unfold Ledger.RestsOn Lattice.RestsOn Chains.RestsOn
  rw [show l.DependsOn p = L.chain.DependsOn p from funext₂ fun x y =>
    propext (dependsOn_iff H hb x y)]

end

end Futurehead
