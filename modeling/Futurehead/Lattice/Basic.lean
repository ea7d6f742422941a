import Futurehead.Lattice.Chain

/-!
# The block lattice

A `Lattice` is one chain for each account, together with the proof that the chains fit together:
every block extends the chain below it, every receive names a send to its account that no other
block receives, and dependencies have a smaller rank.
-/

namespace Futurehead

open Function

variable {e' n e : Entry} {c' c : List Entry} {y a : Account} {p : Params} {s : BlockHash}
  {amount : Amount} {epoch : Epoch}

/-- `blake2b` on the blocks the ledger is given (`known`): no two inputs collide, and no hash is
one of the values that have another meaning. -/
structure HashAssumptions (p : Params) (known : Block → Prop) : Prop where
  genesis : known p.genesisBlock
  genesisAccount_ne_zero : p.genesisAccount ≠ 0
  collisionFree : ∀ {b b'}, known b → known b' → p.hash b = p.hash b' →
    b.hashables.hashInput = b'.hashables.hashInput
  ne_zero : ∀ {b}, known b → p.hash b ≠ 0
  ne_genesisAccount : ∀ {b}, known b → p.hash b ≠ p.genesisAccount
  not_epochLink : ∀ {b}, known b → p.isEpochLink (p.hash b) = false

/-- One chain for each account, empty for an account that is not open. -/
abbrev Chains := Account → List Entry

/-- The entry `e` stands on top of `c` in the chain of `a`. -/
def Chains.At (L : Chains) (a : Account) (e : Entry) (c : List Entry) : Prop := e :: c <:+ L a

/-- Some block of the lattice receives the block `s`. -/
def Chains.Received (L : Chains) (p : Params) (s : BlockHash) : Prop :=
  ∃ a e c, L.At a e c ∧ e.kind p c = .receive s

/-- The send `s` to account `a`, with its amount and epoch. -/
def Chains.Sends (L : Chains) (p : Params) (s : BlockHash) (a : Account) (amount : Amount)
    (epoch : Epoch) : Prop :=
  ∃ a' e c, L.At a' e c ∧ e.hash p = s ∧ e.kind p c = .send a ∧ amount = e.sent c ∧
    epoch = e.details.epoch

/-- The chains of a ledger, with what makes them a block lattice. `rank` orders the blocks so that
a block comes after the blocks it depends on. -/
structure Lattice (p : Params) (known : Block → Prop) where
  chain : Chains
  rank : BlockHash → Nat
  known_at : ∀ {a e c}, chain.At a e c → known e.block
  valid : ∀ {a e c}, chain.At a e c → ∃ amount epoch, Extends p a c e amount epoch ∧
    ∀ s, e.kind p c = .receive s → chain.Sends p s a amount epoch
  received_once : ∀ {a e c a' e' c' s}, chain.At a e c → chain.At a' e' c' →
    e.kind p c = .receive s → e'.kind p c' = .receive s → a = a' ∧ e = e' ∧ c = c'
  rank_previous : ∀ {a e x c}, chain.At a e (x :: c) → rank (x.hash p) < rank (e.hash p)
  rank_source : ∀ {a e c s}, chain.At a e c → e.kind p c = .receive s → rank s < rank (e.hash p)

/-! ## Hash inputs -/

namespace Hashables

variable {h h' : Hashables}

theorem root_of_previous (hne : h.previous ≠ 0) : h.root = h.previous := by
  cases h with
  | openBlock => exact absurd rfl hne
  | stateBlock account previous => exact if_neg hne
  | _ => rfl

theorem hashInput_eq (heq : h.hashInput = h'.hashInput) :
    h = h' ∨ (h.type = .receive ∧ h'.type = .change) ∨ (h.type = .change ∧ h'.type = .receive) := by
  cases h <;> cases h' <;> simp_all [hashInput, type]

theorem eq_of_hashInput (heq : h.hashInput = h'.hashInput) (ht : h.type = .open ∨ h.type = .state) :
    h = h' := by
  rcases hashInput_eq heq with heq | ⟨hr, -⟩ | ⟨hc, -⟩
  · exact heq
  · simp [hr] at ht
  · simp [hc] at ht

theorem hashInput_previous (heq : h.hashInput = h'.hashInput) : h.previous = h'.previous := by
  cases h <;> cases h' <;> simp_all [hashInput, previous]

theorem qualifiedRoot_of_hashInput (heq : h.hashInput = h'.hashInput) :
    h.qualifiedRoot = h'.qualifiedRoot := by
  have hprev := hashInput_previous heq
  have hroot : h.root = h'.root := by
    rcases hashInput_eq heq with rfl | ⟨ht, ht'⟩ | ⟨ht, ht'⟩
    · rfl
    · cases h <;> cases ht
      cases h' <;> cases ht'
      exact hprev
    · cases h <;> cases ht
      cases h' <;> cases ht'
      exact hprev
  rw [qualifiedRoot, hprev, hroot]
  rfl

end Hashables

/-! ## Positions -/

namespace Chains

variable {L : Chains} {x : Entry}

theorem At.below (h : L.At a e (x :: c)) : L.At a x c := (List.suffix_cons e (x :: c)).trans h

theorem at_head (h : L a = e :: c) : L.At a e c := by
  unfold At; rw [h]

theorem At.length_le (h : L.At a e c) : c.length + 1 ≤ (L a).length := List.IsSuffix.length_le h

theorem At.ne_nil (h : L.At a e c) : L a ≠ [] := fun hnil => by
  have := h.length_le
  simp [hnil] at this

theorem At.eq_of_length (h : L.At a e c) (h' : L.At a e' c')
    (hl : c.length = c'.length) : e = e' ∧ c = c' := by
  have := List.IsSuffix.eq_of_length (List.suffix_of_suffix_length_le h h' (by simp [hl]))
    (by simp [hl])
  exact List.cons.inj this

/-- `L'` is `L` with the entry `n` on top of the chain of `a`. -/
def Grows (L : Chains) (a : Account) (n : Entry) (L' : Chains) : Prop :=
  L' = Function.update L a (n :: L a)

theorem grows_of_eq (h : L a = e :: c) : Grows (Function.update L a c) a e L := by
  unfold Grows
  rw [update_self, update_idem, ← h, update_eq_self]

namespace Grows

variable {L' : Chains} (g : Grows L a n L')
include g

theorem chain_self : L' a = n :: L a := by rw [g, update_self]

theorem chain_ne {x : Account} (h : x ≠ a) : L' x = L x := by rw [g, update_of_ne h]

theorem at_new : L'.At a n (L a) := at_head g.chain_self

theorem at_iff : L'.At y e c ↔ (y = a ∧ e = n ∧ c = L a) ∨ L.At y e c := by
  unfold At
  by_cases h : y = a
  · subst h
    rw [g.chain_self, List.suffix_cons_iff]
    simp
  · rw [g.chain_ne h]
    simp [h]

theorem at_of_at (h : L.At y e c) : L'.At y e c := g.at_iff.2 (.inr h)

omit g in
theorem not_at_self (n : Entry) : ¬ L.At a n (L a) := fun h => by
  have := h.length_le
  omega

theorem exists_at_iff {P : Entry → List Entry → Prop} :
    (∃ y e c, L'.At y e c ∧ P e c) ↔ P n (L a) ∨ ∃ y e c, L.At y e c ∧ P e c := by
  constructor
  · rintro ⟨y, e, c, hat, hP⟩
    rcases g.at_iff.1 hat with ⟨rfl, rfl, rfl⟩ | hat
    · exact .inl hP
    · exact .inr ⟨y, e, c, hat, hP⟩
  · rintro (hP | ⟨y, e, c, hat, hP⟩)
    · exact ⟨a, n, L a, g.at_new, hP⟩
    · exact ⟨y, e, c, g.at_of_at hat, hP⟩

theorem received_iff :
    L'.Received p s ↔ n.kind p (L a) = .receive s ∨ L.Received p s := g.exists_at_iff

theorem sends_of_sends {d : Account}
    (h : L.Sends p s d amount epoch) : L'.Sends p s d amount epoch := by
  obtain ⟨y, e, c, hat, rest⟩ := h
  exact ⟨y, e, c, g.at_of_at hat, rest⟩

end Grows

end Chains

namespace Lattice

variable {known : Block → Prop}

abbrev At (L : Lattice p known) (a : Account) (e : Entry) (c : List Entry) : Prop :=
  L.chain.At a e c

abbrev Received (L : Lattice p known) (s : BlockHash) : Prop := L.chain.Received p s

abbrev Sends (L : Lattice p known) (s : BlockHash) (a : Account) (amount : Amount) (epoch : Epoch) :
    Prop :=
  L.chain.Sends p s a amount epoch

variable (H : HashAssumptions p known) (L : Lattice p known)

section

variable {L} {a' : Account}

theorem extends_at (h : L.At a e c) : ∃ amount epoch, Extends p a c e amount epoch := by
  obtain ⟨amount, epoch, hx, -⟩ := L.valid h
  exact ⟨amount, epoch, hx⟩

theorem previous_at (h : L.At a e c) : e.block.hashables.previous = headHash p c := by
  obtain ⟨amount, epoch, hx⟩ := extends_at h
  exact hx.previous

private theorem account_eq_of_first (h : L.At a e []) (h' : L.At a' e' [])
    (heq : e.block.hashables.hashInput = e'.block.hashables.hashInput) : a = a' := by
  obtain ⟨_, _, hx⟩ := extends_at h
  obtain ⟨_, _, hx'⟩ := extends_at h'
  rw [← hx.account (hx.opens rfl), ← hx'.account (hx'.opens rfl),
    Hashables.eq_of_hashInput heq (hx.opens rfl)]

theorem sends_of_receive (h : L.At a e c) (hk : e.kind p c = .receive s) :
    ∃ amount epoch, L.Sends s a amount epoch := by
  obtain ⟨amount, epoch, -, hs⟩ := L.valid h
  exact ⟨amount, epoch, hs s hk⟩

include H

theorem hash_ne_zero (h : L.At a e c) : e.hash p ≠ 0 := H.ne_zero (L.known_at h)

theorem headHash_eq_zero (h : L.At a e c) : headHash p c = 0 ↔ c = [] := by
  cases c with
  | nil => simp [headHash]
  | cons x c => simpa [headHash] using hash_ne_zero H h.below

theorem headHash_chain (a : Account) : headHash p (L.chain a) = 0 ↔ L.chain a = [] := by
  cases h : L.chain a with
  | nil => simp [headHash]
  | cons x c => simpa [headHash] using hash_ne_zero H (Chains.at_head h)

theorem at_unique (h : L.At a e c) (h' : L.At a' e' c') (heq : e.hash p = e'.hash p) :
    a = a' ∧ e = e' ∧ c = c' := by
  -- down both chains at once: equal hashes have equal previous fields
  induction c generalizing e e' c' with
  | nil =>
    have hin := H.collisionFree (L.known_at h) (L.known_at h') heq
    have hprev := Hashables.hashInput_previous hin
    rw [previous_at h, previous_at h'] at hprev
    obtain rfl := (headHash_eq_zero H h').1 hprev.symm
    obtain rfl := account_eq_of_first h h' hin
    exact ⟨rfl, Chains.At.eq_of_length h h' rfl⟩
  | cons x c ih =>
    have hin := H.collisionFree (L.known_at h) (L.known_at h') heq
    have hprev := Hashables.hashInput_previous hin
    rw [previous_at h, previous_at h'] at hprev
    cases c' with
    | nil => exact absurd ((headHash_eq_zero H h).1 hprev) (by simp)
    | cons x' c' =>
      obtain ⟨rfl, rfl, rfl⟩ := ih h.below h'.below hprev
      exact ⟨rfl, Chains.At.eq_of_length h h' rfl⟩

end

/-! ## Growing and shrinking -/

/-- What allows a lattice to grow by `n` on the chain of `a`. The amount and epoch are those of the
send that `n` receives, if it receives one. -/
structure Pushable (a : Account) (n : Entry) (amount : Amount) (epoch : Epoch) : Prop where
  known : known n.block
  fresh : ∀ {y e c}, L.At y e c → e.hash p ≠ n.hash p
  fits : Extends p a (L.chain a) n amount epoch
  source : ∀ s, n.kind p (L.chain a) = .receive s → L.Sends s a amount epoch ∧ ¬ L.Received s

/-- A rank above the two blocks that `n` depends on. -/
private def rankAbove (a : Account) (n : Entry) : Nat :=
  1 + L.rank (headHash p (L.chain a)) +
    match n.kind p (L.chain a) with
    | .receive s => L.rank s
    | _ => 0

/-- The lattice with `n` on top of the chain of `a`. -/
def push (a : Account) (n : Entry)
    (h : L.Pushable a n amount epoch) : Lattice p known :=
  have g : Chains.Grows L.chain a n (Function.update L.chain a (n :: L.chain a)) := rfl
  -- the rank of a stored block does not change: the new hash is not stored
  have old {y e c} (hat : L.At y e c) :
      Function.update L.rank (n.hash p) (L.rankAbove a n) (e.hash p) = L.rank (e.hash p) :=
    update_of_ne (h.fresh hat) _ _
  have oldSource {s d amount epoch} (hs : L.Sends s d amount epoch) :
      Function.update L.rank (n.hash p) (L.rankAbove a n) s = L.rank s := by
    obtain ⟨_, _, _, hat, rfl, -⟩ := hs
    exact old hat
  { chain := Function.update L.chain a (n :: L.chain a)
    rank := Function.update L.rank (n.hash p) (L.rankAbove a n)
    known_at := fun hat => by
      rcases g.at_iff.1 hat with ⟨-, rfl, -⟩ | hat
      · exact h.known
      · exact L.known_at hat
    valid := fun hat => by
      rcases g.at_iff.1 hat with ⟨rfl, rfl, rfl⟩ | hat
      · exact ⟨amount, epoch, h.fits, fun s hk => g.sends_of_sends (h.source s hk).1⟩
      · obtain ⟨amount, epoch, hx, hs⟩ := L.valid hat
        exact ⟨amount, epoch, hx, fun s hk => g.sends_of_sends (hs s hk)⟩
    received_once := fun hat hat' hk hk' => by
      rcases g.at_iff.1 hat with ⟨rfl, rfl, rfl⟩ | hold <;>
        rcases g.at_iff.1 hat' with ⟨rfl, rfl, rfl⟩ | hold'
      · exact ⟨rfl, rfl, rfl⟩
      · exact absurd ⟨_, _, _, hold', hk'⟩ (h.source _ hk).2
      · exact absurd ⟨_, _, _, hold, hk⟩ (h.source _ hk').2
      · exact L.received_once hold hold' hk hk'
    rank_previous := fun hat => by
      rcases g.at_iff.1 hat with ⟨rfl, rfl, hc⟩ | hat
      · rw [old (Chains.at_head hc.symm), update_self, rankAbove, ← hc, headHash]
        omega
      · rw [old hat, old hat.below]
        exact L.rank_previous hat
    rank_source := fun hat hk => by
      rcases g.at_iff.1 hat with ⟨rfl, rfl, rfl⟩ | hat
      · rw [oldSource (h.source _ hk).1, update_self, rankAbove, hk]
        dsimp only
        omega
      · obtain ⟨_, _, _, hs⟩ := L.valid hat
        rw [oldSource (hs _ hk), old hat]
        exact L.rank_source hat hk }

theorem push_grows (a : Account) (n : Entry)
    (h : L.Pushable a n amount epoch) : Chains.Grows L.chain a n (L.push a n h).chain := rfl

/-- The lattice without the newest block of `a`, which no block receives. -/
def pop (a : Account) (hc : L.chain a = n :: c)
    (h : ¬ L.Received (n.hash p)) : Lattice p known :=
  have g := Chains.grows_of_eq hc
  { chain := Function.update L.chain a c
    rank := L.rank
    known_at := fun hat => L.known_at (g.at_of_at hat)
    valid := fun {y e d} hat => by
      obtain ⟨amount, epoch, hx, hs⟩ := L.valid (g.at_of_at hat)
      refine ⟨amount, epoch, hx, fun s hk => ?_⟩
      obtain ⟨y', e', d', hat', rfl, rest⟩ := hs s hk
      rcases g.at_iff.1 hat' with ⟨-, rfl, -⟩ | hat'
      · exact absurd ⟨_, _, _, g.at_of_at hat, hk⟩ h
      · exact ⟨y', e', d', hat', rfl, rest⟩
    received_once := fun hat hat' => L.received_once (g.at_of_at hat) (g.at_of_at hat')
    rank_previous := fun hat => L.rank_previous (g.at_of_at hat)
    rank_source := fun hat => L.rank_source (g.at_of_at hat) }

theorem pop_grows (a : Account) (hc : L.chain a = n :: c)
    (h : ¬ L.Received (n.hash p)) : Chains.Grows (L.pop a hc h).chain a n L.chain :=
  Chains.grows_of_eq hc

end Lattice

end Futurehead
