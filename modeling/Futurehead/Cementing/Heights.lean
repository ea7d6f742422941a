import Futurehead.Ledger.Scope

/-!
# Confirmation heights

A place of the lattice (`Lattice.Position`) has a height on the chain of its account. A table of
confirmation heights is valid if it has a height for every account, together with the hash of the
block there.
-/

namespace Futurehead

variable {p : Params} {known : Block → Prop}

/-! ## Positions -/

/-- A place of the lattice. -/
structure Lattice.Position (L : Lattice p known) where
  account : Account
  entry : Entry
  below : List Entry
  stands : L.At account entry below

namespace Lattice.Position

variable {L : Lattice p known} (n : L.Position)

def height : Nat := n.below.length + 1

def hash : BlockHash := n.entry.hash p

theorem height_le : n.height ≤ (L.chain n.account).length := n.stands.length_le

theorem hashAt_height : hashAt p (L.chain n.account) n.height = n.hash := hashAt_suffix n.stands

end Lattice.Position

namespace Lattice

variable {L : Lattice p known}

theorem exists_position {a : Account} {k : Nat} (hk : 1 ≤ k) (hle : k ≤ (L.chain a).length) :
    ∃ n : L.Position, n.account = a ∧ n.height = k := by
  obtain ⟨e, c, hc⟩ : ∃ e c, (L.chain a).drop ((L.chain a).length - k) = e :: c :=
    List.exists_cons_of_length_pos (by rw [List.length_drop]; omega)
  have hlen := congrArg List.length hc
  rw [List.length_drop, List.length_cons] at hlen
  refine ⟨⟨a, e, c, ?_⟩, rfl, ?_⟩
  · change e :: c <:+ L.chain a
    rw [← hc]
    exact List.drop_suffix _ _
  · change c.length + 1 = k
    omega

theorem Position.stored_account (n : L.Position) (s : BlockHash) :
    (n.entry.stored n.account n.below s).account = n.account := by
  obtain ⟨_, _, hx⟩ := extends_at n.stands
  exact hx.stored_account s

theorem Position.stored_height (n : L.Position) (s : BlockHash) :
    (n.entry.stored n.account n.below s).sideband.height = n.height := by
  obtain ⟨_, _, hx⟩ := extends_at n.stands
  exact hx.stored_height s

theorem Position.previous (n : L.Position) :
    n.entry.block.hashables.previous = hashAt p (L.chain n.account) (n.height - 1) := by
  obtain ⟨a, e, c, hat⟩ := n
  obtain ⟨_, _, hx⟩ := extends_at hat
  change e.block.hashables.previous = hashAt p (L.chain a) c.length
  rw [hx.previous]
  cases c with
  | nil => exact (hashAt_zero _).symm
  | cons x c => exact (hashAt_suffix hat.below).symm

end Lattice

/-! ## Tables of heights -/

/-- The table has an entry for every open account: a height of its chain, and the block there. -/
structure HeightsRep (p : Params) (t : Table Account ConfirmationHeightInfo) (L : Chains) :
    Prop where
  mem : ConfirmationRep t L
  height_le : ∀ {a i}, t.lookup a = some i → i.height ≤ (L a).length
  frontier : ∀ {a i}, t.lookup a = some i → i.frontier = hashAt p (L a) i.height

/-- There is a confirmation height for every account, and its frontier is the block of the account
at that height. -/
structure Ledger.HeightsValid (l : Ledger) : Prop where
  accounts : ∀ account, account ∈ l.confirmationHeight ↔ account ∈ l.accounts
  frontier : ∀ {account info}, l.confirmationHeightGet account = some info →
    (info.height = 0 ∧ info.frontier = 0) ∨ ∃ b, l.blockGet info.frontier = some b ∧
      b.account = account ∧ b.sideband.height = info.height

section

variable (H : HashAssumptions p known) {L : Lattice p known} {l : Ledger}
  (hb : BlocksRep p l.blocks L.chain)

theorem mem_accounts_iff (ha : AccountsRep p l.accounts L.chain) (a : Account) :
    a ∈ l.accounts ↔ L.chain a ≠ [] := by
  rw [← Finmap.lookup_isSome, ha a]
  cases L.chain a <;> simp [chainInfo?]

include H hb

theorem blockGet_position (n : L.Position) : l.blockGet n.hash =
    some (n.entry.stored n.account n.below (hashAt p (L.chain n.account) (n.height + 1))) :=
  blockGet_at H hb n.stands

theorem heightsValid_iff (ha : AccountsRep p l.accounts L.chain) :
    l.HeightsValid ↔ HeightsRep p l.confirmationHeight L.chain := by
  constructor
  · intro h
    have hcase {a : Account} {i : ConfirmationHeightInfo}
        (hi : l.confirmationHeight.lookup a = some i) :
        (i.height = 0 ∧ i.frontier = 0) ∨
          ∃ n : L.Position, n.account = a ∧ n.height = i.height ∧ n.hash = i.frontier := by
      refine (h.frontier hi).imp_right ?_
      rintro ⟨b, hget, hacc, hht⟩
      obtain ⟨a', e, c, hat, hh⟩ := at_of_blockGet hb hget
      let n : L.Position := ⟨a', e, c, hat⟩
      rw [← hh, show e.hash p = n.hash from rfl, blockGet_position H hb n] at hget
      cases hget
      exact ⟨n, (n.stored_account _).symm.trans hacc, (n.stored_height _).symm.trans hht, hh⟩
    refine ⟨fun a => (h.accounts a).trans (mem_accounts_iff ha a), fun {a i} hi => ?_,
      fun {a i} hi => ?_⟩
    · rcases hcase hi with ⟨hz, -⟩ | ⟨n, rfl, hn, -⟩
      · rw [hz]
        exact Nat.zero_le _
      · exact hn ▸ n.height_le
    · rcases hcase hi with ⟨hz, hf⟩ | ⟨n, rfl, hn, hf⟩
      · rw [hz, hf, hashAt_zero]
      · rw [← hn, ← hf, n.hashAt_height]
  · intro h
    refine ⟨fun a => (h.mem a).trans (mem_accounts_iff ha a).symm, fun {a i} hi => ?_⟩
    by_cases hz : i.height = 0
    · refine .inl ⟨hz, ?_⟩
      rw [h.frontier hi, hz, hashAt_zero]
    · obtain ⟨n, rfl, hn⟩ := Lattice.exists_position (L := L) (a := a) (k := i.height)
        (Nat.one_le_iff_ne_zero.2 hz) (h.height_le hi)
      have hfr : i.frontier = n.hash := by rw [h.frontier hi, ← hn, n.hashAt_height]
      exact .inr ⟨_, hfr ▸ blockGet_position H hb n, n.stored_account _,
        (n.stored_height _).trans hn⟩

omit hb in
theorem Uncemented.heightsValid (h : Uncemented l L) : l.HeightsValid := by
  have hr := h.holds.represents
  refine (heightsValid_iff H hr.blocks hr.accounts).2 ⟨hr.confirmation, h.holds.heights,
    fun {a i} hi => ?_⟩
  have hi' := (h.heights a).symm.trans hi
  split at hi'
  · cases hi'
  · split at hi'
    · rename_i ha
      cases hi'
      have hat := hashAt_suffix (p := p) h.genesis_at
      rw [← ha] at hat
      exact hat.symm
    · cases hi'
      exact (hashAt_zero _).symm

end

end Futurehead
