import Futurehead.Ledger.Queries
import Futurehead.Lattice.Represents

/-!
# Queries on a ledger that holds a lattice

What the store and ledger queries return, in terms of the lattice. The hypotheses name only the
table a query reads, so that the lemmas also apply in the middle of an update of other tables.
-/

namespace Futurehead

open List Option Futurehead.Lattice Ledger

variable {p : Params} {known : Block → Prop} (H : HashAssumptions p known) {L : Lattice p known}
  {l : Ledger} {a : Account} {e : Entry} {c : List Entry}

/-! ## Blocks -/

section

variable (hb : BlocksRep p l.blocks L.chain)

include H hb

section

variable (h : L.At a e c)

include h

theorem lookup_at (type : BlockType) : l.blocks.lookup (type, e.hash p) =
      if type = e.type then some (e.stored a c (L.chain.successor p a c)) else none := by
  split
  · rename_i ht; rw [ht]; exact hb.stored h
  · rename_i ht
    cases hlk : l.blocks.lookup (type, e.hash p) with
    | none => rfl
    | some b =>
      obtain ⟨a', e', c', hat, hk⟩ := hb.only hlk
      obtain ⟨rfl, rfl, rfl⟩ := at_unique H h hat (congrArg Prod.snd hk)
      exact absurd (congrArg Prod.fst hk) ht

theorem blockRawGet_at :
    l.blockRawGet (e.hash p) = some (e.type, e.stored a c (L.chain.successor p a c)) := by
  have hlk := lookup_at H hb h
  unfold Ledger.blockRawGet
  cases ht : e.type <;> simp [List.findSome?, hlk, ht]

theorem blockGet_at : l.blockGet (e.hash p) = some (e.stored a c (L.chain.successor p a c)) := by
  unfold Ledger.blockGet
  rw [blockRawGet_at H hb h, map_some]

theorem blockExists_at : l.blockExists (e.hash p) := by
  have hlk := lookup_at H hb h
  unfold Ledger.blockExists blockExistsType
  cases ht : e.type <;> simp [hlk, ht]

theorem blockExistsType_at : l.blockExistsType e.type (e.hash p) := by
  unfold blockExistsType
  rw [lookup_at H hb h, if_pos rfl]
  rfl

theorem account_at : l.account (e.hash p) = some a := by
  obtain ⟨_, _, hx⟩ := extends_at h
  unfold Ledger.account blockAccount
  rw [blockGet_at H hb h, map_some, hx.stored_account]

theorem blockAccountHeight_at : l.blockAccountHeight (e.hash p) = some (c.length + 1) := by
  obtain ⟨_, _, hx⟩ := extends_at h
  unfold blockAccountHeight
  rw [blockGet_at H hb h, map_some, hx.stored_height]

theorem balance_at : l.balance (e.hash p) = some e.balance := by
  obtain ⟨_, _, hx⟩ := extends_at h
  unfold Ledger.balance blockBalance
  rw [if_neg (hash_ne_zero H h), blockGet_at H hb h, map_some, hx.stored_balance]

theorem blockVersion_at : l.blockVersion (e.hash p) = e.details.epoch := by
  obtain ⟨_, _, hx⟩ := extends_at h
  unfold blockVersion
  rw [blockGet_at H hb h, map_some, hx.stored_version, getD_some]

theorem balance_below : l.balance (headHash p c) = some (chainBal c) := by
  cases c with
  | nil => simp [Ledger.balance, headHash, chainBal]
  | cons x c => exact balance_at H hb h.below

theorem amount_at {d : Account} (hk : e.kind p c = .send d) :
    l.amount (e.hash p) = some (e.sent c) := by
  obtain ⟨_, _, hx⟩ := extends_at h
  have hle := hx.send d hk
  unfold Ledger.amount
  rw [blockGet_at H hb h, balance_at H hb h]
  simp only [bind_eq_bind, bind_some, Entry.stored_block, hx.previous, balance_below H hb h]
  rw [if_neg (by simpa using hle)]
  rfl

end

variable {h : BlockHash} {type : BlockType} {b : StoredBlock}

omit H in
theorem at_of_blockRawGet (hg : l.blockRawGet h = some (type, b)) :
    ∃ a e c, L.At a e c ∧ e.hash p = h := by
  unfold Ledger.blockRawGet at hg
  obtain ⟨ty, -, hty⟩ := exists_of_findSome?_eq_some hg
  obtain ⟨b', hb', -⟩ := map_eq_some_iff.1 hty
  obtain ⟨a, e, c, hat, hk⟩ := hb.only hb'
  exact ⟨a, e, c, hat, (congrArg Prod.snd hk).symm⟩

omit H in
theorem at_of_blockGet (hg : l.blockGet h = some b) : ∃ a e c, L.At a e c ∧ e.hash p = h := by
  obtain ⟨⟨type, b'⟩, hraw, -⟩ := map_eq_some_iff.1 hg
  exact at_of_blockRawGet hb hraw

omit H in
theorem at_of_blockExistsType (hex : l.blockExistsType type h) :
    ∃ a e c, L.At a e c ∧ (type, h) = e.key p := by
  obtain ⟨b, hlk⟩ := isSome_iff_exists.1 hex
  exact hb.only hlk

omit H in
theorem at_of_blockExists (hex : l.blockExists h) : ∃ a e c, L.At a e c ∧ e.hash p = h := by
  have : ∃ type, l.blockExistsType type h := by
    simp only [Ledger.blockExists, Bool.or_eq_true] at hex
    rcases hex with (((h | h) | h) | h) | h <;> exact ⟨_, h⟩
  obtain ⟨type, hex⟩ := this
  obtain ⟨a, e, c, hat, hk⟩ := at_of_blockExistsType hb hex
  exact ⟨a, e, c, hat, (congrArg Prod.snd hk).symm⟩

theorem blocks_lookup_zero {k : BlockType × BlockHash} (hk : k.2 = 0) :
    l.blocks.lookup k = none := by
  cases hlk : l.blocks.lookup k with
  | none => rfl
  | some b =>
    obtain ⟨a, e, c, hat, rfl⟩ := hb.only hlk
    exact absurd hk (hash_ne_zero H hat)

theorem blockGet_zero : l.blockGet 0 = none := by
  cases hg : l.blockGet 0 with
  | none => rfl
  | some b =>
    obtain ⟨a, e, c, hat, hh⟩ := at_of_blockGet hb hg
    exact absurd hh (hash_ne_zero H hat)

theorem length_le_card (a : Account) : (L.chain a).length ≤ l.blocks.keys.card := by
  have hkey : ∀ d, d <:+ L.chain a → (d.map (Entry.key p)).Nodup := by
    intro d
    induction d with
    | nil => simp
    | cons e d ih =>
      intro hsuf
      rw [map_cons, nodup_cons]
      refine ⟨fun hmem => ?_, ih ((suffix_cons e d).trans hsuf)⟩
      obtain ⟨x, hx, hk⟩ := List.mem_map.1 hmem
      obtain ⟨s, t, hst⟩ := append_of_mem hx
      have hat : L.At a x t := (List.IsSuffix.trans ⟨s, hst.symm⟩ (suffix_cons e d)).trans hsuf
      -- the same hash further down the same chain
      obtain ⟨-, -, rfl⟩ := at_unique H hat hsuf (congrArg Prod.snd hk)
      have := congrArg List.length hst
      simp only [length_append, length_cons] at this
      omega
  have hsub : (L.chain a).map (Entry.key p) ⊆ l.blocks.keys.toList := by
    intro k hk
    obtain ⟨x, hx, rfl⟩ := List.mem_map.1 hk
    obtain ⟨s, t, hst⟩ := append_of_mem hx
    have hat : L.At a x t := ⟨s, hst.symm⟩
    rw [Finset.mem_toList, Finmap.mem_keys, Finmap.mem_iff]
    exact ⟨_, hb.stored hat⟩
  have := ((hkey _ (suffix_refl _)).subperm hsub).length_le
  rwa [length_map, Finset.length_toList] at this

theorem representativeLoop_at {fuel : Nat} (h : L.At a e c) (hf : c.length < fuel) :
    ∃ r d, L.At a r d ∧ l.representativeLoop p fuel (e.hash p) = some (r.hash p) ∧
      r.block.hashables.representative = chainRep (e :: c) := by
  -- down the chain: a send or receive block has a block below it
  induction c generalizing e fuel with
  | nil =>
    obtain ⟨_, _, hx⟩ := extends_at h
    have ho := hx.opens rfl
    unfold Entry.type at ho
    obtain ⟨fuel, rfl⟩ : ∃ k, fuel = k + 1 := ⟨fuel - 1, by simp at hf; omega⟩
    refine ⟨e, [], h, ?_, ?_⟩
    · rw [representativeLoop, blockGet_at H hb h]
      cases hh : e.block.hashables <;> simp_all [Hashables.type] <;> rfl
    · rw [chainRep]
      cases hh : e.block.hashables <;> simp_all [Hashables.type]
  | cons x c ih =>
    obtain ⟨_, _, hx⟩ := extends_at h
    have hprev := hx.previous
    rw [headHash] at hprev
    obtain ⟨fuel, rfl⟩ : ∃ k, fuel = k + 1 := ⟨fuel - 1, by simp at hf; omega⟩
    have hf' : c.length < fuel := by simp at hf; omega
    obtain ⟨r, d, hat, hloop, hrep⟩ := ih h.below hf'
    rw [representativeLoop, blockGet_at H hb h, chainRep]
    simp only [bind_eq_bind, bind_some, Entry.stored_block]
    cases hh : e.block.hashables with
    | sendBlock prev _ _ | receiveBlock prev _ =>
      rw [hh] at hprev
      obtain rfl : prev = x.hash p := hprev
      exact ⟨r, d, hat, hloop, hrep⟩
    | openBlock | changeBlock | stateBlock => exact ⟨e, x :: c, h, rfl, by rw [hh]⟩

theorem representative_at (h : L.At a e c) :
    ∃ r d, L.At a r d ∧ l.representative p (e.hash p) = some (r.hash p) ∧
      r.block.hashables.representative = chainRep (e :: c) := by
  have hlen := h.length_le.trans (length_le_card H hb a)
  exact representativeLoop_at H hb h (by omega)

end

/-! ## Accounts and frontiers -/

section

variable (ha : AccountsRep p l.accounts L.chain)

include ha

theorem accountGet_chain (a : Account) : l.accountGet a = chainInfo? p (L.chain a) := ha a

theorem accountGet_getD (a : Account) : (l.accountGet a).getD {} = chainInfo p (L.chain a) := by
  rw [accountGet_chain ha, chainInfo?_getD]

theorem accountGet_some {acc : Account} {info : AccountInfo}
    (hacc : l.accountGet acc = some info) :
    L.chain acc ≠ [] ∧ info = chainInfo p (L.chain acc) := by
  rw [accountGet_chain ha] at hacc
  cases hc : L.chain acc with
  | nil => rw [hc, chainInfo?_nil] at hacc; cases hacc
  | cons e d => rw [hc, chainInfo?_cons] at hacc; cases hacc; exact ⟨by simp, rfl⟩

theorem accountGet_of_ne_nil (hc : L.chain a ≠ []) :
    l.accountGet a = some (chainInfo p (L.chain a)) := by
  rw [accountGet_chain ha, chainInfo?, if_neg hc]

theorem chain_eq_nil {a : Account} (h : l.accountGet a = none) : L.chain a = [] := by
  by_contra hc
  cases (accountGet_of_ne_nil ha hc).symm.trans h

theorem latest_chain (a : Account) : l.latest a = headHash p (L.chain a) := by
  unfold Ledger.latest
  rw [accountGet_chain ha]
  cases L.chain a <;> rfl

end

theorem frontierGet_chain (hf : FrontiersRep p l.frontiers L.chain) {h : BlockHash}
    (hne : l.frontierGet h ≠ 0) :
    chainLegacy (L.chain (l.frontierGet h)) ∧ headHash p (L.chain (l.frontierGet h)) = h := by
  unfold Ledger.frontierGet at hne ⊢
  cases hlk : l.frontiers.lookup h with
  | none => simp [hlk] at hne
  | some a => exact (hf h a).1 hlk

end Futurehead
