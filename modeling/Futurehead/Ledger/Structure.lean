import Futurehead.Ledger.System

/-!
# Account chains and pending entries in the tables

What the lattice says about the tables, in terms of the tables alone: the blocks reached from the
head of an account form its chain (`ChainStructure`), and the pending entries are the stored sends
that no stored block receives (`PendingStructure`). Both hold in every run that processes no foreign
epoch block.
-/

namespace Futurehead

open List Option

variable {p : Params} {known : Block → Prop}

/-! ## Chains -/

/-- The blocks reached from `hash` through the previous fields, at most `fuel` of them. -/
def Ledger.walk (l : Ledger) : Nat → BlockHash → List (BlockHash × StoredBlock)
  | 0, _ => []
  | fuel + 1, hash =>
    match l.blockGet hash with
    | none => []
    | some b => (hash, b) :: walk l fuel b.block.hashables.previous

/-- The blocks of an account, newest first. One more step than its block count would find a block
too many. -/
def Ledger.chainOf (l : Ledger) (info : AccountInfo) : List (BlockHash × StoredBlock) :=
  l.walk (info.blockCount + 1) info.head

/-- The blocks of `account` are what its record says. -/
structure Ledger.ChainAgrees (l : Ledger) (account : Account) (info : AccountInfo) : Prop where
  length : (l.chainOf info).length = info.blockCount
  account : ∀ x ∈ l.chainOf info, x.2.account = account
  height : ∀ i x, (l.chainOf info)[i]? = some x → x.2.sideband.height + i = info.blockCount
  first : (l.chainOf info).getLast?.map (fun x => (x.1, x.2.block.hashables.previous)) =
    some (info.openBlock, 0)
  newest : ∀ x, (l.chainOf info)[0]? = some x → x.2.sideband.successor = 0
  successor : ∀ i x y, (l.chainOf info)[i]? = some x → (l.chainOf info)[i + 1]? = some y →
    y.2.sideband.successor = x.1

/-- The tables hold chains, and nothing else. -/
structure ChainStructure (l : Ledger) : Prop where
  agrees : ∀ account info, l.accountGet account = some info → l.ChainAgrees account info
  /-- Every stored block lies on exactly one chain. -/
  covers : ∀ hash, l.blockExists hash → ∃! account, ∃ info, l.accountGet account = some info ∧
    hash ∈ (l.chainOf info).map (·.1)
  frontiers : ∀ hash account, l.frontiers.lookup hash = some account ↔
    ∃ info b, l.accountGet account = some info ∧ info.head = hash ∧ l.blockGet hash = some b ∧
      b.block.hashables.type ≠ .state
  confirmation : ∀ account, account ∈ l.confirmationHeight ↔ account ∈ l.accounts

section Chain

/-- The hashes and table entries of a chain of `a`. -/
def chainBlocks (p : Params) (L : Chains) (a : Account) :
    List Entry → List (BlockHash × StoredBlock)
  | [] => []
  | e :: c => (e.hash p, e.stored a c (L.successor p a c)) :: chainBlocks p L a c

variable {τ : Chains} {a : Account} {c : List Entry} {x : BlockHash × StoredBlock}

theorem chainBlocks_length : (chainBlocks p τ a c).length = c.length := by
  induction c with
  | nil => rfl
  | cons e c ih => rw [chainBlocks, length_cons, ih, length_cons]

theorem chainBlocks_getElem? {i : Nat} (h : (chainBlocks p τ a c)[i]? = some x) :
    ∃ e d, e :: d <:+ c ∧ d.length + 1 + i = c.length ∧
      x = (e.hash p, e.stored a d (τ.successor p a d)) := by
  induction c generalizing i with
  | nil => simp [chainBlocks] at h
  | cons e c ih =>
    cases i with
    | zero =>
      rw [chainBlocks, getElem?_cons_zero] at h
      exact ⟨e, c, suffix_rfl, rfl, (Option.some.inj h).symm⟩
    | succ i =>
      rw [chainBlocks, getElem?_cons_succ] at h
      obtain ⟨e', d, hsuf, hlen, rfl⟩ := ih h
      exact ⟨e', d, hsuf.trans (suffix_cons e c), by simp only [length_cons]; omega, rfl⟩

theorem chainBlocks_mem : x ∈ chainBlocks p τ a c ↔
    ∃ e d, e :: d <:+ c ∧ x = (e.hash p, e.stored a d (τ.successor p a d)) := by
  constructor
  · intro h
    obtain ⟨i, hi⟩ := mem_iff_getElem?.1 h
    obtain ⟨e, d, hsuf, -, hx⟩ := chainBlocks_getElem? hi
    exact ⟨e, d, hsuf, hx⟩
  · rintro ⟨e, d, hsuf, rfl⟩
    induction c with
    | nil => simp at hsuf
    | cons e' c ih =>
      rcases suffix_cons_iff.1 hsuf with heq | hsuf'
      · cases heq; exact mem_cons_self ..
      · exact mem_cons_of_mem _ (ih hsuf')

theorem chainBlocks_getLast? (hc : c ≠ []) :
    ∃ e, [e] <:+ c ∧ chainOpen p c = e.hash p ∧ (chainBlocks p τ a c).getLast? =
      some (e.hash p, e.stored a [] (τ.successor p a [])) := by
  induction c with
  | nil => exact absurd rfl hc
  | cons e c ih =>
    cases c with
    | nil => exact ⟨e, suffix_rfl, rfl, rfl⟩
    | cons e' c =>
      obtain ⟨e0, hsuf, hopen, hlast⟩ := ih (by simp)
      refine ⟨e0, hsuf.trans (suffix_cons e _), hopen, ?_⟩
      rw [chainBlocks, chainBlocks, getLast?_cons_cons]
      exact hlast

variable (H : HashAssumptions p known) {L : Lattice p known} {l : Ledger}

include H in
theorem walk_chain (hb : BlocksRep p l.blocks L.chain) (hsuf : c <:+ L.chain a) {fuel : Nat}
    (hf : c.length ≤ fuel) : l.walk fuel (headHash p c) = chainBlocks p L.chain a c := by
  induction c generalizing fuel with
  | nil =>
    cases fuel with
    | zero => rfl
    | succ fuel => rw [headHash, Ledger.walk, blockGet_zero H hb]; rfl
  | cons e c ih =>
    obtain ⟨fuel, rfl⟩ : ∃ k, fuel = k + 1 := ⟨fuel - 1, by simp at hf; omega⟩
    have hat : L.At a e c := hsuf
    rw [headHash, Ledger.walk, blockGet_at H hb hat]
    dsimp only
    rw [Entry.stored_block, Lattice.previous_at hat,
      ih ((suffix_cons e c).trans hsuf) (by simp at hf; omega)]
    rfl

include H in
theorem chainOf_chain (hb : BlocksRep p l.blocks L.chain) :
    l.chainOf (chainInfo p (L.chain a)) = chainBlocks p L.chain a (L.chain a) :=
  walk_chain H hb suffix_rfl (Nat.le_succ _)

include H in
theorem chainAgrees_chain (hb : BlocksRep p l.blocks L.chain) (hc : L.chain a ≠ []) :
    l.ChainAgrees a (chainInfo p (L.chain a)) := by
  have hch := chainOf_chain (a := a) H hb
  constructor
  · rw [hch, chainBlocks_length]; rfl
  · rw [hch]
    intro x hx
    obtain ⟨e, d, hat, rfl⟩ := chainBlocks_mem.1 hx
    obtain ⟨_, _, hext⟩ := Lattice.extends_at hat
    exact hext.stored_account _
  · rw [hch]
    intro i x hx
    obtain ⟨e, d, hat, hlen, rfl⟩ := chainBlocks_getElem? hx
    obtain ⟨_, _, hext⟩ := Lattice.extends_at hat
    rw [hext.stored_height]
    exact hlen
  · rw [hch]
    obtain ⟨e, hat, hopen, hlast⟩ := chainBlocks_getLast? (p := p) (τ := L.chain) (a := a) hc
    have hprev := Lattice.previous_at hat
    rw [hlast, map_some, Entry.stored_block, hprev, ← hopen]
    rfl
  · rw [hch]
    intro x hx
    obtain ⟨e, d, hat, hlen, rfl⟩ := chainBlocks_getElem? hx
    rw [Entry.stored_successor, Chains.successor]
    exact hashAt_of_length_lt (by omega)
  · rw [hch]
    intro i x y hx hy
    obtain ⟨e, d, hat, hlen, rfl⟩ := chainBlocks_getElem? hx
    obtain ⟨e', d', hat', hlen', rfl⟩ := chainBlocks_getElem? hy
    rw [Entry.stored_successor, Chains.successor, show d'.length + 2 = d.length + 1 by omega]
    exact hashAt_suffix hat

variable {shift : Account → Amount}

include H

theorem Represents.chainStructure (h : Represents l L shift) : ChainStructure l := by
  constructor
  · intro acc info hacc
    obtain ⟨hc, rfl⟩ := accountGet_some h.accounts hacc
    exact chainAgrees_chain H h.blocks hc
  · intro hash hex
    obtain ⟨y, e, d, hat, rfl⟩ := at_of_blockExists h.blocks hex
    have hc : L.chain y ≠ [] := fun hnil => by have := hat.length_le; simp [hnil] at this
    refine ⟨y, ⟨_, accountGet_of_ne_nil h.accounts hc, ?_⟩, ?_⟩
    · rw [chainOf_chain H h.blocks]
      exact List.mem_map.2 ⟨_, chainBlocks_mem.2 ⟨e, d, hat, rfl⟩, rfl⟩
    · rintro acc ⟨info, hacc, hmem⟩
      obtain ⟨-, rfl⟩ := accountGet_some h.accounts hacc
      rw [chainOf_chain H h.blocks] at hmem
      obtain ⟨x, hx, hh⟩ := List.mem_map.1 hmem
      obtain ⟨e', d', hat', rfl⟩ := chainBlocks_mem.1 hx
      exact (Lattice.at_unique H hat' hat hh).1
  · intro hash acc
    rw [h.frontiers]
    constructor
    · rintro ⟨hl, rfl⟩
      cases hc : L.chain acc with
      | nil => simp [hc, chainLegacy] at hl
      | cons e d =>
        refine ⟨_, _, accountGet_of_ne_nil h.accounts (by simp [hc]), by rw [hc]; rfl,
          blockGet_at H h.blocks (Chains.at_head hc), ?_⟩
        rw [hc] at hl
        simpa [chainLegacy, Entry.type] using hl
    · rintro ⟨info, b, hacc, rfl, hget, ht⟩
      obtain ⟨hne, rfl⟩ := accountGet_some h.accounts hacc
      cases hc : L.chain acc with
      | nil => exact absurd hc hne
      | cons e d =>
        rw [hc] at hget
        obtain rfl := Option.some.inj
          ((blockGet_at H h.blocks (Chains.at_head hc)).symm.trans hget)
        exact ⟨by simpa [chainLegacy, Entry.type] using ht, rfl⟩
  · intro acc
    rw [h.confirmation, ← Finmap.lookup_isSome, h.accounts acc]
    cases L.chain acc <;> simp [chainInfo?]

/-- The blocks of every account form a chain, in every run without foreign epoch blocks. -/
theorem chain_structure (hl : Reached p known (NoForeignEpoch p) l) : ChainStructure l := by
  obtain ⟨L, h⟩ := hl.holds H
  exact h.represents.chainStructure H

end Chain

open Sample

theorem chain_structure_receives :
    ∃ l, run receives = some l ∧ l.blockCount = 5 ∧ ChainStructure l := by
  obtain ⟨l, hl, hcnt⟩ : ∃ l ∈ run receives, l.blockCount = 5 := by decide +kernel
  exact ⟨l, hl, hcnt, chain_structure hashAssumptions
    (reached_of_no_epochLink (by decide +kernel) hl)⟩

/-- The epoch block of A is its only block, but from it the open block of B is reached. -/
theorem chain_structure_fails :
    ∃ l, Reached params (· ∈ blocks) (fun _ action => action.LedgerCall) l ∧
      ∃ info, l.accountGet accountA = some info ∧ info.blockCount = 1 ∧
        (l.chainOf info).length = 2 ∧ ¬ ChainStructure l := by
  obtain ⟨l, hl, info, hinfo, hcnt, hlen⟩ : ∃ l ∈ run straddles,
    ∃ info ∈ l.accountGet accountA, info.blockCount = 1 ∧ (l.chainOf info).length = 2 := by
    decide +kernel
  refine ⟨l, reached_of_ledgerCalls (by decide +kernel) hl, info, hinfo, hcnt, hlen, fun h => ?_⟩
  have := (h.agrees _ _ hinfo).length
  omega

/-! ## Pending entries -/

/-- The destination of a stored send: a legacy send, or a state block whose balance is below that of
its previous block. -/
def Ledger.destination (l : Ledger) (hash : BlockHash) : Option Account := do
  let b ← l.blockGet hash
  match b.block.hashables with
  | .sendBlock _ destination _ => some destination
  | .stateBlock _ previous _ balance link => do
    let before ← l.balance previous
    if balance < before then some link else none
  | _ => none

/-- The source of a stored open or receive block, or of a state block that does not send. -/
def Ledger.source (l : Ledger) (hash : BlockHash) : Option BlockHash := do
  let b ← l.blockGet hash
  match b.block.hashables with
  | .openBlock source _ _ => some source
  | .receiveBlock _ source => some source
  | .stateBlock _ previous _ balance link => do
    let before ← l.balance previous
    if balance < before then none else some link
  | _ => none

def Ledger.balances (l : Ledger) (hash : BlockHash) : Option (Amount × Amount) := do
  let b ← l.blockGet hash
  let before ← l.balance b.block.hashables.previous
  let after ← l.balance hash
  some (before, after)

/-- The pending entries are the sends that are not received, and a send is received once. -/
structure PendingStructure (l : Ledger) : Prop where
  pending : ∀ d h, (⟨d, h⟩ : PendingKey) ∈ l.pending ↔
    l.destination h = some d ∧ ∀ r, l.source r ≠ some h
  entry : ∀ d h i, l.pendingGet ⟨d, h⟩ = some i → l.account h = some i.source ∧
    ∃ before after, l.balances h = some (before, after) ∧
      before.toNat = after.toNat + i.amount.toNat
  once : ∀ h d r r', l.destination h = some d → l.source r = some h → l.source r' = some h → r = r'
  increase : ∀ h d r, l.destination h = some d → l.source r = some h →
    ∃ amount before after before' after', l.balances h = some (before, after) ∧
      before.toNat = after.toNat + amount ∧ l.balances r = some (before', after') ∧
      after'.toNat = before'.toNat + amount

section Pending

variable (H : HashAssumptions p known) {L : Lattice p known} {l : Ledger}
  {shift : Account → Amount} {a d : Account} {e : Entry} {c : List Entry} {h : BlockHash}

section

variable (hb : BlocksRep p l.blocks L.chain)

include hb

include H in
theorem destination_at (hat : L.At a e c) :
    l.destination (e.hash p) = some d ↔ e.kind p c = .send d := by
  have hprev := Lattice.previous_at hat
  unfold Ledger.destination Entry.kind
  rw [blockGet_at H hb hat]
  simp only [bind_eq_bind, bind_some, Entry.stored_block]
  cases hh : e.block.hashables with
  | stateBlock acc prev rep bal link =>
    rw [hh, Hashables.previous] at hprev
    simp only [hprev, balance_below H hb hat, bind_some, Hashables.kind]
    split_ifs <;> simp
  | openBlock source rep acc =>
    simp only [Hashables.kind]
    split_ifs <;> simp
  | _ => simp [Hashables.kind]

include H in
theorem source_at (hat : L.At a e c) {y : Account} {x : Entry} {w : List Entry} (hx : L.At y x w) :
    l.source (e.hash p) = some (x.hash p) ↔ e.kind p c = .receive (x.hash p) := by
  have hprev := Lattice.previous_at hat
  have hkn := L.known_at hx
  unfold Ledger.source Entry.kind
  rw [blockGet_at H hb hat]
  simp only [bind_eq_bind, bind_some, Entry.stored_block]
  cases hh : e.block.hashables with
  | stateBlock acc prev rep bal link =>
    rw [hh, Hashables.previous] at hprev
    simp only [hprev, balance_below H hb hat, bind_some, Hashables.kind]
    split_ifs with hlt hlink
    · simp
    · simp only [Option.some.injEq, iff_false]
      rintro rfl
      rcases hlink with hz | hep
      · exact H.ne_zero hkn hz
      · exact Bool.false_ne_true ((H.not_epochLink hkn).symm.trans hep)
    · simp
  | openBlock source rep acc =>
    simp only [Hashables.kind]
    split_ifs with hg
    · simp only [Option.some.injEq, iff_false]
      rintro rfl
      exact H.ne_genesisAccount hkn hg
    · simp
  | _ => simp [Hashables.kind]

theorem at_of_source {r s : BlockHash} (hs : l.source r = some s) :
    ∃ a e c, L.At a e c ∧ e.hash p = r := by
  obtain ⟨b, hget, -⟩ := bind_eq_some_iff.1 hs
  exact at_of_blockGet hb hget

theorem at_of_destination (hd : l.destination h = some d) : ∃ a e c, L.At a e c ∧ e.hash p = h := by
  obtain ⟨b, hget, -⟩ := bind_eq_some_iff.1 hd
  exact at_of_blockGet hb hget

include H in
theorem balances_at (hat : L.At a e c) :
    l.balances (e.hash p) = some (chainBal c, e.balance) := by
  unfold Ledger.balances
  rw [blockGet_at H hb hat]
  simp only [bind_eq_bind, bind_some, Entry.stored_block, Lattice.previous_at hat,
    balance_below H hb hat, balance_at H hb hat]

end

theorem sent_toNat (hat : L.At a e c) (hk : e.kind p c = .send d) :
    (chainBal c).toNat = e.balance.toNat + (e.sent c).toNat := by
  obtain ⟨_, _, hx⟩ := Lattice.extends_at hat
  have hle := hx.send d hk
  rw [Entry.sent, BitVec.toNat_sub_of_le hle]
  have := BitVec.le_def.1 hle
  omega

include H

theorem Represents.pendingStructure (hrep : Represents l L shift) : PendingStructure l := by
  have hb := hrep.blocks
  constructor
  · intro d h
    rw [Finmap.mem_iff]
    constructor
    · rintro ⟨i, hi⟩
      obtain ⟨a, e, c, hat, hk, hnr, rfl⟩ := hrep.pending.only hi
      refine ⟨(destination_at H hb hat).2 hk, fun r hr => ?_⟩
      obtain ⟨y, x, w, hx, rfl⟩ := at_of_source hb hr
      exact hnr ⟨y, x, w, hx, (source_at H hb hx hat).1 hr⟩
    · rintro ⟨hd, hsrc⟩
      obtain ⟨a, e, c, hat, rfl⟩ := at_of_destination hb hd
      refine ⟨_, hrep.pending.stored hat ((destination_at H hb hat).1 hd) ?_⟩
      rintro ⟨y, x, w, hx, hk⟩
      exact hsrc _ ((source_at H hb hx hat).2 hk)
  · intro d h i hi
    obtain ⟨a, e, c, hat, hk, hnr, rfl⟩ := hrep.pending.only hi
    obtain rfl := Option.some.inj (hi.symm.trans (hrep.pending.stored hat hk hnr))
    exact ⟨account_at H hb hat, _, _, balances_at H hb hat, sent_toNat hat hk⟩
  · intro h d r r' hd hr hr'
    obtain ⟨a, e, c, hat, rfl⟩ := at_of_destination hb hd
    obtain ⟨y, x, w, hx, rfl⟩ := at_of_source hb hr
    obtain ⟨y', x', w', hx', rfl⟩ := at_of_source hb hr'
    obtain ⟨-, rfl, -⟩ := L.received_once hx hx' ((source_at H hb hx hat).1 hr)
      ((source_at H hb hx' hat).1 hr')
    rfl
  · intro h d r hd hr
    obtain ⟨a, e, c, hat, rfl⟩ := at_of_destination hb hd
    obtain ⟨y, x, w, hx, rfl⟩ := at_of_source hb hr
    have hk := (destination_at H hb hat).1 hd
    have hkx := (source_at H hb hx hat).1 hr
    obtain ⟨amt, epoch, hext, hs⟩ := L.valid hx
    obtain ⟨a', e', c', hat', hh, -, rfl, -⟩ := hs _ hkx
    obtain ⟨rfl, rfl, rfl⟩ := Lattice.at_unique H hat' hat hh
    exact ⟨_, _, _, _, _, balances_at H hb hat, sent_toNat hat hk, balances_at H hb hx,
      hext.receive _ hkx⟩

/-- The pending table is what the stored blocks say, in every run without foreign epoch blocks. -/
theorem pending_structure (hl : Reached p known (NoForeignEpoch p) l) : PendingStructure l := by
  obtain ⟨L, hL⟩ := hl.holds H
  exact hL.represents.pendingStructure H

end Pending

theorem pending_structure_receives :
    ∃ l, run receives = some l ∧ l.source (Sample.hash receiveB) =
      some (Sample.hash sendB) ∧ PendingStructure l := by
  obtain ⟨l, hl, hsrc⟩ : ∃ l ∈ run receives,
    l.source (Sample.hash receiveB) = some (Sample.hash sendB) := by decide +kernel
  exact ⟨l, hl, hsrc, pending_structure hashAssumptions
    (reached_of_no_epochLink (by decide +kernel) hl)⟩

/-- Once the head of B is its open block again, with the balance it had received, B can send what its
previous block does not have. -/
theorem pending_structure_fails :
    ∃ l, Reached params (· ∈ blocks) (fun _ action => action.LedgerCall) l ∧
      (⟨accountA, Sample.hash spendB⟩ : PendingKey) ∈ l.pending ∧
      l.destination (Sample.hash spendB) = none ∧ ¬ PendingStructure l := by
  obtain ⟨l, hl, hmem, hdest⟩ : ∃ l ∈ run (misplaces ++ [put spendB]),
    (⟨accountA, Sample.hash spendB⟩ : PendingKey) ∈ l.pending ∧
    l.destination (Sample.hash spendB) = none := by decide +kernel
  refine ⟨l, reached_of_ledgerCalls (by decide +kernel) hl, hmem, hdest, fun h => ?_⟩
  have := ((h.pending _ _).1 hmem).1
  rw [hdest] at this
  cases this

end Futurehead
