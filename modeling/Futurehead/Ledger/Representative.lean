import Futurehead.Ledger.Structure

/-!
# The representative of a block

`representative_visitor` walks down from a block to the first one that sets a representative. In a
run without foreign epoch blocks it finds one from every stored block, and from the head of an
account the one its record names. An epoch block for an account without blocks leaves a frontier on
a block of another account when it is rolled back; a legacy send can then be put there and outlive
the block it stands on.
-/

namespace Futurehead

open Option

variable {p : Params} {known : Block → Prop} {l : Ledger}

def Hashables.setsRepresentative : Hashables → Bool
  | .sendBlock .. | .receiveBlock .. => false
  | _ => true

/-- `ledger::representative` finds what the walk through the previous fields finds first. -/
structure RepresentativeLookup (p : Params) (l : Ledger) : Prop where
  nearest : ∀ hash b, l.blockGet hash = some b → ∃ found,
    (l.walk (l.blocks.keys.card + 1) hash).find? (·.2.block.hashables.setsRepresentative) =
      some found ∧ l.representative p hash = some found.1 ∧ found.2.account = b.account
  head : ∀ account info, l.accountGet account = some info → ∃ found b,
    l.representative p info.head = some found ∧ l.blockGet found = some b ∧
      b.block.hashables.representative = info.representative

theorem representativeLoop_eq_find? (hkey : ∀ hash b, l.blockGet hash = some b →
    p.hash b.block = hash) (fuel : Nat) (hash : BlockHash) :
    l.representativeLoop p fuel hash =
      ((l.walk fuel hash).find? (·.2.block.hashables.setsRepresentative)).map (·.1) := by
  induction fuel generalizing hash with
  | zero => rfl
  | succ fuel ih =>
    rw [Ledger.representativeLoop, Ledger.walk]
    cases hget : l.blockGet hash with
    | none => rfl
    | some b =>
      have hb := hkey hash b hget
      simp only [bind_eq_bind, bind_some, List.find?_cons]
      cases hh : b.block.hashables <;>
        simp [Hashables.setsRepresentative, Hashables.previous, ih, hb]

section

variable (H : HashAssumptions p known) {L : Lattice p known} {shift : Account → Amount}

include H

theorem hash_of_blockGet (hb : BlocksRep p l.blocks L.chain) {hash : BlockHash} {b : StoredBlock}
    (hget : l.blockGet hash = some b) : p.hash b.block = hash := by
  obtain ⟨a, e, c, hat, rfl⟩ := at_of_blockGet hb hget
  obtain rfl := Option.some.inj (hget.symm.trans (blockGet_at H hb hat))
  rw [Entry.stored_block]
  rfl

theorem walk_account (hb : BlocksRep p l.blocks L.chain) {a : Account} {e : Entry} {c : List Entry}
    (hat : L.At a e c) {x : BlockHash × StoredBlock}
    (hx : x ∈ l.walk (l.blocks.keys.card + 1) (e.hash p)) : x.2.account = a := by
  have hlen := hat.length_le.trans (length_le_card H hb a)
  rw [← headHash, walk_chain H hb hat (by simp only [List.length_cons] at hlen ⊢; omega)] at hx
  obtain ⟨e', d, hsuf, rfl⟩ := chainBlocks_mem.1 hx
  obtain ⟨_, _, hext⟩ := Lattice.extends_at (hsuf.trans hat)
  exact hext.stored_account _

theorem Represents.representativeLookup (h : Represents l L shift) : RepresentativeLookup p l := by
  constructor
  · intro hash b hget
    obtain ⟨a, e, c, hat, rfl⟩ := at_of_blockGet h.blocks hget
    obtain ⟨r, d, hatr, hloop, -⟩ := representative_at H h.blocks hat
    have hfind := hloop
    rw [Ledger.representative, representativeLoop_eq_find? fun _ _ => hash_of_blockGet H h.blocks]
      at hfind
    obtain ⟨found, hfnd, hhash⟩ := map_eq_some_iff.1 hfind
    obtain rfl := Option.some.inj (hget.symm.trans (blockGet_at H h.blocks hat))
    obtain ⟨_, _, hext⟩ := Lattice.extends_at hat
    refine ⟨found, hfnd, by rw [hloop, hhash], ?_⟩
    rw [walk_account H h.blocks hat (List.mem_of_find?_eq_some hfnd), hext.stored_account]
  · intro acc info hacc
    obtain ⟨hc, rfl⟩ := accountGet_some h.accounts hacc
    cases hch : L.chain acc with
    | nil => exact absurd hch hc
    | cons e c =>
      obtain ⟨r, d, hatr, hloop, hrep⟩ :=
        representative_at H h.blocks (Chains.at_head hch : L.At acc e c)
      exact ⟨_, _, hloop, blockGet_at H h.blocks hatr, hrep⟩

/-- The representative of every stored block is found, in every run without foreign epoch blocks. -/
theorem representative_lookup (hl : Reached p known (NoForeignEpoch p) l) :
    RepresentativeLookup p l := by
  obtain ⟨L, hL⟩ := hl.holds H
  exact hL.represents.representativeLookup H

end

open Sample

theorem representative_lookup_pays : ∃ l, run pays = some l ∧
    l.representative params (Sample.hash sendB) =
      some (Sample.hash params.genesisBlock) ∧ RepresentativeLookup params l := by
  obtain ⟨l, hl, hrep⟩ : ∃ l ∈ run pays,
    l.representative params (Sample.hash sendB) =
      some (Sample.hash params.genesisBlock) := by decide +kernel
  exact ⟨l, hl, hrep, representative_lookup hashAssumptions
    (reached_of_no_epochLink (by decide +kernel) hl)⟩

namespace Sample

def sendNone : Block := block (.sendBlock (hash openB) accountB 0)

def floatingBlocks : List Block := sendNone :: blocks

theorem floatingAssumptions : HashAssumptions params (· ∈ floatingBlocks) :=
  hashAssumptions_of_list (by decide +kernel) (by decide) (by decide +kernel)

/-- The send is put on the frontier that the epoch block of A left, and its previous block taken
away. -/
def floats : List Action :=
  receives ++ [put sendA, put epochA, take epochA, put sendNone, take openB]

end Sample

/-- The walk from the stored send ends at a block that is gone. -/
theorem representative_lookup_fails :
    HashAssumptions params (· ∈ floatingBlocks) ∧
    ∃ l, Reached params (· ∈ floatingBlocks) (fun _ action => action.LedgerCall) l ∧
      (l.blockGet (Sample.hash sendNone)).isSome ∧
      l.blockGet (Sample.hash openB) = none ∧
      l.representative params (Sample.hash sendNone) = none ∧ ¬ RepresentativeLookup params l := by
  obtain ⟨l, hl, hsome, hgone, hnone⟩ : ∃ l ∈ run floats,
    (l.blockGet (Sample.hash sendNone)).isSome ∧
    l.blockGet (Sample.hash openB) = none ∧
    l.representative params (Sample.hash sendNone) = none := by decide +kernel
  refine ⟨floatingAssumptions, l, reached_of_ledgerCalls (by decide +kernel) hl, hsome,
    hgone, hnone, fun h => ?_⟩
  obtain ⟨b, hget⟩ := isSome_iff_exists.1 hsome
  obtain ⟨found, -, hfnd, -⟩ := h.nearest _ b hget
  rw [hnone] at hfnd
  cases hfnd

end Futurehead
