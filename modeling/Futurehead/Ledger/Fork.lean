import Futurehead.Ledger.Structure

/-!
# Forks (`ledger::forked_block`)

`ledger::process` answers `fork` for a block whose place is taken. `ledger::forked_block` then looks
for the block that takes it: the successor of the root, or else the first block of the account that
the root names.
-/

namespace Futurehead

open List Option Futurehead.Lattice Hashables

/-- `ledger::forked_block`. A missing account leaves a default record. -/
def Ledger.forkedBlock (l : Ledger) (b : Block) : Option StoredBlock :=
  let root := b.hashables.root
  match l.blockGet (l.blockSuccessor root) with
  | some result => some result
  | none => l.blockGet ((l.accountGet root).getD {}).openBlock

/-- A stored block with the same root and another hash. -/
def Ledger.Rival (p : Params) (l : Ledger) (b : Block) (s : StoredBlock) : Prop :=
  l.blockGet (p.hash s.block) = some s ∧ s.block.hashables.root = b.hashables.root ∧
    p.hash s.block ≠ p.hash b

/-- The previous block of `b` is the newest block of some account. -/
def Ledger.OnHead (l : Ledger) (b : Block) : Prop :=
  ∃ account info, l.accountGet account = some info ∧ info.head = b.hashables.previous

theorem process_fork {p : Params} {l l' : Ledger} {b : Block} {tag : SignatureVerification}
    {r : ProcessReturn} (hproc : l.process p b tag = some (r, l')) (hfork : r.code = .fork) :
    Forked p l b := by
  have hvis : Returns (l.visit p b tag) fun r _ => r.code = .fork → Forked p l b :=
    .visit (fun r hr => hr.fork) fun x hx r l' heq hf => by
      cases (hx.accepted r l' heq).code.symm.trans hf
  exact hvis.process (fun _ _ _ h => h) r l' hproc hfork

/-! ## What is found -/

section

variable {p : Params} {known : Block → Prop} (H : HashAssumptions p known) {L : Lattice p known}
  {l : Ledger} {a : Account} {e x : Entry} {c : List Entry} {b : Block}

include H in
theorem root_above (hat : L.At a e (x :: c)) : e.block.hashables.root = x.hash p := by
  obtain ⟨_, _, hx⟩ := extends_at hat
  have hprev : e.block.hashables.previous = x.hash p := hx.previous
  have hne := hash_ne_zero H hat.below
  rw [root_of_previous (hprev ▸ hne), hprev]

theorem exists_first {d : List Entry} (hd : d ≠ []) (hsuf : d <:+ L.chain a) :
    ∃ e, L.At a e [] ∧ e.hash p = chainOpen p d := by
  induction d with
  | nil => exact absurd rfl hd
  | cons e d ih =>
    rw [chainOpen_cons]
    by_cases hnil : d = []
    · rw [if_pos hnil]
      exact ⟨e, hnil ▸ hsuf, rfl⟩
    · rw [if_neg hnil]
      exact ih hnil ((suffix_cons e d).trans hsuf)

theorem exists_above (hat : L.At a x c) (hne : x :: c ≠ L.chain a) : ∃ e, L.At a e (x :: c) := by
  obtain ⟨t, ht⟩ := hat
  rcases eq_nil_or_concat t with rfl | ⟨t, e, rfl⟩
  · exact absurd ht hne
  · exact ⟨e, t, by rw [← ht]; simp⟩

section

variable (h : Represents l L fun _ => 0)

include H h

theorem blockSuccessor_at (hat : L.At a x c) :
    (x :: c = L.chain a ∧ l.blockSuccessor (x.hash p) = 0) ∨
      ∃ e, L.At a e (x :: c) ∧ l.blockSuccessor (x.hash p) = e.hash p := by
  have hsucc : l.blockSuccessor (x.hash p) = L.chain.successor p a c := by
    unfold Ledger.blockSuccessor
    rw [blockGet_at H h.blocks hat, map_some, getD_some, Entry.stored_successor]
  rw [hsucc, Chains.successor]
  by_cases hhead : x :: c = L.chain a
  · refine .inl ⟨hhead, hashAt_of_length_lt ?_⟩
    rw [← hhead, length_cons]
    omega
  · obtain ⟨e, he⟩ := exists_above hat hhead
    exact .inr ⟨e, he, hashAt_suffix he⟩

theorem root_of_successor {root : Root} {s : StoredBlock}
    (hs : l.blockGet (l.blockSuccessor root) = some s) :
    ∃ y e d, L.At y e d ∧ s.block = e.block ∧ e.block.hashables.root = root ∧
      l.blockGet (e.hash p) = some s := by
  obtain ⟨y, e, d, hat, he⟩ := at_of_blockGet h.blocks hs
  cases hroot : l.blockGet root with
  | none =>
    have hzero : l.blockSuccessor root = 0 := by rw [Ledger.blockSuccessor, hroot]; rfl
    exact absurd (he.trans hzero) (hash_ne_zero H hat)
  | some x =>
    obtain ⟨z, x, c, hx, rfl⟩ := at_of_blockGet h.blocks hroot
    rcases blockSuccessor_at H h hx with ⟨-, hzero⟩ | ⟨n, hn, hsucc⟩
    · exact absurd (he.trans hzero) (hash_ne_zero H hat)
    · rw [hsucc] at hs
      have hget := blockGet_at H h.blocks hn
      cases hget.symm.trans hs
      exact ⟨z, n, x :: c, hn, rfl, root_above H hn, hs⟩

theorem root_of_openBlock {acc : Account} (hacc : (l.accountGet acc).isSome) :
    ∃ e s, L.At acc e [] ∧ s.block = e.block ∧
      l.blockGet ((l.accountGet acc).getD {}).openBlock = some s ∧
      l.blockGet (e.hash p) = some s := by
  obtain ⟨info, hinfo⟩ := isSome_iff_exists.1 hacc
  obtain ⟨hc, rfl⟩ := accountGet_some h.accounts hinfo
  obtain ⟨e, he, hopen⟩ := exists_first hc (suffix_refl _)
  have hget := blockGet_at H h.blocks he
  refine ⟨e, _, he, rfl, ?_, hget⟩
  rw [hinfo, getD_some]
  exact (congrArg l.blockGet hopen.symm).trans hget

theorem forkedBlock_root {s : StoredBlock} (hs : l.forkedBlock b = some s) :
    l.blockGet (p.hash s.block) = some s ∧ s.block.hashables.root = b.hashables.root := by
  unfold Ledger.forkedBlock at hs
  dsimp only at hs
  split at hs
  · rename_i result hres
    cases hs
    obtain ⟨y, e, d, -, hblk, hroot, hget⟩ := root_of_successor H h hres
    rw [hblk]
    exact ⟨hget, hroot⟩
  · cases hacc : l.accountGet b.hashables.root with
    | none =>
      rw [hacc] at hs
      cases (blockGet_zero H h.blocks).symm.trans hs
    | some info =>
      obtain ⟨e, s', he, hblk, hopen, hget⟩ :=
        root_of_openBlock H h (isSome_of_eq_some hacc)
      cases hopen.symm.trans hs
      rw [hblk]
      obtain ⟨_, _, hx⟩ := extends_at he
      exact ⟨hget, hx.root_first rfl⟩

theorem onHead_iff (hat : L.At a x c) (hprev : b.hashables.previous = x.hash p) :
    l.OnHead b ↔ x :: c = L.chain a := by
  constructor
  · rintro ⟨acc, info, hinfo, hhead⟩
    obtain ⟨-, rfl⟩ := accountGet_some h.accounts hinfo
    obtain ⟨rfl, hc⟩ := eq_head_of_hash H hat (hprev.symm.trans hhead.symm)
    exact hc
  · intro hc
    have hne : L.chain a ≠ [] := by simp [← hc]
    refine ⟨a, _, accountGet_of_ne_nil h.accounts hne, ?_⟩
    rw [hprev, ← hc]
    rfl

theorem forkedBlock_isSome (hfork : Forked p l b) :
    (l.forkedBlock b).isSome ↔ (l.OnHead b → (l.accountGet b.hashables.root).isSome) := by
  unfold Ledger.forkedBlock
  dsimp only
  have hopen (hacc : (l.accountGet b.hashables.root).isSome) :
      (l.blockGet ((l.accountGet b.hashables.root).getD {}).openBlock).isSome := by
    obtain ⟨_, s, -, -, hs, -⟩ := root_of_openBlock H h hacc
    exact isSome_of_eq_some hs
  rcases hfork.taken with ⟨ht, hprev, hacc⟩ | ⟨ht, hex⟩
  · have hroot : b.hashables.root = b.hashables.account := by
      cases hb : b.hashables <;>
        simp_all [Hashables.type, Hashables.root, Hashables.previous, Hashables.account]
    rw [← hroot] at hacc
    refine iff_of_true ?_ fun _ => hacc
    split
    · rfl
    · exact hopen hacc
  · obtain ⟨y, x, c, hat, hx⟩ := at_of_blockExists h.blocks hex
    have hne := hash_ne_zero H hat
    have hroot : b.hashables.root = x.hash p := by
      rw [root_of_previous (hx ▸ hne), hx]
    rw [onHead_iff H h hat hx.symm]
    rcases blockSuccessor_at H h hat with ⟨hhead, hsucc⟩ | ⟨e, he, hsucc⟩
    · have hnone : l.blockGet (l.blockSuccessor b.hashables.root) = none := by
        rw [hroot, hsucc, blockGet_zero H h.blocks]
      rw [hnone]
      refine ⟨fun hs _ => ?_, fun hacc => hopen (hacc hhead)⟩
      cases hacc : l.accountGet b.hashables.root with
      | none =>
        rw [hacc] at hs
        change (l.blockGet 0).isSome = true at hs
        rw [blockGet_zero H h.blocks] at hs
        cases hs
      | some info => rfl
    · rw [hroot, hsucc, blockGet_at H h.blocks he]
      refine iff_of_true rfl fun hhead => ?_
      have := he.length_le
      rw [← hhead] at this
      simp at this

theorem forkedBlock_twin (hkn : known b) (hfork : Forked p l b)
    (hex : l.blockExists (p.hash b)) :
    ∃ s, l.forkedBlock b = some s ∧ p.hash s.block = p.hash b := by
  obtain ⟨y, e, c, hat, he⟩ := at_of_blockExists h.blocks hex
  have hin := H.collisionFree (L.known_at hat) hkn he
  have hprev := hashInput_previous hin
  have htypes : e.type ≠ BlockType.open ∧ e.type ≠ .state ∧
      b.hashables.root = b.hashables.previous := by
    rcases hashInput_eq hin with heq | ⟨ht, ht'⟩ | ⟨ht, ht'⟩
    · have hst := blockExistsType_at H h.blocks hat
      rw [he, Entry.type, heq, hfork.fresh] at hst
      cases hst
    all_goals
      refine ⟨by simp [Entry.type, ht], by simp [Entry.type, ht], ?_⟩
      cases hb : b.hashables <;> simp_all [Hashables.type, Hashables.root]
  obtain ⟨hopen, hsta, hroot⟩ := htypes
  obtain ⟨_, _, hext⟩ := extends_at hat
  obtain ⟨x, c, rfl, -⟩ := hext.exists_below hopen hsta
  have hsucc : l.blockSuccessor b.hashables.root = e.hash p := by
    rw [hroot, ← hprev, hext.previous, headHash]
    rcases blockSuccessor_at H h hat.below with ⟨hhead, -⟩ | ⟨n, hn, hsucc⟩
    · have := hat.length_le
      rw [← hhead] at this
      simp at this
    · obtain ⟨rfl, -⟩ := hn.eq_of_length hat rfl
      exact hsucc
  have hget := blockGet_at H h.blocks hat
  refine ⟨e.stored y (x :: c) (L.chain.successor p y (x :: c)), ?_, he⟩
  unfold Ledger.forkedBlock
  dsimp only
  rw [hsucc, hget]

end

include H in
theorem forked_block_iff (hl : Reached p known (NoForeignEpoch p) l) (hkn : known b)
    {verification : SignatureVerification} {r : ProcessReturn} {l' : Ledger}
    (hproc : l.process p b verification = some (r, l')) (hfork : r.code = .fork) :
    (∃ s, l.forkedBlock b = some s ∧ l.Rival p b s) ↔
      l.blockExists (p.hash b) = false ∧ (l.OnHead b → (l.accountGet b.hashables.root).isSome) := by
  obtain ⟨L, hholds⟩ := hl.holds H
  have h := hholds.represents
  have hforked := process_fork hproc hfork
  rw [← forkedBlock_isSome H h hforked]
  constructor
  · rintro ⟨s, hs, -, -, hne⟩
    refine ⟨?_, isSome_of_eq_some hs⟩
    by_contra hex
    obtain ⟨s', hs', heq⟩ := forkedBlock_twin H h hkn hforked (by simpa using hex)
    cases hs.symm.trans hs'
    exact hne heq
  · rintro ⟨hex, hsome⟩
    obtain ⟨s, hs⟩ := isSome_iff_exists.1 hsome
    obtain ⟨hget, hroot⟩ := forkedBlock_root H h hs
    refine ⟨s, hs, hget, hroot, fun heq => ?_⟩
    have := blockExists_of_blockGet hget
    rw [heq, hex] at this
    cases this

end

namespace Sample

/-- A block of account A on top of the newest block of B. -/
def strayA : Block := block (.stateBlock accountA (hash payA) 5 6 0)

def reopenB : Block := block (.stateBlock accountB 0 5 4 (hash sendB))

def strayBlocks : List Block := strayA :: reopenB :: blocks

theorem strayAssumptions : HashAssumptions params (· ∈ strayBlocks) :=
  hashAssumptions_of_list (by decide +kernel) (by decide) (by decide +kernel)

end Sample

open Sample

theorem forked_block_reopenB : ∃ l, run pays = some l ∧
    (l.process params reopenB .unknown).map (·.1.code) = some .fork ∧
    ∃ s, l.forkedBlock reopenB = some s ∧ l.Rival params reopenB s := by
  obtain ⟨l, hl, ⟨⟨r, l'⟩, hproc, hfork⟩, hfresh, hopen⟩ : ∃ l ∈ run pays,
    (∃ x ∈ l.process params reopenB .unknown, x.1.code = .fork) ∧
    l.blockExists (params.hash reopenB) = false ∧
    (l.accountGet reopenB.hashables.root).isSome := by decide +kernel
  exact ⟨l, hl, map_eq_some_iff.2 ⟨_, hproc, hfork⟩, (forked_block_iff strayAssumptions
    (reached_of_no_epochLink (by decide +kernel) hl) (by decide +kernel) hproc hfork).2
      ⟨hfresh, fun _ => hopen⟩⟩

/-- The block of A is a fork, but nothing is found that takes its place. -/
theorem forked_block_fails : HashAssumptions params (· ∈ strayBlocks) ∧
    ∃ l, Reached params (· ∈ strayBlocks) (NoForeignEpoch params) l ∧
      (l.process params strayA .unknown).map (·.1.code) = some .fork ∧
      l.forkedBlock strayA = none := by
  obtain ⟨l, hl, hfork, hnone⟩ : ∃ l ∈ run pays,
    (l.process params strayA .unknown).map (·.1.code) = some .fork ∧
    l.forkedBlock strayA = none := by decide +kernel
  exact ⟨strayAssumptions, l, reached_of_no_epochLink (by decide +kernel) hl, hfork, hnone⟩

end Futurehead
