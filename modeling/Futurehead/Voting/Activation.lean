import Futurehead.Cementing.Heights
import Futurehead.Voting.Restart

/-!
# Blocks that get elections (`active_transactions::activate`, `activate_dependencies`)

An election can only confirm a block after those it depends on. When an account is activated, its
first unconfirmed block gets an election. When an election does not come to an end, its chain is
searched from both sides: the first unconfirmed block and a block about half way down get elections,
and so does the source of the block.

There are three ways to find these blocks: the successor of the confirmed frontier, the open block if
nothing is confirmed, and a number of steps back from a block. What is returned here is the block that
goes to `insert`, which starts the election unless there is or was one.
-/

namespace Futurehead

open List Option Futurehead.Lattice

variable {known : Block → Prop} {shift : Account → Amount}

/-! ## The code -/

/-- What `activate_dependencies` reads besides its snapshot of the ledger. -/
structure ActivationView where
  /-- `confirmation_height_processor::is_processing_block`. -/
  processing : BlockHash → Bool
  /-- `ledger::block_exists`, which reads a later snapshot. -/
  blockExists : BlockHash → Bool
  /-- Whether the hash is in `blocks`. -/
  active : BlockHash → Bool

/-- An entry of `pending_dependencies`: the hash of the winner of an election, and the height of the
block that the election was started with. -/
structure PendingDependency where
  hash : BlockHash
  height : Nat
  deriving DecidableEq

namespace Ledger

variable (p : Params) (l : Ledger)

/-- The check of one dependency in `ledger::can_vote`. -/
def dependencyConfirmed (hash : BlockHash) : Option Bool :=
  if hash = 0 then some true
  else
    match l.blockGet hash with
    | none => some false
    | some b => (l.confirmationHeightGet b.account).map fun info =>
      decide (b.sideband.height ≤ info.height)

/-- `ledger::can_vote` of a stored block. -/
def canVote (b : StoredBlock) : Option Bool := do
  let (first, second) := dependentBlocks p b
  let confirmed ← l.dependencyConfirmed first
  if confirmed then l.dependencyConfirmed second else return false

/-- `active_transactions::activate` up to the insertion of the election: the block that goes to
`insert`. The node stops if the first unconfirmed block is not stored. -/
def activate (account : Account) : Option (Option StoredBlock) :=
  match l.accountGet account with
  | none => some none
  | some info =>
    match l.confirmationHeightGet account with
    | none => some none
    | some conf =>
      if conf.height < info.blockCount then
        let hash := if conf.height = 0 then info.openBlock else l.blockSuccessor conf.frontier
        match l.blockGet hash with
        | none => none
        | some block => do
          let canVote ← l.canVote p block
          return if canVote then some block else none
      else some none

/-- `first_unconfirmed` of `activate_dependencies`. -/
def firstUnconfirmed (account : Account) (confirmedFrontier : BlockHash) : BlockHash :=
  if confirmedFrontier ≠ 0 then l.blockSuccessor confirmedFrontier
  else ((l.accountGet account).getD {}).openBlock

def backtrack : Option StoredBlock → Nat → Option StoredBlock
  | block, 0 => block
  | none, _ + 1 => none
  | some block, jumps + 1 =>
    if block.block.hashables.previous = 0 then some block
    else backtrack (l.blockGet block.block.hashables.previous) jumps

/-- The number of steps back. -/
def jumps (height confirmed : Nat) : Nat := min 128 ((height - confirmed) / 2)

/-- `ledger::block_source` of a stored block. -/
def storedSource (b : StoredBlock) : BlockHash :=
  match b.block.hashables with
  | .stateBlock _ _ _ _ link => if isSend b then 0 else link
  | h => h.source

/-- The blocks of the chain that `activate_dependencies` activates for an entry. -/
def activateChain (view : ActivationView) (height : Nat) (block : StoredBlock) : List StoredBlock :=
  if block.block.hashables.previous = 0 then []
  else
    match l.confirmationHeightGet block.account with
    | none => []
    | some conf =>
      let first :=
        if conf.height + 1 < height then
          let successor := l.firstUnconfirmed block.account conf.frontier
          if view.processing successor then [] else (l.blockGet successor).toList
        else []
      let bisected :=
        if conf.height + 2 < height then
          (l.backtrack (some block) (jumps height conf.height)).toList
        else []
      first ++ bisected

/-- The source that `activate_dependencies` activates for an entry. -/
def activateSource (view : ActivationView) (block : StoredBlock) : Option (List StoredBlock) :=
  let previous := block.block.hashables.previous
  let source := storedSource block
  if (previous = 0 ∨ view.blockExists previous) ∧ source ≠ 0 ∧ source ≠ previous ∧
      view.active source = false then
    match l.blockGet source with
    | none => some []
    | some b => do
      let confirmed ← l.blockConfirmedOrBeingConfirmed view.processing source
      return if confirmed then [] else [b]
  else some []

/-- The loop of `activate_dependencies`: the blocks that go to `insert_impl`. -/
def activateDependencies (view : ActivationView) :
    List PendingDependency → Option (List (StoredBlock × BlockHash))
  | [] => some []
  | entry :: entries => do
    let activated ← match l.blockGet entry.hash with
      | none => some []
      | some block => do
        let source ← l.activateSource view block
        some (l.activateChain view entry.height block ++ source)
    let rest ← activateDependencies view entries
    return activated.map (·, entry.hash) ++ rest

end Ledger

/-- The block is stored and not cemented. -/
def Ledger.AwaitsConfirmation (p : Params) (l : Ledger) (b : StoredBlock) : Prop :=
  l.blockGet (p.hash b.block) = some b ∧ l.blockConfirmed (p.hash b.block) = some false

/-- The entry comes from an election: it was started with a block that some valid ledger stored, and
its winner has the same qualified root. -/
def PendingDependency.OfElection (p : Params) (known : Block → Prop) (entry : PendingDependency) :
    Prop :=
  ∃ (l0 : Ledger) (L0 : Lattice p known) (shift0 : Account → Amount) (b0 : StoredBlock)
    (winner : Block), Represents l0 L0 shift0 ∧ l0.blockGet (p.hash b0.block) = some b0 ∧
      known winner ∧ winner.hashables.qualifiedRoot = b0.block.hashables.qualifiedRoot ∧
      entry.hash = p.hash winner ∧ entry.height = b0.sideband.height

/-! ## Heights -/

section

variable {p : Params} (H : HashAssumptions p known)

include H in
theorem height_eq_of_hash {L L' : Lattice p known} {n : L.Position} {m : L'.Position}
    (h : n.hash = m.hash) : n.height = m.height := by
  obtain ⟨a, e, c, hat⟩ := n
  obtain ⟨a', e', c', hat'⟩ := m
  change e.hash p = e'.hash p at h
  change c.length + 1 = c'.length + 1
  -- down both chains at once: equal hashes have equal previous fields
  induction c generalizing e e' c' with
  | nil =>
    have hprv := Hashables.hashInput_previous
      (H.collisionFree (L.known_at hat) (L'.known_at hat') h)
    rw [previous_at hat, previous_at hat'] at hprv
    rw [(headHash_eq_zero H hat').1 hprv.symm]
  | cons x c ih =>
    have hprv := Hashables.hashInput_previous
      (H.collisionFree (L.known_at hat) (L'.known_at hat') h)
    rw [previous_at hat, previous_at hat'] at hprv
    cases c' with
    | nil => exact absurd ((headHash_eq_zero H hat).1 hprv) (by simp)
    | cons x' c' => exact congrArg (· + 1) (ih x hat.below x' c' hat'.below hprv)

variable {L : Lattice p known} {l : Ledger} (hb : BlocksRep p l.blocks L.chain)

include H hb

theorem blockSuccessor_position (n : L.Position) :
    l.blockSuccessor n.hash = hashAt p (L.chain n.account) (n.height + 1) := by
  unfold Ledger.blockSuccessor
  rw [blockGet_position H hb n, map_some, getD_some, Entry.stored_successor]

theorem backtrack_position (n : L.Position) {jumps : Nat} (hlt : jumps < n.height) :
    ∃ m : L.Position, m.account = n.account ∧ m.height + jumps = n.height ∧
      l.backtrack (l.blockGet n.hash) jumps = l.blockGet m.hash := by
  induction jumps generalizing n with
  | zero =>
    refine ⟨n, rfl, rfl, ?_⟩
    cases l.blockGet n.hash <;> rfl
  | succ jumps ih =>
    have hle := n.height_le
    obtain ⟨k, hk, hht⟩ := exists_position (L := L) (a := n.account)
      (k := n.height - 1) (by omega) (by omega)
    have hprv : n.entry.block.hashables.previous = k.hash := by
      rw [n.previous, ← hht, ← hk, k.hashAt_height]
    obtain ⟨m, hm, hsum, hrun⟩ := ih k (by omega)
    refine ⟨m, hm.trans hk, by omega, ?_⟩
    have hne : n.entry.block.hashables.previous ≠ 0 := hprv ▸ hash_ne_zero H k.stands
    rw [← hrun, blockGet_position H hb n, ← hprv]
    exact if_neg hne

end

/-! ## The first unconfirmed block -/

section

variable {p : Params} (H : HashAssumptions p known) {L : Lattice p known}
  {l : Ledger} (hr : Represents l L shift)

include H hr

variable {info : ConfirmationHeightInfo} {hash : BlockHash} {block b : StoredBlock} {a : Account}

theorem blockConfirmed_position (n : L.Position)
    (hinfo : l.confirmationHeightGet n.account = some info) :
    l.blockConfirmed n.hash = some (decide (n.height ≤ info.height)) :=
  blockConfirmed_at H hr n.stands hinfo

theorem exists_stored_position (hget : l.blockGet hash = some b) :
    ∃ n : L.Position, n.hash = hash ∧ n.entry.block = b.block ∧ p.hash b.block = hash ∧
      b.account = n.account ∧ b.sideband.height = n.height := by
  obtain ⟨a, e, c, hat, rfl⟩ := at_of_blockGet hr.blocks hget
  let n : L.Position := ⟨a, e, c, hat⟩
  have hst := blockGet_position H hr.blocks n
  rw [show n.hash = e.hash p from rfl, hget] at hst
  cases hst
  exact ⟨n, rfl, rfl, rfl, n.stored_account _, n.stored_height _⟩

theorem dependencyConfirmed_isSome (hash : BlockHash) : (l.dependencyConfirmed hash).isSome := by
  unfold Ledger.dependencyConfirmed
  split
  · rfl
  · split
    · rfl
    · next b hget =>
      obtain ⟨n, -, -, -, hacc, -⟩ := exists_stored_position H hr hget
      obtain ⟨info, hinfo⟩ := exists_confirmationHeight hr n.stands
      rw [hacc, hinfo]
      rfl

theorem exists_canVote (b : StoredBlock) : ∃ result, l.canVote p b = some result := by
  obtain ⟨first, hfst⟩ := isSome_iff_exists.1
    (dependencyConfirmed_isSome H hr (Ledger.dependentBlocks p b).1)
  obtain ⟨second, hsec⟩ := isSome_iff_exists.1
    (dependencyConfirmed_isSome H hr (Ledger.dependentBlocks p b).2)
  unfold Ledger.canVote
  simp only [hfst, hsec, bind_eq_bind, bind_some]
  cases first
  · exact ⟨false, rfl⟩
  · exact ⟨second, rfl⟩

variable (ht : HeightsRep p l.confirmationHeight L.chain)

include ht

theorem successor_frontier (hinfo : l.confirmationHeightGet a = some info) (hpos : info.height ≠ 0) :
    info.frontier ≠ 0 ∧ l.blockSuccessor info.frontier = hashAt p (L.chain a) (info.height + 1) := by
  obtain ⟨n, rfl, hn⟩ := exists_position (L := L) (a := a) (k := info.height)
    (Nat.one_le_iff_ne_zero.2 hpos) (ht.height_le hinfo)
  have hfr : info.frontier = n.hash := by rw [ht.frontier hinfo, ← hn, n.hashAt_height]
  rw [hfr]
  exact ⟨hash_ne_zero H n.stands, hn ▸ blockSuccessor_position H hr.blocks n⟩

omit H ht in
theorem openBlock_eq {info : AccountInfo} (hinfo : l.accountGet a = some info) :
    info.openBlock = hashAt p (L.chain a) 1 ∧ info.blockCount = (L.chain a).length := by
  have hch := hr.accounts a
  rw [show l.accounts.lookup a = some info from hinfo] at hch
  unfold chainInfo? at hch
  split at hch
  · cases hch
  · next hne =>
    cases hch
    exact ⟨chainOpen_eq_hashAt hne, rfl⟩

theorem firstUnconfirmed_eq (n : L.Position) (hinfo : l.confirmationHeightGet n.account = some info) :
    l.firstUnconfirmed n.account info.frontier =
      hashAt p (L.chain n.account) (info.height + 1) := by
  unfold Ledger.firstUnconfirmed
  by_cases hzero : info.height = 0
  · have hfr : info.frontier = 0 := by rw [ht.frontier hinfo, hzero, hashAt_zero]
    have hch : L.chain n.account ≠ [] :=
      ne_nil_of_length_pos (Nat.lt_of_lt_of_le (Nat.succ_pos _) n.height_le)
    rw [if_neg (not_not.2 hfr), hzero]
    have hacc : l.accountGet n.account = some (chainInfo p (L.chain n.account)) :=
      (hr.accounts n.account).trans (if_neg hch)
    rw [hacc, getD_some]
    exact (openBlock_eq hr hacc).1
  · obtain ⟨hne, hsucc⟩ := successor_frontier H hr ht hinfo hzero
    rw [if_pos hne, hsucc]

theorem activate_spec (acc : Account) :
    ∃ result, l.activate p acc = some result ∧ ∀ b, result = some b →
      ∃ info, l.confirmationHeightGet acc = some info ∧ l.blockGet (p.hash b.block) = some b ∧
        b.account = acc ∧ b.sideband.height = info.height + 1 := by
  unfold Ledger.activate
  split
  · exact ⟨none, rfl, fun b hb => nomatch hb⟩
  · next info hacc =>
    split
    · exact ⟨none, rfl, fun b hb => nomatch hb⟩
    · next conf hconf =>
      obtain ⟨hopen, hcnt⟩ := openBlock_eq hr hacc
      split
      · next hlt =>
        have hhash : (if conf.height = 0 then info.openBlock else l.blockSuccessor conf.frontier) =
            hashAt p (L.chain acc) (conf.height + 1) := by
          split
          · next hzero => rw [hopen, hzero]
          · next hpos => exact (successor_frontier H hr ht hconf hpos).2
        obtain ⟨n, rfl, hn⟩ := exists_position (L := L) (a := acc)
          (k := conf.height + 1) (Nat.succ_pos _) (hcnt ▸ hlt)
        have hget := blockGet_position H hr.blocks n
        dsimp only
        rw [hhash, ← hn, n.hashAt_height, hget]
        dsimp only
        obtain ⟨canVote, hvote⟩ := exists_canVote H hr
          (n.entry.stored n.account n.below (hashAt p (L.chain n.account) (n.height + 1)))
        refine ⟨_, by rw [hvote]; rfl, fun b hb => ?_⟩
        split at hb
        · cases hb
          exact ⟨conf, hconf, hget, n.stored_account _, (n.stored_height _).trans hn⟩
        · cases hb
      · exact ⟨none, rfl, fun b hb => nomatch hb⟩

/-! ## Dependencies -/

omit ht in
theorem awaits_of_lt (n : L.Position) (hinfo : l.confirmationHeightGet n.account = some info)
    (hlt : info.height < n.height) (hget : l.blockGet n.hash = some b) :
    l.AwaitsConfirmation p b := by
  obtain ⟨-, -, -, hhash, -, -⟩ := exists_stored_position H hr hget
  unfold Ledger.AwaitsConfirmation
  rw [hhash, blockConfirmed_position H hr n hinfo, decide_eq_false (Nat.not_le.2 hlt)]
  exact ⟨hget, rfl⟩

omit ht in
theorem height_of_election {entry : PendingDependency} (he : entry.OfElection p known)
    (hget : l.blockGet entry.hash = some block) (hprv : block.block.hashables.previous ≠ 0) :
    block.sideband.height = entry.height := by
  obtain ⟨l0, L0, shift0, b0, winner, hr0, hget0, hkn, hroot, hhash, hht⟩ := he
  obtain ⟨n, hn, hblk, -, -, hnheight⟩ := exists_stored_position H hr hget
  obtain ⟨m, -, hblk0, -, -, hmheight⟩ := exists_stored_position H hr0 hget0
  -- the winner and the first block of the election stand on the same block
  have hsame : n.entry.block.hashables.previous = m.entry.block.hashables.previous := by
    have hin := H.collisionFree (L.known_at n.stands) hkn (hn.trans hhash)
    rw [Hashables.hashInput_previous hin, hblk0]
    exact congrArg QualifiedRoot.previous hroot
  rw [← hblk] at hprv
  have hblw {τ : Lattice p known} (k : τ.Position)
      (hne : k.entry.block.hashables.previous ≠ 0) : ∃ k' : τ.Position,
        k'.hash = k.entry.block.hashables.previous ∧ k'.height + 1 = k.height := by
    have hone : k.height ≠ 1 := by
      intro hone
      rw [k.previous, hone] at hne
      exact hne (hashAt_zero _)
    have hle := k.height_le
    have hpos : 1 ≤ k.height := Nat.succ_pos _
    obtain ⟨k', hk, hk'⟩ := exists_position (L := τ) (a := k.account) (k := k.height - 1)
      (by omega) (by omega)
    refine ⟨k', ?_, by omega⟩
    rw [k.previous, ← hk', ← hk, k'.hashAt_height]
  obtain ⟨n', hn', hnsucc⟩ := hblw n hprv
  obtain ⟨m', hm', hmsucc⟩ := hblw m (hsame ▸ hprv)
  have hlevel := height_eq_of_hash H (hn'.trans (hsame.trans hm'.symm))
  omega

omit ht in
theorem backtrack_spec (hget : l.blockGet hash = some block)
    (hinfo : l.confirmationHeightGet block.account = some info)
    (hlt : info.height + 2 < block.sideband.height) :
    ∃ b, l.backtrack (some block) (Ledger.jumps block.sideband.height info.height) = some b ∧
      b.account = block.account ∧
      b.sideband.height + Ledger.jumps block.sideband.height info.height = block.sideband.height ∧
      info.height < b.sideband.height ∧ l.AwaitsConfirmation p b := by
  obtain ⟨n, hn, -, -, hacc, hht⟩ := exists_stored_position H hr hget
  rw [hacc] at hinfo ⊢
  rw [hht] at hlt ⊢
  have hjumps : Ledger.jumps n.height info.height ≤ (n.height - info.height) / 2 :=
    Nat.min_le_right _ _
  have hblw : Ledger.jumps n.height info.height < n.height := by omega
  obtain ⟨m, hm, hsum, hrun⟩ := backtrack_position H hr.blocks n hblw
  have hmget := blockGet_position H hr.blocks m
  rw [hn, hget, hmget] at hrun
  refine ⟨_, hrun, (m.stored_account _).trans hm, ?_, ?_, ?_⟩
  · rw [m.stored_height, hsum]
  · rw [m.stored_height]
    omega
  · exact awaits_of_lt H hr m (hm ▸ hinfo) (by omega) hmget

theorem activateChain_awaits {height : Nat} (hget : l.blockGet hash = some block)
    (hht : block.block.hashables.previous ≠ 0 → block.sideband.height = height)
    (view : ActivationView) :
    ∀ b ∈ l.activateChain view height block, l.AwaitsConfirmation p b := by
  intro b hb
  unfold Ledger.activateChain at hb
  split at hb
  · cases hb
  · next hprv =>
    obtain rfl := hht hprv
    split at hb
    · cases hb
    · next conf hconf =>
      obtain ⟨n, hn, -, -, hacc, hnheight⟩ := exists_stored_position H hr hget
      rcases mem_append.1 hb with hb | hb
      · split at hb
        · next hlt =>
          dsimp only at hb
          split at hb
          · cases hb
          · rw [hacc] at hconf hb
            rw [firstUnconfirmed_eq H hr ht n hconf, mem_toList] at hb
            have hle := n.height_le
            obtain ⟨m, hm, hmheight⟩ := exists_position (L := L) (a := n.account)
              (k := conf.height + 1) (Nat.succ_pos _) (by omega)
            rw [← hmheight, ← hm, m.hashAt_height] at hb
            exact awaits_of_lt H hr m (hm ▸ hconf) (by omega) hb
        · cases hb
      · split at hb
        · next hlt =>
          obtain ⟨b', hrun, -, -, -, hawaits⟩ := backtrack_spec H hr hget hconf hlt
          rw [hrun] at hb
          rw [mem_singleton.1 hb]
          exact hawaits
        · cases hb

omit ht in
theorem activateSource_spec (view : ActivationView) (block : StoredBlock) :
    ∃ blocks, l.activateSource view block = some blocks ∧
      ∀ b ∈ blocks, l.AwaitsConfirmation p b := by
  unfold Ledger.activateSource
  dsimp only
  split
  · split
    · exact ⟨[], rfl, fun b hb => absurd hb not_mem_nil⟩
    · next b hget =>
      obtain ⟨n, hn, -, hhash, -, -⟩ := exists_stored_position H hr hget
      obtain ⟨info, hinfo⟩ := exists_confirmationHeight hr n.stands
      have hconfirmed := blockConfirmed_position H hr n hinfo
      rw [hn] at hconfirmed
      unfold Ledger.blockConfirmedOrBeingConfirmed
      split
      · exact ⟨[], rfl, fun b hb => absurd hb not_mem_nil⟩
      · rw [hconfirmed]
        refine ⟨_, rfl, fun b' hb' => ?_⟩
        split at hb'
        · cases hb'
        · next hno =>
          rw [mem_singleton.1 hb']
          unfold Ledger.AwaitsConfirmation
          rw [hhash, hconfirmed]
          exact ⟨hget, congrArg some (Bool.eq_false_of_not_eq_true hno)⟩
  · exact ⟨[], rfl, fun b hb => absurd hb not_mem_nil⟩

theorem activateDependencies_spec (view : ActivationView) {entries : List PendingDependency}
    (he : ∀ entry ∈ entries, entry.OfElection p known) :
    ∃ activated, l.activateDependencies view entries = some activated ∧
      ∀ x ∈ activated, l.AwaitsConfirmation p x.1 := by
  induction entries with
  | nil => exact ⟨[], rfl, fun x hx => absurd hx not_mem_nil⟩
  | cons entry entries ih =>
    obtain ⟨rest, hrest, hawaits⟩ := ih fun e hmem => he e (mem_cons_of_mem _ hmem)
    unfold Ledger.activateDependencies
    rw [hrest]
    cases hget : l.blockGet entry.hash with
    | none =>
      refine ⟨rest, rfl, hawaits⟩
    | some block =>
      obtain ⟨source, hsrc, hawaitsSource⟩ := activateSource_spec H hr view block
      dsimp only
      rw [hsrc]
      refine ⟨_, rfl, fun x hx => ?_⟩
      rcases mem_append.1 hx with hx | hx
      · obtain ⟨b, hb, rfl⟩ := List.mem_map.1 hx
        rcases mem_append.1 hb with hb | hb
        · exact activateChain_awaits H hr ht hget
            (height_of_election H hr (he entry mem_cons_self) hget) view b hb
        · exact hawaitsSource b hb
      · exact hawaits x hx

end

/-- In every ledger that represents a lattice and has valid heights: `activate` does not stop the node
and its block is the first unconfirmed one of the account; the blocks that `activate_dependencies`
activates are stored and not cemented; and the bisected one is as many blocks below as it should be,
above the confirmed height. -/
theorem activation_first_unconfirmed {p : Params}
    (H : HashAssumptions p known) {L : Lattice p known} {l : Ledger}
    (hr : Represents l L shift) (hval : l.HeightsValid) :
    (∀ acc, ∃ result, l.activate p acc = some result ∧ ∀ b, result = some b →
      ∃ info, l.confirmationHeightGet acc = some info ∧ l.blockGet (p.hash b.block) = some b ∧
        b.account = acc ∧ b.sideband.height = info.height + 1) ∧
    (∀ view entries, (∀ entry ∈ entries, PendingDependency.OfElection p known entry) →
      ∃ activated, l.activateDependencies view entries = some activated ∧
        ∀ x ∈ activated, l.AwaitsConfirmation p x.1) ∧
    ∀ entry block info, PendingDependency.OfElection p known entry →
      l.blockGet entry.hash = some block → block.block.hashables.previous ≠ 0 →
      l.confirmationHeightGet block.account = some info → info.height + 2 < entry.height →
      ∃ b, l.backtrack (some block) (min 128 ((entry.height - info.height) / 2)) = some b ∧
        b.account = block.account ∧
        b.sideband.height + min 128 ((entry.height - info.height) / 2) = block.sideband.height ∧
        info.height < b.sideband.height := by
  have ht := (heightsValid_iff H hr.blocks hr.accounts).1 hval
  refine ⟨activate_spec H hr ht, fun view entries he => activateDependencies_spec H hr ht view he,
    fun entry block info he hget hprv hinfo hlt => ?_⟩
  have hht := height_of_election H hr he hget hprv
  rw [← hht] at hlt ⊢
  obtain ⟨b, hrun, hacc, hsum, habove, -⟩ := backtrack_spec H hr hget hinfo hlt
  exact ⟨b, hrun, hacc, hsum, habove⟩

namespace Sample

def sends : List Action := opens ++ [put sendA]

end Sample

open Sample

/-- The genesis block alone is cemented: an election for the third send leads to the second. -/
theorem activation_first_unconfirmed_sends :
    ∃ l block info b, run sends = some l ∧
      l.blockGet (Sample.hash sendA) = some block ∧
      l.confirmationHeightGet block.account = some info ∧ info.height = 1 ∧
      l.backtrack (some block) (min 128 ((4 - info.height) / 2)) = some b ∧
      b.sideband.height + min 128 ((4 - info.height) / 2) = block.sideband.height ∧
      info.height < b.sideband.height := by
  obtain ⟨l, hl, block, hget, hsend, hht, info, hinfo, hone⟩ : ∃ l ∈ run sends,
    ∃ block ∈ l.blockGet (Sample.hash sendA), block.block = sendA ∧
    block.sideband.height = 4 ∧ ∃ info ∈ l.confirmationHeightGet block.account, info.height = 1 := by
    decide +kernel
  obtain ⟨L, hL⟩ := (reached_of_legacy (by decide +kernel) hl).uncemented hashAssumptions
  have hr := hL.holds.represents
  have he : PendingDependency.OfElection params (· ∈ blocks)
      ⟨Sample.hash sendA, 4⟩ :=
    ⟨l, L, _, block, sendA, hr, by rw [hsend]; exact hget, by decide +kernel,
      by rw [hsend], rfl, hht.symm⟩
  obtain ⟨b, hrun, -, hsum, habove⟩ := (activation_first_unconfirmed hashAssumptions hr
    (hL.heightsValid hashAssumptions)).2.2 _ block info he hget
    (by rw [hsend]; decide +kernel) hinfo (by rw [hone]; decide)
  exact ⟨l, block, info, b, hl, hget, hinfo, hone, hrun, hsum, habove⟩

end Futurehead
