import Futurehead.Ledger.Structure

/-!
# Epochs

The epoch of an account is kept in its record, in the sideband of its state blocks and in the pending
entries of its sends. `EpochStructure` says in terms of the tables that the three agree and how the
epoch moves along a chain.
-/

namespace Futurehead

open Futurehead.Lattice

variable {p : Params} {l l' : Ledger} {r : ProcessReturn} {shift : Account → Amount} {e : Entry}
  {c : List Entry}

namespace Epoch

variable {a b : Epoch}

theorem le_max_left (a b : Epoch) : a.toNat ≤ (a.max b).toNat := by
  unfold max
  split
  · rename_i h
    exact h.le
  · exact le_rfl

theorem toNat_of_isSequential (h : a.isSequential b) : b.toNat = a.toNat + 1 := by
  unfold isSequential at h
  exact eq_of_beq (Bool.and_eq_true_iff.1 h).2

end Epoch

theorem process_sequential {b : Block} {acc rep : Account}
    {previous : BlockHash} {bal : Amount} {link : Link} {tag : SignatureVerification}
    (hb : b.hashables = .stateBlock acc previous rep bal link)
    (hlink : p.isEpochLink link) (hbal : l.balance previous = some bal)
    (hproc : l.process p b tag = some (r, l')) (hcode : r.code = .progress) {info : AccountInfo}
    (hinfo : l.accountGet acc = some info) {i : EpochInfo} (hi : p.epochInfo link = some i) :
    info.epoch.isSequential i.epoch := by
  have hvis : Returns (l.visit p b tag) fun r _ =>
      r.code = .progress → info.epoch.isSequential i.epoch := by
    refine .visit (fun r hr hcode => absurd hcode hr.code) fun x hx r l' _ _ => ?_
    cases hx with
    | epoch hb' _ _ hi' _ _ _ _ place =>
      cases hb.symm.trans hb'
      cases hi.symm.trans hi'
      cases place with
      | opened get _ _ _ next => cases hinfo.symm.trans get; exact next
      | unopened get => cases hinfo.symm.trans get
    | state hb' _ _ _ ordinary =>
      cases hb.symm.trans hb'
      obtain ⟨x, hx, hne⟩ := ordinary hlink
      cases hbal.symm.trans hx
      exact absurd rfl hne
    | send hb' | change hb' | receive hb' | opens hb' => cases hb.symm.trans hb'
  exact hvis.process (fun _ _ _ h => h) r l' hproc hcode

/-! ## Epoch blocks of a lattice -/

variable {known : Block → Prop}

/-- Every epoch block that stands on a block raises the epoch by one. -/
def Sequenced (L : Lattice p known) : Prop :=
  ∀ {a e c}, L.At a e c → e.details.isEpoch → c ≠ [] → (chainEpoch c).isSequential e.details.epoch

section

variable (H : HashAssumptions p known) {L : Lattice p known}

theorem genesis_sequenced : Sequenced (genesisLattice H) := by
  intro a e c hat he
  obtain ⟨-, rfl, -⟩ := genesisChains_at.1 hat
  cases he

theorem Sequenced.within {L' : Lattice p known} (h : Sequenced L)
    (hw : L'.chain.Within L.chain) : Sequenced L' :=
  fun hat he hc => h (hw.at hat) he hc

include H

theorem Sequenced.push (h : Sequenced L) (hrep : Represents l L shift)
    {a : Account} {n : Entry} {amt : Amount} {epoch : Epoch} (hp : L.Pushable a n amt epoch)
    {verification : SignatureVerification}
    (hproc : l.process p n.block verification = some (r, l')) (hcode : r.code = .progress) :
    Sequenced (L.push a n hp) := by
  intro y e c hat he hne
  rcases (L.push_grows a n hp).at_iff.1 hat with ⟨rfl, rfl, rfl⟩ | hold
  · have hx := hp.fits
    rw [hx.details] at he
    obtain ⟨acc, previous, rep, bal, link, i, hb, hk, hi, hep⟩ :=
      chainDetails_isEpoch he
    cases hc : L.chain y with
    | nil => exact absurd hc hne
    | cons x d =>
      have hx0 : L.At y x d := Chains.at_head hc
      have hlink := isEpochLink_of_epochInfo hi
      -- the block stands on the head of its account and keeps its balance
      have haccount := hx.account_state hb
      have hprv := hx.previous_state hb
      have hbal := hx.balance_neutral hb hk
      rw [hc] at hprv hbal
      subst haccount hprv hbal
      have hinfo : l.accountGet acc = some (chainInfo p (x :: d)) := by
        rw [accountGet_chain hrep.accounts, hc]
        rfl
      rw [hx.details, hep]
      exact process_sequential hb hlink (balance_at H hrep.blocks hx0) hproc hcode hinfo hi
  · exact h hold he hne

theorem Reached.sequenced (hl : Reached p known (NoForeignEpoch p) l) :
    ∃ L : Lattice p known, Holds l L ∧ Sequenced L := by
  obtain ⟨l0, hgen, run⟩ := hl
  refine run.invariant (I := fun l => ∃ L : Lattice p known, Holds l L ∧ Sequenced L)
    ⟨_, genesis_holds H hgen, genesis_sequenced H⟩ ?_
  rintro t action t' ⟨L, h, hseq⟩ ⟨hgiv, hok⟩ hstep
  obtain ⟨L', h', -, ⟨a, n, amt, epoch, hp, verification, r, l1, hproc, hcode, rfl⟩ | hwithin⟩ :=
    lattice_of_step H h hgiv hok hstep
  · exact ⟨_, h', hseq.push H h.represents hp hproc hcode⟩
  · exact ⟨L', h', hseq.within hwithin⟩

end

/-! ## Epochs in the tables -/

/-- The three places agree, the epoch never falls along a chain, and legacy blocks keep to epoch 0. -/
structure EpochStructure (l : Ledger) : Prop where
  head : ∀ account info, l.accountGet account = some info → info.epoch = l.blockVersion info.head
  /-- `x` is the successor of `y` on the chain of an account. -/
  chain : ∀ account info, l.accountGet account = some info → ∀ i x y,
    (l.chainOf info)[i]? = some x → (l.chainOf info)[i + 1]? = some y →
    (l.blockVersion y.1).toNat ≤ (l.blockVersion x.1).toNat ∧
    (x.2.sideband.details.isEpoch → (l.blockVersion x.1).toNat ≤ (l.blockVersion y.1).toNat + 1)
  pending : ∀ d h i, l.pendingGet ⟨d, h⟩ = some i → i.epoch = l.blockVersion h
  /-- A block without a predecessor counts as standing on epoch 0. -/
  receive : ∀ r b h d, l.blockGet r = some b → l.source r = some h → l.destination h = some d →
    l.blockVersion r = (l.blockVersion b.block.hashables.previous).max (l.blockVersion h)
  legacy : ∀ r b, l.blockGet r = some b → b.block.hashables.type ≠ .state →
    (∀ prev, l.blockGet b.block.hashables.previous = some prev →
      prev.block.hashables.type ≠ .state) ∧
    ∀ h d, l.source r = some h → l.destination h = some d → l.blockVersion h = .epoch0

section

variable (H : HashAssumptions p known) {L : Lattice p known}
  {a : Account} {x : Entry}

theorem chainEpoch_legacy (hat : L.At a e c) (ht : e.type ≠ .state) :
    e.details.epoch = .epoch0 ∧ chainEpoch c = .epoch0 := by
  obtain ⟨_, _, hx⟩ := extends_at hat
  refine ⟨by rw [hx.details_legacy ht], ?_⟩
  cases c with
  | nil => rfl
  | cons x c =>
    obtain ⟨_, _, hx'⟩ := extends_at hat.below
    exact congrArg BlockDetails.epoch (hx'.details_legacy (hx.legacy ht x rfl))

theorem epoch_of_receive (hat : L.At a e c) {s : BlockHash} (hk : e.kind p c = .receive s) :
    ∃ amt epoch, L.Sends s a amt epoch ∧ e.details.epoch = (chainEpoch c).max epoch ∧
      (e.type ≠ .state → epoch = .epoch0) := by
  obtain ⟨amt, epoch, hx, hs⟩ := L.valid hat
  refine ⟨amt, epoch, hs s hk, ?_, hx.receive_legacy s hk⟩
  by_cases ht : e.type = .state
  · rw [hx.details]
    unfold Entry.type at ht
    unfold Entry.kind at hk
    cases hb : e.block.hashables with
    | stateBlock acc previous rep bal link =>
      rw [hb] at hk
      simp only [chainDetails, hk]
    | _ => rw [hb] at ht; cases ht
  · obtain ⟨hep, hch⟩ := chainEpoch_legacy hat ht
    rw [hep, hch, hx.receive_legacy s hk ht]
    rfl

theorem epoch_cases (hat : L.At a e c) : e.details.epoch = chainEpoch c ∨
    (∃ s, e.kind p c = .receive s) ∨ e.details.isEpoch := by
  by_cases ht : e.type = .state
  · obtain ⟨_, _, hx⟩ := extends_at hat
    rw [hx.details]
    unfold Entry.type at ht
    unfold Entry.kind
    cases hb : e.block.hashables with
    | stateBlock acc previous rep bal link =>
      simp only [chainDetails]
      cases hk : (Hashables.stateBlock acc previous rep bal link).kind p
          (chainBal c) with
      | send d => exact .inl rfl
      | receive s => exact .inr (.inl ⟨s, rfl⟩)
      | neutral | genesis =>
        cases p.epochInfo link with
        | none => exact .inl rfl
        | some i => exact .inr (.inr rfl)
    | _ => rw [hb] at ht; cases ht
  · obtain ⟨hep, hch⟩ := chainEpoch_legacy hat ht
    exact .inl (hep.trans hch.symm)

theorem epoch0_le_of_below (hat : L.At a e c)
    (hblw : Epoch.epoch0.toNat ≤ (chainEpoch c).toNat) :
    Epoch.epoch0.toNat ≤ e.details.epoch.toNat := by
  rcases epoch_cases hat with heq | ⟨s, hk⟩ | he
  · rw [heq]
    exact hblw
  · obtain ⟨_, epoch, -, hmax, -⟩ := epoch_of_receive hat hk
    rw [hmax]
    exact hblw.trans (Epoch.le_max_left _ epoch)
  · obtain ⟨_, _, hx⟩ := extends_at hat
    rw [hx.details] at he ⊢
    obtain ⟨_, _, _, _, _, i, -, -, hi, hep⟩ := chainDetails_isEpoch he
    rw [hep]
    rcases epoch_of_epochInfo hi with he | he <;> simp [he, Epoch.toNat]

theorem epoch0_le (hat : L.At a e c) : Epoch.epoch0.toNat ≤ e.details.epoch.toNat := by
  induction c generalizing e with
  | nil => exact epoch0_le_of_below hat le_rfl
  | cons x c ih => exact epoch0_le_of_below hat (ih hat.below)

theorem chainEpoch_le (hseq : Sequenced L) (hat : L.At a e (x :: c)) :
    x.details.epoch.toNat ≤ e.details.epoch.toNat := by
  rcases epoch_cases hat with heq | ⟨s, hk⟩ | he
  · rw [heq]
    exact le_rfl
  · obtain ⟨_, epoch, -, hmax, -⟩ := epoch_of_receive hat hk
    rw [hmax]
    exact Epoch.le_max_left x.details.epoch epoch
  · have := Epoch.toNat_of_isSequential (hseq hat he (by simp))
    change e.details.epoch.toNat = x.details.epoch.toNat + 1 at this
    omega

include H in
theorem blockVersion_below (hb : BlocksRep p l.blocks L.chain) (hat : L.At a e c) :
    l.blockVersion e.block.hashables.previous = chainEpoch c := by
  rw [previous_at hat]
  cases c with
  | nil =>
    unfold Ledger.blockVersion
    rw [headHash, blockGet_zero H hb]
    rfl
  | cons x c => exact blockVersion_at H hb hat.below

theorem stored_isEpoch {a : Account} (s : BlockHash)
    (he : (e.stored a c s).sideband.details.isEpoch) : e.details.isEpoch := by
  unfold Entry.stored Entry.sideband Sideband.stored at he
  cases ht : e.type <;> simp [ht] at he
  exact he

include H

theorem receive_at (hb : BlocksRep p l.blocks L.chain) (hat : L.At a e c) {h : BlockHash}
    {d : Account} (hs : l.source (e.hash p) = some h) (hd : l.destination h = some d) :
    ∃ epoch, l.blockVersion h = epoch ∧ e.details.epoch = (chainEpoch c).max epoch ∧
      (e.type ≠ .state → epoch = .epoch0) := by
  obtain ⟨y, x, w, hx, rfl⟩ := at_of_destination hb hd
  obtain ⟨_, epoch, ⟨y', x', w', hx', hh, -, -, rfl⟩, hmax, hleg⟩ :=
    epoch_of_receive hat ((source_at H hb hat hx).1 hs)
  refine ⟨_, ?_, hmax, hleg⟩
  rw [← hh]
  exact blockVersion_at H hb hx'

theorem Represents.epochStructure (hrep : Represents l L shift) (hseq : Sequenced L) :
    EpochStructure l := by
  have hb := hrep.blocks
  constructor
  · intro acc info hacc
    obtain ⟨hne, rfl⟩ := accountGet_some hrep.accounts hacc
    cases hc : L.chain acc with
    | nil => exact absurd hc hne
    | cons e c => exact (blockVersion_at H hb (Chains.at_head hc)).symm
  · intro acc info hacc i x y hx hy
    obtain ⟨hne, rfl⟩ := accountGet_some hrep.accounts hacc
    rw [chainOf_chain H hb] at hx hy
    obtain ⟨e, d, hat, hlen, rfl⟩ := chainBlocks_getElem? hx
    obtain ⟨e', d', hat', hlen', rfl⟩ := chainBlocks_getElem? hy
    -- the lower one stands right below the upper one
    obtain ⟨x, d, rfl⟩ : ∃ x c, d = x :: c := by
      cases d with
      | nil => simp only [List.length_nil] at hlen; omega
      | cons x c => exact ⟨x, c, rfl⟩
    simp only [List.length_cons] at hlen
    obtain ⟨rfl, rfl⟩ := Chains.At.eq_of_length (L := L.chain) (Chains.At.below hat) hat' (by omega)
    rw [blockVersion_at H hb hat, blockVersion_at H hb hat']
    refine ⟨chainEpoch_le hseq hat, fun he => ?_⟩
    have := Epoch.toNat_of_isSequential (hseq hat (stored_isEpoch _ he) (by simp))
    exact this.le
  · intro d h i hi
    obtain ⟨a, e, c, hat, hk, hnr, rfl⟩ := hrep.pending.only hi
    cases hi.symm.trans (hrep.pending.stored hat hk hnr)
    exact (blockVersion_at H hb hat).symm
  · intro r b h d hr hs hd
    obtain ⟨a, e, c, hat, rfl⟩ := at_of_blockGet hb hr
    cases hr.symm.trans (blockGet_at H hb hat)
    obtain ⟨epoch, hep, hmax, -⟩ := receive_at H hb hat hs hd
    rw [blockVersion_at H hb hat, Entry.stored_block, blockVersion_below H hb hat, hep]
    exact hmax
  · intro r b hr ht
    obtain ⟨a, e, c, hat, rfl⟩ := at_of_blockGet hb hr
    cases hr.symm.trans (blockGet_at H hb hat)
    refine ⟨fun prev hprev => ?_, fun h d hs hd => ?_⟩
    · rw [Entry.stored_block, previous_at hat] at hprev
      cases c with
      | nil => rw [headHash, blockGet_zero H hb] at hprev; cases hprev
      | cons x c =>
        cases hprev.symm.trans (blockGet_at H hb hat.below)
        obtain ⟨_, _, hx⟩ := extends_at hat
        exact hx.legacy ht x rfl
    · obtain ⟨epoch, hep, -, hleg⟩ := receive_at H hb hat hs hd
      exact hep.trans (hleg ht)

/-- The epochs are in order, in every run without foreign epoch blocks. -/
theorem epoch_structure (hl : Reached p known (NoForeignEpoch p) l) : EpochStructure l := by
  obtain ⟨L, h, hseq⟩ := hl.sequenced H
  exact h.represents.epochStructure H hseq

end

namespace Sample

/-- Two epoch blocks on the open block of B, which has no balance. -/
def epochB : Block := block (.stateBlock accountB (hash openB) 5 0 epochLinkV1)

def epoch2B : Block := block (.stateBlock accountB (hash epochB) 5 0 epochLinkV2)

/-- The first epoch block for A, which has no blocks yet, on top of the second one of B. -/
def lateA : Block := block (.stateBlock accountA (hash epoch2B) 0 0 epochLinkV1)

def epochBlocks : List Block := blocks ++ [epochB, epoch2B, lateA]

theorem epochHashAssumptions : HashAssumptions params (· ∈ epochBlocks) :=
  hashAssumptions_of_list (by decide +kernel) (by decide) (by decide +kernel)

theorem reached_epoch {b : Block} (hl : Reached params (· ∈ epochBlocks)
    (NoForeignEpoch params) l) (hb : b ∈ epochBlocks) (hopen : (l.accountGet b.hashables.account).isSome)
    (hexec : l.exec params 20 (put b) = some l') :
    Reached params (· ∈ epochBlocks) (NoForeignEpoch params) l' := by
  obtain ⟨l0, hgen, run⟩ := hl
  refine ⟨l0, hgen, run.tail (a := put b) ⟨hb, fun hf => ?_⟩ ⟨20, hexec⟩⟩
  rw [hf.2.2.1] at hopen
  cases hopen

end Sample

open Sample

/-- Account B is opened and goes through both epochs. -/
theorem epoch_structure_upgrades :
    ∃ l, Reached params (· ∈ epochBlocks) (NoForeignEpoch params) l ∧
      l.blockVersion (Sample.hash epoch2B) = .epoch2 ∧ EpochStructure l := by
  obtain ⟨l, hl, hopen, l1, hl1, hopen1, l2, hl2, hver⟩ : ∃ l ∈ run opens,
    (l.accountGet accountB).isSome ∧
    ∃ l1 ∈ l.exec params 20 (put epochB),
      (l1.accountGet accountB).isSome ∧
      ∃ l2 ∈ l1.exec params 20 (put epoch2B),
        l2.blockVersion (Sample.hash epoch2B) = .epoch2 := by decide +kernel
  have hrch : Reached params (· ∈ epochBlocks) (NoForeignEpoch params) l :=
    reached_of_no_epochLink (by decide +kernel) hl
  have hrch1 := reached_epoch (b := epochB) hrch (by decide +kernel) hopen hl1
  have hrch2 := reached_epoch (b := epoch2B) hrch1 (by decide +kernel)
    hopen1 hl2
  exact ⟨l2, hrch2, hver, epoch_structure epochHashAssumptions hrch2⟩

/-- The newest block of A has epoch 1 and the one it stands on epoch 2. -/
theorem epoch_structure_fails :
    ∃ l, Reached params (· ∈ epochBlocks) (fun _ action => action.LedgerCall) l ∧
      (∃ info, l.accountGet accountA = some info ∧ (l.chainOf info).map (·.1) =
        [Sample.hash lateA, Sample.hash epoch2B]) ∧
      l.blockVersion (Sample.hash epoch2B) = .epoch2 ∧
      l.blockVersion (Sample.hash lateA) = .epoch1 ∧ ¬ EpochStructure l := by
  obtain ⟨l, hl, info, hinfo, hch, hver, hver'⟩ : ∃ l ∈ run (opens ++
      [put sendA, put epochB, put epoch2B, put lateA]), ∃ info ∈ l.accountGet accountA,
    (l.chainOf info).map (·.1) = [Sample.hash lateA, Sample.hash epoch2B] ∧
    l.blockVersion (Sample.hash epoch2B) = .epoch2 ∧
    l.blockVersion (Sample.hash lateA) = .epoch1 := by decide +kernel
  refine ⟨l, reached_of_ledgerCalls (by decide +kernel) hl, ⟨info, hinfo, hch⟩, hver, hver',
    fun h => ?_⟩
  obtain ⟨x, rest, hxy, hx, hrest⟩ := List.map_eq_cons_iff.1 hch
  obtain ⟨y, rest, rfl, hy, hnil⟩ := List.map_eq_cons_iff.1 hrest
  have hle := (h.chain _ info hinfo 0 x y (by rw [hxy]; rfl) (by rw [hxy]; rfl)).1
  rw [hx, hy, hver, hver'] at hle
  exact absurd hle (by decide)

end Futurehead
