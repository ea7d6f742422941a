import Futurehead.Base.Run
import Futurehead.Ledger.Accept
import Futurehead.Ledger.RollbackTotal

/-!
# Runs of the ledger

The system that the ledger is part of: from the genesis ledger, blocks are processed, stored blocks
are rolled back and confirmation heights rise, in any order. `Holds l L` is the invariant: the
ledger holds the lattice `L`, its genesis block is cemented and no height is above its chain. Every
step keeps it (`holds_of_step`), with one exception: processing a foreign epoch block.
-/

namespace Futurehead

open List Option Finmap

variable {p : Params} {known : Block → Prop}

inductive Action where
  /-- `ledger::process` with a block and what is known about its signature. -/
  | process (block : Block) (verification : SignatureVerification)
  /-- `ledger::rollback` of a stored block. -/
  | rollback (hash : BlockHash)
  /-- `cement_blocks` writes a confirmation height of an account. -/
  | cement (account : Account) (info : ConfirmationHeightInfo)

/-- The height that `cement_blocks` writes is at least the old one and at most the block count. -/
def Ledger.cement (l : Ledger) (account : Account) (info : ConfirmationHeightInfo) :
    Option Ledger := do
  let old ← l.confirmationHeightGet account
  let accountInfo ← l.accountGet account
  if old.height ≤ info.height ∧ info.height ≤ accountInfo.blockCount then
    let l := l.confirmationHeightPut account info
    some { l with cementedCount := l.cementedCount + (info.height - old.height) }
  else none

def Ledger.exec (p : Params) (fuel : Nat) (l : Ledger) : Action → Option Ledger
  | .process b verification => (l.process p b verification).map (·.2)
  | .rollback hash =>
    if l.blockExists hash then (Ledger.rollback p fuel l hash []).map (·.2.1) else none
  | .cement account info => l.cement account info

/-- The action takes `l` to `l'`. A rollback may use any number of steps. -/
def Step (p : Params) (l : Ledger) (action : Action) (l' : Ledger) : Prop :=
  ∃ fuel, l.exec p fuel action = some l'

def Ledger.execAll (p : Params) (fuel : Nat) : List Action → Ledger → Option Ledger
  | [], l => some l
  | action :: actions, l => (l.exec p fuel action).bind (execAll p fuel actions)

/-- The block of the action, if it has one, is among the known blocks. -/
def Action.Given (known : Block → Prop) : Action → Prop
  | .process b _ => known b
  | _ => True

instance [DecidablePred known] (action : Action) : Decidable (action.Given known) :=
  match action with
  | .process b _ => inferInstanceAs (Decidable (known b))
  | .rollback _ => .isTrue trivial
  | .cement .. => .isTrue trivial

/-- The action does not process a foreign epoch block. -/
def NoForeignEpoch (p : Params) (l : Ledger) : Action → Prop
  | .process b verification => ¬ ForeignEpoch p l b verification
  | _ => True

/-- The ledger is reached from genesis by actions with known blocks that all satisfy `ok`. -/
def Reached (p : Params) (known : Block → Prop) (ok : Ledger → Action → Prop) (l : Ledger) : Prop :=
  ∃ l0, Ledger.genesis p = some l0 ∧
    Reaches (Step p) (fun l action => action.Given known ∧ ok l action) l0 l

/-- The action is a call of `ledger::process` or `ledger::rollback`. -/
def Action.LedgerCall : Action → Prop
  | .cement .. => False
  | _ => True

instance (action : Action) : Decidable action.LedgerCall :=
  match action with
  | .process .. => .isTrue trivial
  | .rollback _ => .isTrue trivial
  | .cement .. => .isFalse id

variable {fuel : Nat} {actions : List Action} {ok : Ledger → Action → Prop}

theorem reaches_of_execAll {l l' : Ledger} (hok : ∀ action ∈ actions, ∀ l, ok l action)
    (h : Ledger.execAll p fuel actions l = some l') : Reaches (Step p) ok l l' := by
  induction actions generalizing l with
  | nil => cases h; exact .refl
  | cons action actions ih =>
    obtain ⟨l1, hexec, hrun⟩ := bind_eq_some_iff.1 h
    have hone : Reaches (Step p) ok l l1 :=
      .tail .refl (hok action (mem_cons_self ..) l) ⟨fuel, hexec⟩
    exact hone.trans (ih (fun a ha => hok a (mem_cons_of_mem _ ha)) hrun)

theorem reached_of_execAll {l : Ledger}
    (hok : ∀ action ∈ actions, action.Given known ∧ ∀ l, ok l action)
    (h : (Ledger.genesis p).bind (Ledger.execAll p fuel actions) = some l) :
    Reached p known ok l := by
  obtain ⟨l0, hgen, hrun⟩ := bind_eq_some_iff.1 h
  exact ⟨l0, hgen, reaches_of_execAll (fun a ha l => ⟨(hok a ha).1, (hok a ha).2 l⟩) hrun⟩

/-! ## The invariant -/

/-- The ledger holds the lattice, and its confirmation heights fit. -/
structure Holds (l : Ledger) (L : Lattice p known) : Prop where
  represents : Represents l L fun _ => 0
  genesis : ∀ {a e c}, L.At a e c → e.kind p c = .genesis → l.CementedAt a c
  heights : ∀ {a i}, l.confirmationHeightGet a = some i → i.height ≤ (L.chain a).length

def genesisEntry (p : Params) : Entry := ⟨p.genesisBlock, genesisAmount, {}⟩

theorem genesisEntry_kind (c : List Entry) : (genesisEntry p).kind p c = .genesis := by
  unfold Entry.kind genesisEntry Params.genesisBlock
  rw [Hashables.kind, if_pos rfl]

def genesisChains (p : Params) : Chains :=
  fun a => if a = p.genesisAccount then [genesisEntry p] else []

theorem genesisChains_at {a : Account} {e : Entry} {c : List Entry} :
    (genesisChains p).At a e c ↔ a = p.genesisAccount ∧ e = genesisEntry p ∧ c = [] := by
  unfold Chains.At genesisChains
  split
  · rename_i ha
    rw [suffix_cons_iff]
    simp [ha]
  · rename_i ha
    simp [ha]

def genesisLattice (H : HashAssumptions p known) : Lattice p known where
  chain := genesisChains p
  rank := fun _ => 0
  known_at := fun hat => by
    obtain ⟨-, rfl, -⟩ := genesisChains_at.1 hat
    exact H.genesis
  valid := fun hat => by
    obtain ⟨rfl, rfl, rfl⟩ := genesisChains_at.1 hat
    have hk := genesisEntry_kind (p := p) []
    refine ⟨0, .epoch0, ?_, fun s hs => by rw [hk] at hs; cases hs⟩
    exact
      { account_ne_zero := H.genesisAccount_ne_zero
        previous := rfl
        opens := fun _ => .inl rfl
        open_first := fun _ => rfl
        account := fun _ => rfl
        legacy := fun _ x hx => by cases hx
        stated := fun b hb => by cases hb
        send := fun d hd => by rw [hk] at hd; cases hd
        receive := fun s hs => by rw [hk] at hs; cases hs
        receive_legacy := fun _ _ _ => rfl
        neutral := fun hn => by rw [hk] at hn; cases hn
        genesis := fun _ => ⟨rfl, rfl⟩
        details := rfl }
  received_once := fun hat _ hs => by
    obtain ⟨-, rfl, rfl⟩ := genesisChains_at.1 hat
    rw [genesisEntry_kind] at hs
    cases hs
  rank_previous := fun hat => by
    obtain ⟨-, -, hc⟩ := genesisChains_at.1 hat
    cases hc
  rank_source := fun hat hs => by
    obtain ⟨-, rfl, rfl⟩ := genesisChains_at.1 hat
    rw [genesisEntry_kind] at hs
    cases hs

theorem genesis_eq : Ledger.genesis p = some
    { blocks := Finmap.insert ((genesisEntry p).key p)
        ((genesisEntry p).stored p.genesisAccount [] 0) ∅
      accounts := Finmap.insert p.genesisAccount (chainInfo p [genesisEntry p]) ∅
      frontiers := Finmap.insert ((genesisEntry p).hash p) p.genesisAccount ∅
      confirmationHeight := Finmap.insert p.genesisAccount ⟨1, (genesisEntry p).hash p⟩ ∅
      repAmounts := Finmap.insert p.genesisAccount genesisAmount ∅
      blockCount := 1
      accountCount := 1
      cementedCount := 1 } := rfl

theorem genesis_represents (H : HashAssumptions p known) {l : Ledger}
    (hl : Ledger.genesis p = some l) : Represents l (genesisLattice H) fun _ => 0 := by
  rw [genesis_eq] at hl
  cases hl
  have hself : (genesisLattice H).chain p.genesisAccount = [genesisEntry p] := if_pos rfl
  have hne {a : Account} (ha : a ≠ p.genesisAccount) : (genesisLattice H).chain a = [] := if_neg ha
  refine ⟨⟨fun hat => ?_, fun hlk => ?_⟩, fun a => ?_, ⟨fun hat hk => ?_, fun hlk => ?_⟩,
    fun x a => ?_, fun a => ?_, fun r => ?_, ?_, ?_, ?_⟩
  · obtain ⟨rfl, rfl, rfl⟩ := genesisChains_at.1 hat
    rw [Chains.successor, hself]
    exact lookup_insert _
  · refine ⟨p.genesisAccount, genesisEntry p, [], genesisChains_at.2 ⟨rfl, rfl, rfl⟩, ?_⟩
    rw [Finmap.lookup_insert_eq] at hlk
    split at hlk
    · assumption
    · cases hlk
  · rw [Finmap.lookup_insert_eq]
    split
    · rename_i ha; rw [ha, hself]; rfl
    · rename_i ha; rw [hne ha]; rfl
  · obtain ⟨-, rfl, rfl⟩ := genesisChains_at.1 hat
    rw [genesisEntry_kind] at hk
    cases hk
  · cases hlk
  · rw [Finmap.lookup_insert_eq]
    by_cases ha : a = p.genesisAccount
    · subst ha
      rw [hself]
      have hleg : chainLegacy [genesisEntry p] = true := rfl
      simp only [hleg, headHash, true_and]
      by_cases hx : x = (genesisEntry p).hash p
      · simp [hx]
      · simp only [if_neg hx, Ne.symm hx, iff_false]
        exact fun hlk => by cases hlk
    · rw [hne ha]
      simp only [chainLegacy, Bool.false_eq_true, false_and, iff_false]
      split
      · exact fun hlk => ha (Option.some.inj hlk).symm
      · exact fun hlk => by cases hlk
  · rw [mem_insert]
    by_cases ha : a = p.genesisAccount
    · rw [ha, hself]; simp
    · rw [hne ha]; simp [ha, notMem_empty]
  · rw [Finmap.total_insert_of_notMem _ _ notMem_empty, Finmap.total_empty, add_zero,
      add_zero, Ledger.representationGet, Finmap.lookup_insert_eq]
    change _ = if p.genesisAccount = r then genesisAmount else 0
    by_cases hr : p.genesisAccount = r
    · rw [if_pos hr.symm, if_pos hr]; rfl
    · rw [if_neg (Ne.symm hr), if_neg hr]; rfl
  · rw [supply, Finmap.total_insert_of_notMem _ _ notMem_empty, Finmap.total_empty]
    rfl
  · rw [Finmap.card_keys_eq_total, Finmap.total_insert_of_notMem _ _ notMem_empty]
    rfl
  · rw [Finmap.card_keys_eq_total, Finmap.total_insert_of_notMem _ _ notMem_empty]
    rfl

theorem genesis_holds (H : HashAssumptions p known) {l : Ledger} (hl : Ledger.genesis p = some l) :
    Holds l (genesisLattice H) := by
  refine ⟨genesis_represents H hl, fun hat hk => ?_, fun {a i} hi => ?_⟩
  · rw [genesis_eq] at hl
    cases hl
    obtain ⟨rfl, rfl, rfl⟩ := genesisChains_at.1 hat
    exact ⟨_, lookup_insert _, Nat.le_refl 1⟩
  · rw [genesis_eq] at hl
    cases hl
    rw [Ledger.confirmationHeightGet, Finmap.lookup_insert_eq] at hi
    split at hi
    · rename_i ha
      cases hi
      rw [ha]
      change 1 ≤ (genesisChains p p.genesisAccount).length
      rw [genesisChains, if_pos rfl]
      exact Nat.le_refl 1
    · cases hi

/-! ## Steps -/

section

variable (H : HashAssumptions p known) {L : Lattice p known} {l l' : Ledger} {a : Account}
  {e : Entry} {c : List Entry}

theorem cementedAt_of_process {y : Account} (hconf : ∀ x, l'.confirmationHeightGet x =
      if L.chain a = [] ∧ x = a then some ⟨0, 0⟩ else l.confirmationHeightGet x)
    (hat : L.At y e c) (hc : l.CementedAt y c) : l'.CementedAt y c := by
  obtain ⟨i, hi, hle⟩ := hc
  refine ⟨i, (hconf y).trans ((if_neg ?_).trans hi), hle⟩
  rintro ⟨hnil, rfl⟩
  exact hat.ne_nil hnil

include H in
theorem holds_of_process {b : Block} {verification : SignatureVerification} {r : ProcessReturn}
    (h : Holds l L) (hkn : known b) (hf : r.code = .progress → ¬ ForeignEpoch p l b verification)
    (hproc : l.process p b verification = some (r, l')) :
    (r.code ≠ .progress ∧ l' = l) ∨ (r.code = .progress ∧
      ∃ a n amt epoch, ∃ hp : L.Pushable a n amt epoch, n.block = b ∧
        Holds l' (L.push a n hp) ∧
        ∀ x, l'.confirmationHeightGet x =
          if L.chain a = [] ∧ x = a then some ⟨0, 0⟩ else l.confirmationHeightGet x) := by
  rcases process_represents H h.represents hkn hproc with hno | ⟨hcode, hfor | hyes⟩
  · exact .inl hno
  · exact absurd hfor (hf hcode)
  · obtain ⟨a, n, amt, epoch, hp, hn, hg, hrep, hconf⟩ := hyes
    have g := L.push_grows a n hp
    refine .inr ⟨hcode, a, n, amt, epoch, hp, hn, ⟨hrep, fun {y e c} hat hk => ?_,
      fun {y i} hi => ?_⟩, hconf⟩
    · rcases g.at_iff.1 hat with ⟨rfl, rfl, rfl⟩ | hold
      · exact absurd hk hg
      · exact cementedAt_of_process hconf hold (h.genesis hold hk)
    · rw [hconf] at hi
      split at hi
      · cases hi; exact Nat.zero_le _
      · exact (h.heights hi).trans (g.within y).length_le

theorem holds_of_rolled {L' : Lattice p known} {target : BlockHash} {removed : List Block}
    (h : Holds l L) (hrep : Represents l' L' fun _ => 0)
    (r : Rolled l L target removed l' L') : Holds l' L' := by
  refine ⟨hrep, fun hat hk => ?_, fun {a i} hi => ?_⟩
  · exact (r.cementedAt_iff hat).2 (h.genesis (r.within.at hat) hk)
  · have hne : L'.chain a ≠ [] := (hrep.confirmation a).1 (mem_iff.2 ⟨i, hi⟩)
    have hi' : l.confirmationHeightGet a = some i := (r.confirmation a hne).symm.trans hi
    obtain ⟨t, ht⟩ := r.within a
    rcases eq_nil_or_concat t with rfl | ⟨t, e, rfl⟩
    · rw [nil_append] at ht
      rw [ht]
      exact h.heights hi'
    · -- the block that stood on the chain was not cemented
      have hat : L.At a e (L'.chain a) := ⟨t, by rw [← ht]; simp⟩
      have hgone : ¬ L'.At a e (L'.chain a) := Chains.Grows.not_at_self e
      have := r.uncemented hat hgone
      by_contra hlt
      exact this ⟨i, hi', by omega⟩

theorem cementedAt_of_cement {acc : Account} {info : ConfirmationHeightInfo}
    (hrun : l.cement acc info = some l') (hc : l.CementedAt a c) : l'.CementedAt a c := by
  obtain ⟨old, hold, hrun⟩ := bind_eq_some_iff.1 hrun
  obtain ⟨accountInfo, -, hrun⟩ := bind_eq_some_iff.1 hrun
  obtain ⟨i, hi, hle⟩ := hc
  split at hrun
  · rename_i hrise
    cases hrun
    have hget := Finmap.lookup_insert_eq l.confirmationHeight acc a info
    by_cases ha : a = acc
    · subst ha
      obtain rfl := Option.some.inj (hold.symm.trans hi)
      exact ⟨info, hget.trans (if_pos rfl), hle.trans hrise.1⟩
    · exact ⟨i, hget.trans ((if_neg ha).trans hi), hle⟩
  · cases hrun

theorem holds_of_cement {acc : Account} {info : ConfirmationHeightInfo} (h : Holds l L)
    (hrun : l.cement acc info = some l') : Holds l' L := by
  have hkeep {a c} := cementedAt_of_cement hrun (a := a) (c := c)
  obtain ⟨old, hold, hrun⟩ := bind_eq_some_iff.1 hrun
  obtain ⟨accountInfo, hacc, hrun⟩ := bind_eq_some_iff.1 hrun
  split at hrun
  · rename_i hle
    cases hrun
    refine ⟨{ h.represents with confirmation := fun a => ?_ },
      fun hat hk => hkeep (h.genesis hat hk), fun {a i} hi => ?_⟩
    · rw [← h.represents.confirmation a]
      change a ∈ l.confirmationHeight.insert acc info ↔ _
      rw [mem_insert]
      refine or_iff_right_of_imp ?_
      rintro rfl
      exact mem_iff.2 ⟨_, hold⟩
    · change (l.confirmationHeight.insert acc info).lookup a = some i at hi
      rw [Finmap.lookup_insert_eq] at hi
      split at hi
      · rename_i ha
        cases hi
        subst ha
        obtain ⟨-, rfl⟩ := accountGet_some h.represents.accounts hacc
        exact hle.2
      · exact h.heights hi
  · cases hrun

include H

theorem lattice_of_step {action : Action} (h : Holds l L) (hgiv : action.Given known)
    (hok : NoForeignEpoch p l action) (hstep : Step p l action l') :
    ∃ L' : Lattice p known, Holds l' L' ∧
      (∀ {a e c}, L.At a e c → l.CementedAt a c → L'.At a e c ∧ l'.CementedAt a c) ∧
      ((∃ a n amt epoch, ∃ hp : L.Pushable a n amt epoch, ∃ verification r l1,
        l.process p n.block verification = some (r, l1) ∧ r.code = .progress ∧
          L' = L.push a n hp) ∨ L'.chain.Within L.chain) := by
  obtain ⟨fuel, hexec⟩ := hstep
  cases action with
  | process b verification =>
    obtain ⟨⟨r, l1⟩, hproc, rfl⟩ := map_eq_some_iff.1 hexec
    rcases holds_of_process H h hgiv (fun _ => hok) hproc with
      ⟨-, heq⟩ | ⟨hcode, a, n, amt, epoch, hp, rfl, hl', hconf⟩
    · exact ⟨L, heq ▸ h, fun hat hc => ⟨hat, heq ▸ hc⟩, .inr (.refl _)⟩
    · exact ⟨_, hl', fun hat hc =>
          ⟨(L.push_grows a n hp).at_of_at hat, cementedAt_of_process hconf hat hc⟩,
        .inl ⟨a, n, amt, epoch, hp, verification, r, l1, hproc, hcode, rfl⟩⟩
  | rollback hash =>
    simp only [Ledger.exec] at hexec
    split at hexec
    · rename_i hex
      obtain ⟨⟨error, l1, list'⟩, hrun, rfl⟩ := map_eq_some_iff.1 hexec
      obtain ⟨a, e, c, hat, rfl⟩ := at_of_blockExists h.represents.blocks hex
      obtain ⟨L', removed, hrep, r, -⟩ := rollback_spec H fuel h.represents hat hrun
      refine ⟨L', holds_of_rolled h hrep r, fun {y x d} hx hc => ?_, .inr r.within⟩
      have hx' : L'.At y x d := by_contra fun hnot => r.uncemented hx hnot hc
      exact ⟨hx', (r.cementedAt_iff hx').2 hc⟩
    · cases hexec
  | cement acc info =>
    exact ⟨L, holds_of_cement h hexec, fun hat hc => ⟨hat, cementedAt_of_cement hexec hc⟩,
      .inr (.refl _)⟩

theorem holds_of_step {action : Action} (h : Holds l L) (hgiv : action.Given known)
    (hok : NoForeignEpoch p l action) (hstep : Step p l action l') :
    ∃ L' : Lattice p known, Holds l' L' := by
  obtain ⟨L', h', -⟩ := lattice_of_step H h hgiv hok hstep
  exact ⟨L', h'⟩

theorem Reached.holds (hl : Reached p known (NoForeignEpoch p) l) :
    ∃ L : Lattice p known, Holds l L := by
  obtain ⟨l0, hgen, run⟩ := hl
  refine run.invariant (I := fun l => ∃ L : Lattice p known, Holds l L)
    ⟨_, genesis_holds H hgen⟩ ?_
  rintro t action t' ⟨L, h⟩ ⟨hgiv, hok⟩ hstep
  exact holds_of_step H h hgiv hok hstep

end

/-! ## Runs of process and rollback alone -/

/-- An accepted state block stands on a block of the account it names. The other types name no
account, or have no previous block. -/
def OwnPrevious (p : Params) (l : Ledger) : Action → Prop
  | .process b verification => ∀ r l', l.process p b verification = some (r, l') →
    r.code = .progress → b.hashables.type = .state → b.hashables.previous ≠ 0 →
      l.account b.hashables.previous = some b.hashables.account
  | _ => True

/-- A call of process or rollback that keeps to the chains. -/
def OwnCall (p : Params) (l : Ledger) (action : Action) : Prop :=
  action.LedgerCall ∧ OwnPrevious p l action

/-- The invariant when nothing is cemented but the genesis block. -/
structure Uncemented (l : Ledger) (L : Lattice p known) : Prop where
  holds : Holds l L
  genesis_at : L.At p.genesisAccount (genesisEntry p) []
  heights : ∀ a, l.confirmationHeightGet a = if L.chain a = [] then none else
    some (if a = p.genesisAccount then ⟨1, (genesisEntry p).hash p⟩ else ⟨0, 0⟩)

section

variable (H : HashAssumptions p known) {L : Lattice p known} {l l' : Ledger} {a : Account}
  {e : Entry} {c : List Entry}

theorem Uncemented.eq_genesis (h : Uncemented l L) (hat : L.At a e c) (hcem : l.CementedAt a c) :
    a = p.genesisAccount ∧ e = genesisEntry p ∧ c = [] := by
  obtain ⟨i, hi, hle⟩ := hcem
  rw [h.heights] at hi
  split at hi
  · cases hi
  · obtain rfl := Option.some.inj hi
    split at hle
    · rename_i ha
      obtain rfl : c = [] := length_eq_zero_iff.1 (by simpa using hle)
      subst ha
      exact ⟨rfl, Chains.At.eq_of_length hat h.genesis_at rfl⟩
    · simp at hle

include H in
theorem not_foreignEpoch_of_own {b : Block} {tag : SignatureVerification} {shift : Account → Amount} (h : Represents l L shift)
    (hown : b.hashables.type = .state → b.hashables.previous ≠ 0 →
      l.account b.hashables.previous = some b.hashables.account) : ¬ ForeignEpoch p l b tag := by
  rintro ⟨ht, -, hnone, hex, -⟩
  obtain ⟨y, x, d, hat, hh⟩ := at_of_blockExists h.blocks hex
  rw [← hh] at hown
  have hacc := hown ht (Lattice.hash_ne_zero H hat)
  rw [account_at H h.blocks hat] at hacc
  obtain rfl := Option.some.inj hacc
  exact hat.ne_nil (chain_eq_nil h.accounts hnone)

include H in
theorem uncemented_of_process {b : Block} {verification : SignatureVerification}
    {r : ProcessReturn} (h : Uncemented l L) (hkn : known b)
    (hown : OwnPrevious p l (.process b verification))
    (hproc : l.process p b verification = some (r, l')) :
    (r.code ≠ .progress ∧ l' = l) ∨ (r.code = .progress ∧
      ∃ a n amt epoch, ∃ hp : L.Pushable a n amt epoch, n.block = b ∧
        Uncemented l' (L.push a n hp)) := by
  have hf (hcode : r.code = .progress) : ¬ ForeignEpoch p l b verification :=
    not_foreignEpoch_of_own H h.holds.represents (hown r l' hproc hcode)
  rcases holds_of_process H h.holds hkn hf hproc with
    hno | ⟨hcode, a, n, amt, epoch, hp, hn, hl', hconf⟩
  · exact .inl hno
  have g := L.push_grows a n hp
  refine .inr ⟨hcode, a, n, amt, epoch, hp, hn, hl', g.at_of_at h.genesis_at, fun x => ?_⟩
  rw [hconf, h.heights]
  by_cases hx : x = a
  · subst hx
    rw [g.chain_self]
    by_cases hnil : L.chain x = []
    · have hne : x ≠ p.genesisAccount := by
        rintro rfl
        exact h.genesis_at.ne_nil hnil
      simp [hnil, hne]
    · simp [hnil]
  · rw [g.chain_ne hx, if_neg fun hc => hx hc.2]

theorem uncemented_of_rolled {L' : Lattice p known} {target : BlockHash} {removed : List Block}
    (h : Uncemented l L) (hrep : Represents l' L' fun _ => 0)
    (r : Rolled l L target removed l' L') : Uncemented l' L' := by
  refine ⟨holds_of_rolled h.holds hrep r, ?_, fun x => ?_⟩
  · by_contra hnot
    exact r.uncemented h.genesis_at hnot (h.holds.genesis h.genesis_at (genesisEntry_kind []))
  · by_cases hnil : L'.chain x = []
    · rw [if_pos hnil]
      cases hget : l'.confirmationHeightGet x with
      | none => rfl
      | some i => exact absurd hnil ((hrep.confirmation x).1 (mem_iff.2 ⟨i, hget⟩))
    · have hold : L.chain x ≠ [] := fun ho => by
        have := r.within x
        rw [ho, suffix_nil] at this
        exact hnil this
      rw [r.confirmation x hnil, h.heights, if_neg hold, if_neg hnil]

theorem genesis_uncemented (H : HashAssumptions p known) (hl : Ledger.genesis p = some l) :
    Uncemented l (genesisLattice H) := by
  refine ⟨genesis_holds H hl, genesisChains_at.2 ⟨rfl, rfl, rfl⟩, fun a => ?_⟩
  rw [genesis_eq] at hl
  cases hl
  rw [Ledger.confirmationHeightGet, Finmap.lookup_insert_eq]
  change _ = if genesisChains p a = [] then none else _
  unfold genesisChains
  by_cases ha : a = p.genesisAccount
  · simp [ha]
  · simp only [if_neg ha, if_true]
    rfl

include H in
theorem Reached.uncemented (hl : Reached p known (OwnCall p) l) :
    ∃ L : Lattice p known, Uncemented l L := by
  obtain ⟨l0, hgen, run⟩ := hl
  refine run.invariant (I := fun l => ∃ L : Lattice p known, Uncemented l L)
    ⟨_, genesis_uncemented H hgen⟩ ?_
  rintro t action t' ⟨L, h⟩ ⟨hgiv, hcall, hown⟩ ⟨fuel, hexec⟩
  cases action with
  | process b verification =>
    obtain ⟨⟨r, l1⟩, hproc, rfl⟩ := map_eq_some_iff.1 hexec
    rcases uncemented_of_process H h hgiv hown hproc with
      ⟨-, heq⟩ | ⟨-, a, n, amt, epoch, hp, -, hl'⟩
    · exact ⟨L, heq ▸ h⟩
    · exact ⟨_, hl'⟩
  | rollback hash =>
    simp only [Ledger.exec] at hexec
    split at hexec
    · rename_i hex
      obtain ⟨⟨error, l1, list'⟩, hrun, rfl⟩ := map_eq_some_iff.1 hexec
      obtain ⟨a, e, c, hat, rfl⟩ := at_of_blockExists h.holds.represents.blocks hex
      obtain ⟨L', removed, hrep, r, -⟩ := rollback_spec H fuel h.holds.represents hat hrun
      exact ⟨L', uncemented_of_rolled h hrep r⟩
    · cases hexec
  | cement acc info => exact hcall.elim

end

/-! ## A small network

A network with a hash that can be computed, for runs on fixed blocks. Every signature is valid and
every work is enough. -/

theorem hashAssumptions_of_list {blocks : List Block} (hgen : p.genesisBlock ∈ blocks)
    (hne : p.genesisAccount ≠ 0)
    (hall : ∀ b ∈ blocks, p.hash b ≠ 0 ∧ p.hash b ≠ p.genesisAccount ∧
      p.isEpochLink (p.hash b) = false ∧
      ∀ b' ∈ blocks, p.hash b = p.hash b' → b.hashables.hashInput = b'.hashables.hashInput) :
    HashAssumptions p (· ∈ blocks) where
  genesis := hgen
  genesisAccount_ne_zero := hne
  collisionFree := fun hb hb' => (hall _ hb).2.2.2 _ hb'
  ne_zero := fun hb => (hall _ hb).1
  ne_genesisAccount := fun hb => (hall _ hb).2.1
  not_epochLink := fun hb => (hall _ hb).2.2.1

theorem reached_of_ledgerCalls {blocks : List Block} {l : Ledger}
    (hall : ∀ action ∈ actions, action.Given (· ∈ blocks) ∧ action.LedgerCall)
    (h : (Ledger.genesis p).bind (Ledger.execAll p fuel actions) = some l) :
    Reached p (· ∈ blocks) (fun _ action => action.LedgerCall) l :=
  reached_of_execAll (fun action ha => ⟨(hall action ha).1, fun _ => (hall action ha).2⟩) h

theorem reached_of_no_epochLink {blocks : List Block} {l : Ledger} (hall : ∀ action ∈ actions,
      action.Given fun b => b ∈ blocks ∧ p.isEpochLink b.hashables.link = false)
    (h : (Ledger.genesis p).bind (Ledger.execAll p fuel actions) = some l) :
    Reached p (· ∈ blocks) (NoForeignEpoch p) l := by
  refine reached_of_execAll (fun action ha => ?_) h
  have hg := hall action ha
  cases action with
  | process b verification =>
    refine ⟨hg.1, fun l hf => ?_⟩
    rw [ForeignEpoch, hg.2] at hf
    exact Bool.false_ne_true hf.2.1
  | rollback hash | cement acc info => exact ⟨trivial, fun _ => trivial⟩

theorem reached_of_legacy {blocks : List Block} {l : Ledger} (hall : ∀ action ∈ actions,
      (action.Given fun b => b ∈ blocks ∧ b.hashables.type ≠ .state) ∧ action.LedgerCall)
    (h : (Ledger.genesis p).bind (Ledger.execAll p fuel actions) = some l) :
    Reached p (· ∈ blocks) (OwnCall p) l := by
  refine reached_of_execAll (fun action ha => ?_) h
  obtain ⟨hg, hcall⟩ := hall action ha
  cases action with
  | process b verification =>
    exact ⟨hg.1, fun l => ⟨hcall, fun _ _ _ _ ht => absurd ht hg.2⟩⟩
  | rollback hash => exact ⟨trivial, fun _ => ⟨hcall, trivial⟩⟩
  | cement acc info => exact hcall.elim

namespace Sample

def word : HashInput → Nat
  | .u256 x => x.toNat
  | .u128 x => x.toNat

def params : Params where
  genesisAccount := 1
  genesisSignature := 0
  genesisWork := 0
  epochV2Signer := 2
  publishThresholds := ⟨0, 0, 0⟩
  blake2b := fun xs =>
    BitVec.ofNat 256 (1000 + xs.foldl (fun h x => (31 * h + word x) % 1000003) 7)
  validateMessage := fun _ _ _ => false
  workValue := fun _ _ => 0

def block (h : Hashables) : Block := ⟨h, 0, 0⟩

def hash (b : Block) : BlockHash := params.hash b

def put (b : Block) : Action := .process b .unknown

def take (b : Block) : Action := .rollback (hash b)

def accountA : Account := 100

def accountB : Account := 200

/-- The genesis account sends nothing to account B, which is opened with it. -/
def sendZero : Block := block (.sendBlock (hash params.genesisBlock) accountB genesisAmount)

def openB : Block := block (.openBlock (hash sendZero) 5 accountB)

/-- The genesis account sends 10 to B, which receives it and names another representative. -/
def sendB : Block := block (.sendBlock (hash sendZero) accountB (genesisAmount - 10))

def receiveB : Block := block (.stateBlock accountB (hash openB) 6 10 (hash sendB))

def sendA : Block := block (.sendBlock (hash sendB) accountA (genesisAmount - 11))

/-- An epoch block for A, which has no blocks yet, on top of the open block of B. -/
def epochA : Block := block (.stateBlock accountA (hash openB) 0 0 epochLinkV1)

def changeB : Block := block (.changeBlock (hash openB) 9)

def spendB : Block := block (.stateBlock accountB (hash openB) 7 4 accountA)

def payA : Block := block (.stateBlock accountB (hash receiveB) 6 4 accountA)

def openA : Block := block (.openBlock (hash payA) 5 accountA)

def blocks : List Block :=
  [params.genesisBlock, sendZero, openB, sendB, receiveB, sendA, epochA, changeB, spendB, payA,
    openA]

theorem hashAssumptions : HashAssumptions params (· ∈ blocks) :=
  hashAssumptions_of_list (by decide +kernel) (by decide) (by decide +kernel)

def opens : List Action := [put sendZero, put openB, put sendB]

def receives : List Action := opens ++ [put receiveB]

def pays : List Action := receives ++ [put payA, put openA]

/-- Account A gets an epoch block that stands on a block of B. -/
def straddles : List Action := receives ++ [put sendA, put epochA]

/-- The epoch block of A is rolled back. The frontier it leaves on the open block of B lets a change
block be put there and taken off again, although B has received since. -/
def misplaces : List Action := straddles ++ [take epochA, put changeB, take changeB]

def run (actions : List Action) : Option Ledger :=
  (Ledger.genesis params).bind (Ledger.execAll params 20 actions)

end Sample

end Futurehead
