import Futurehead.Ledger.Checked
import Futurehead.Ledger.Fork
import Futurehead.Processing.Signatures

/-!
# Forced blocks

The winner of an election is forced: `process_batch` looks up the stored block with the same
qualified root, rolls it back if it is another one, and then processes the winner like any block.
Whether the rollback failed is not looked at.
-/

namespace Futurehead

open List Option

variable {p : Params} {known : Block → Prop} {L : Lattice p known} {b : Block} {fuel : Nat}

/-- The hash in `ledger::successor`: that of the first block of the account, or of the block on top
of the previous one. -/
def Ledger.successorHash (l : Ledger) (root : QualifiedRoot) : BlockHash :=
  if root.previous = 0 then
    match l.accountGet root.root with
    | some info => info.openBlock
    | none => l.blockSuccessor root.previous
  else l.blockSuccessor root.previous

def Ledger.successor (l : Ledger) (root : QualifiedRoot) : Option StoredBlock :=
  let successor := l.successorHash root
  if successor = 0 then none else l.blockGet successor

/-- Replaces our block with the winner and rolls back any dependent blocks. The error of the
rollback is only logged. -/
def Ledger.replaceRival (p : Params) (fuel : Nat) (l : Ledger) (b : Block) : Option Ledger :=
  match l.successor b.hashables.qualifiedRoot with
  | some successor =>
    if p.hash successor.block ≠ p.hash b then
      (Ledger.rollback p fuel l (p.hash successor.block) []).map (·.2.1)
    else some l
  | none => some l

/-- The body of the loop of `process_batch` for a forced block. -/
def BlockProcessor.processForced (p : Params) (fullSize fuel : Nat) (s : BlockProcessor) (b : Block) :
    Option BlockProcessor := do
  let ledger ← s.ledger.replaceRival p fuel b
  processOne p fullSize { s with ledger } { block := b }

/-! ## The rival -/

/-- A stored block with the qualified root of `b` and another hash. -/
def Ledger.Competitor (p : Params) (l : Ledger) (b : Block) (r : StoredBlock) : Prop :=
  l.blockGet (p.hash r.block) = some r ∧
    r.block.hashables.qualifiedRoot = b.hashables.qualifiedRoot ∧ p.hash r.block ≠ p.hash b

def Ledger.RivalConfirmed (p : Params) (l : Ledger) (b : Block) : Prop :=
  ∃ r, l.Competitor p b r ∧ l.Confirmed (p.hash r.block)

/-- The block is the rival of `b` or rests on it. -/
def Ledger.RestsOnRival (p : Params) (l : Ledger) (b : Block) (hash : BlockHash) : Prop :=
  ∃ r, l.Competitor p b r ∧ l.RestsOn p hash (p.hash r.block)

/-- Some ledger accepts the block that has none but the blocks that would be left without the rival
of the block and what rests on it. -/
def Ledger.ValidWithoutRival (p : Params) (known : Block → Prop) (l : Ledger) (b : Block) : Prop :=
  ∃ l1 r l2, Reached p known (NoForeignEpoch p) l1 ∧
    (∀ x, l1.Stores p x → l.Stores p x ∧ ¬ l.RestsOnRival p b (p.hash x)) ∧
    l1.process p b .unknown = some (r, l2) ∧ r.code = .progress

/-- What a forced block does to the ledger: it is there in the end unless its rival is cemented, and
it replaces nothing but the rival and what rests on it. -/
structure Replaced (p : Params) (l : Ledger) (b : Block) (l' : Ledger) : Prop where
  stored : l'.blockExists (p.hash b) ↔ l.blockExists (p.hash b) ∨ ¬ l.RivalConfirmed p b
  removed : l'.blockExists (p.hash b) →
    ∀ x, l.blockExists x → (l'.blockExists x = false ↔ l.RestsOnRival p b x)
  added : ∀ x, l'.blockExists x → l.blockExists x ∨ x = p.hash b
  unchanged : l.RivalConfirmed p b → l' = l

section Rival

variable (H : HashAssumptions p known)
  {l : Ledger} {a : Account} {e x : Entry} {c : List Entry}

variable {r : StoredBlock} {amount : Amount} {epoch : Epoch}

theorem Extends.qualifiedRoot (hx : Extends p a c e amount epoch) (hz : headHash p c = 0 → c = []) :
    e.block.hashables.qualifiedRoot = ⟨headHash p c, if c = [] then a else headHash p c⟩ := by
  have hprev := hx.previous
  unfold Hashables.qualifiedRoot
  rw [hprev]
  by_cases hc : c = []
  · rw [if_pos hc, hx.root_first hc]
  · rw [if_neg hc, Hashables.root_of_previous (hprev ▸ mt hz hc), hprev]

include H in
theorem qualifiedRoot_at (hat : L.At a e c) :
    e.block.hashables.qualifiedRoot = ⟨headHash p c, if c = [] then a else headHash p c⟩ := by
  obtain ⟨_, _, hx⟩ := Lattice.extends_at hat
  exact hx.qualifiedRoot (Lattice.headHash_eq_zero H hat).1

include H in
theorem below_of_qualifiedRoot {y : Account} {n : Entry} {d : List Entry} (hat : L.At y e c)
    (hx : Extends p a d n amount epoch) (hd : d <:+ L.chain a)
    (heq : e.block.hashables.qualifiedRoot = n.block.hashables.qualifiedRoot) : y = a ∧ c = d := by
  have hz (hz : headHash p d = 0) : d = [] := by
    cases d with
    | nil => rfl
    | cons x d => exact absurd hz (Lattice.hash_ne_zero H (a := a) (c := d) hd)
  rw [qualifiedRoot_at H hat, hx.qualifiedRoot hz] at heq
  obtain ⟨hprev, hroot⟩ := QualifiedRoot.mk.inj heq
  cases c with
  | nil =>
    obtain rfl := hz hprev.symm
    exact ⟨hroot, rfl⟩
  | cons x c =>
    cases d with
    | nil => exact absurd hprev (Lattice.hash_ne_zero H hat.below)
    | cons z d =>
      obtain ⟨rfl, rfl, rfl⟩ := Lattice.at_unique H hat.below (show L.At a z d from hd) hprev
      exact ⟨rfl, rfl⟩

variable (h : Represents l L fun _ => 0)
include H h

theorem successorHash_at (hat : L.At a e c) :
    l.successorHash e.block.hashables.qualifiedRoot = e.hash p := by
  unfold Ledger.successorHash
  cases c with
  | nil =>
    obtain ⟨e', hat', hopen⟩ := exists_first hat.ne_nil (suffix_refl _)
    obtain ⟨rfl, -⟩ := Chains.At.eq_of_length hat hat' rfl
    rw [qualifiedRoot_at H hat, if_pos rfl, if_pos (show headHash p [] = 0 from rfl),
      accountGet_of_ne_nil h.accounts hat.ne_nil]
    exact hopen.symm
  | cons x c =>
    have hx := hat.below
    rw [qualifiedRoot_at H hat, if_neg (show headHash p (x :: c) ≠ 0 from Lattice.hash_ne_zero H hx)]
    rcases blockSuccessor_at H h hx with ⟨hhead, -⟩ | ⟨e', hat', hsucc⟩
    · have := hat.length_le
      rw [← hhead] at this
      simp at this
    · obtain ⟨rfl, -⟩ := Chains.At.eq_of_length hat hat' rfl
      exact hsucc

theorem successorHash_cases (b : Block) :
    l.successorHash b.hashables.qualifiedRoot = 0 ∨ ∃ a e c, L.At a e c ∧
      e.block.hashables.qualifiedRoot = b.hashables.qualifiedRoot ∧
      l.successorHash b.hashables.qualifiedRoot = e.hash p := by
  have hzero {x : BlockHash} (hx : l.blockGet x = none) : l.blockSuccessor x = 0 := by
    rw [Ledger.blockSuccessor, hx]
    rfl
  unfold Ledger.successorHash
  by_cases hprev : b.hashables.previous = 0
  · rw [if_pos (show b.hashables.qualifiedRoot.previous = 0 from hprev)]
    cases hacc : l.accountGet b.hashables.qualifiedRoot.root with
    | none =>
      left
      exact hzero (by rw [show b.hashables.qualifiedRoot.previous = 0 from hprev]
                      exact blockGet_zero H h.blocks)
    | some info =>
      obtain ⟨hne, rfl⟩ := accountGet_some h.accounts hacc
      obtain ⟨e, hat, hopen⟩ := exists_first hne (suffix_refl _)
      refine .inr ⟨_, e, [], hat, ?_, hopen.symm⟩
      rw [qualifiedRoot_at H hat, Hashables.qualifiedRoot, hprev]
      rfl
  · have hroot := Hashables.root_of_previous hprev
    rw [if_neg (show b.hashables.qualifiedRoot.previous ≠ 0 from hprev)]
    cases hget : l.blockGet b.hashables.previous with
    | none => exact .inl (hzero hget)
    | some s =>
      obtain ⟨y, x, c, hx, hh⟩ := at_of_blockGet h.blocks hget
      rcases blockSuccessor_at H h hx with ⟨-, hsucc⟩ | ⟨e, hat, hsucc⟩
      · exact .inl (by rw [← hsucc, hh]; rfl)
      · refine .inr ⟨y, e, x :: c, hat, ?_, by rw [← hsucc, hh]; rfl⟩
        rw [qualifiedRoot_at H hat, Hashables.qualifiedRoot, hroot, ← hh]
        rfl

theorem successor_iff : l.successor b.hashables.qualifiedRoot = some r ↔
    l.blockGet (p.hash r.block) = some r ∧
      r.block.hashables.qualifiedRoot = b.hashables.qualifiedRoot := by
  unfold Ledger.successor
  dsimp only
  constructor
  · intro hr
    split at hr
    · cases hr
    · rename_i hne
      obtain ⟨a, e, c, hat, hroot, hsucc⟩ := (successorHash_cases H h b).resolve_left hne
      rw [hsucc] at hr
      have hget := blockGet_at H h.blocks hat
      cases hget.symm.trans hr
      exact ⟨hr, hroot⟩
  · rintro ⟨hget, hroot⟩
    obtain ⟨a, e, c, hat, hh⟩ := at_of_blockGet h.blocks hget
    have hself := blockGet_at H h.blocks hat
    rw [hh] at hself
    cases hself.symm.trans hget
    rw [← hroot, Entry.stored_block, successorHash_at H h hat, if_neg (Lattice.hash_ne_zero H hat)]
    exact hget

theorem not_competitor_of_stored (hb : known b) (hex : l.blockExists (p.hash b)) :
    ¬ l.Competitor p b r := by
  rintro ⟨hget, hroot, hne⟩
  obtain ⟨a, e, c, hat, hh⟩ := at_of_blockExists h.blocks hex
  have hq : e.block.hashables.qualifiedRoot = b.hashables.qualifiedRoot :=
    Hashables.qualifiedRoot_of_hashInput (H.collisionFree (L.known_at hat) hb hh)
  have hr := (successor_iff H h).2 ⟨hget, hroot⟩
  have he := (successor_iff H h (r := e.stored a c _) (b := b)).2 ⟨blockGet_at H h.blocks hat, hq⟩
  cases hr.symm.trans he
  exact hne hh

theorem competitor_unique {r' : StoredBlock} (hr : l.Competitor p b r) (hr' : l.Competitor p b r') :
    r = r' := by
  have hs := (successor_iff H h).2 ⟨hr.1, hr.2.1⟩
  have hs' := (successor_iff H h).2 ⟨hr'.1, hr'.2.1⟩
  exact Option.some.inj (hs.symm.trans hs')

theorem not_rivalConfirmed (hs : (l.successor b.hashables.qualifiedRoot).map (fun r =>
    l.blockConfirmed (p.hash r.block)) = some (some false)) : ¬ l.RivalConfirmed p b := by
  rintro ⟨r, ⟨hget, hroot, -⟩, hcem⟩
  rw [(successor_iff H h).2 ⟨hget, hroot⟩] at hs
  cases (Option.some.inj hs).symm.trans hcem

theorem replaceRival_of_none (hno : ∀ r, ¬ l.Competitor p b r) (fuel : Nat) :
    l.replaceRival p fuel b = some l := by
  unfold Ledger.replaceRival
  split
  · rename_i r hr
    obtain ⟨hget, hroot⟩ := (successor_iff H h).1 hr
    rw [if_neg fun hne => hno r ⟨hget, hroot, hne⟩]
  · rfl

theorem replaceRival_of_competitor (hr : l.Competitor p b r) (fuel : Nat) :
    l.replaceRival p fuel b = (Ledger.rollback p fuel l (p.hash r.block) []).map (·.2.1) := by
  unfold Ledger.replaceRival
  rw [(successor_iff H h).2 ⟨hr.1, hr.2.1⟩]
  exact if_pos hr.2.2

end Rival

/-! ## After the rollback -/

section Replace

variable (H : HashAssumptions p known) {l : Ledger}

variable (hl : Reached p known (NoForeignEpoch p) l) (hcl : l.CementedClosed p)
  (hf : l.blocks.keys.card < fuel)

include H hl hcl hf

theorem replaceRival_of_confirmed (hconf : l.RivalConfirmed p b) :
    l.replaceRival p fuel b = some l := by
  obtain ⟨L, hL⟩ := hl.holds H
  obtain ⟨r, hr, hcem⟩ := hconf
  rw [replaceRival_of_competitor H hL.represents hr,
    (rollback_scope H hl hcl (blockExists_of_blockGet hr.1) [] hf).1 hcem]
  rfl

theorem replaceRival_spec (hconf : ¬ l.RivalConfirmed p b) :
    ∃ l0, l.replaceRival p fuel b = some l0 ∧ Reached p known (NoForeignEpoch p) l0 ∧
      (∀ x, l0.blockExists x ↔ l.blockExists x ∧ ¬ l.RestsOnRival p b x) ∧
      ∀ x, l0.Stores p x ↔ l.Stores p x ∧ ¬ l.RestsOnRival p b (p.hash x) := by
  obtain ⟨L, hL⟩ := hl.holds H
  have h := hL.represents
  by_cases hr : ∃ r, l.Competitor p b r
  · obtain ⟨r, hr⟩ := hr
    -- the rival is the only one
    have hrests (x : BlockHash) : l.RestsOnRival p b x ↔ l.RestsOn p x (p.hash r.block) := by
      constructor
      · rintro ⟨r', hr', hx⟩
        rwa [competitor_unique H h hr hr']
      · exact fun hx => ⟨r, hr, hx⟩
    have hex := blockExists_of_blockGet hr.1
    obtain ⟨l0, removed, hrun, -, -, -, hleft, hbs⟩ :=
      (rollback_scope H hl hcl hex [] hf).2 fun hcem => hconf ⟨r, hr, hcem⟩
    refine ⟨l0, ?_, ?_, fun x => by rw [hrests]; exact hleft x, fun x => ?_⟩
    · rw [replaceRival_of_competitor H h hr, hrun]
      rfl
    · obtain ⟨l1, hgen, run⟩ := hl
      refine ⟨l1, hgen, run.tail (a := .rollback (p.hash r.block)) ⟨trivial, trivial⟩ ⟨fuel, ?_⟩⟩
      rw [Ledger.exec, if_pos hex, hrun]
      rfl
    · rw [hrests]
      constructor
      · rintro ⟨s, hget, rfl⟩
        have hx := blockExists_of_blockGet hget
        have hmap := hbs _ hx
        rw [hget] at hmap
        obtain ⟨s', hget', hs'⟩ := map_eq_some_iff.1 hmap.symm
        exact ⟨⟨s', hget', hs'⟩, ((hleft _).1 hx).2⟩
      · rintro ⟨⟨s, hget, rfl⟩, hnot⟩
        have hx := (hleft _).2 ⟨blockExists_of_blockGet hget, hnot⟩
        have hmap := hbs _ hx
        rw [hget] at hmap
        exact map_eq_some_iff.1 hmap
  · have hno : ∀ r, ¬ l.Competitor p b r := fun r hc => hr ⟨r, hc⟩
    have hrests (x : BlockHash) : ¬ l.RestsOnRival p b x := by
      rintro ⟨r, hc, -⟩
      exact hno r hc
    exact ⟨l, replaceRival_of_none H h hno fuel, hl, fun x => by simp [hrests],
      fun x => by simp [hrests]⟩

end Replace

/-! ## Processing the winner -/

section Winner

variable (H : HashAssumptions p known) {L1 : Lattice p known}
  {l l0 l1 l2 : Ledger} {fullSize : Nat}

include H in
theorem rejected_of_taken (h : Represents l L fun _ => 0) (hb : known b)
    (hfor : ¬ ForeignEpoch p l b) {r : ProcessReturn}
    (hproc : l.process p b .unknown = some (r, l2))
    (htaken : l.blockExists (p.hash b) ∨ ∃ r, l.Competitor p b r) :
    r.code ≠ .progress ∧ l2 = l := by
  rcases process_represents H h hb hproc with hno | ⟨-, hf | hpush⟩
  · exact hno
  · exact absurd hf hfor
  · obtain ⟨a, n, amount, epoch, hp, rfl, -⟩ := hpush
    exfalso
    rcases htaken with hex | ⟨r, hget, hroot, -⟩
    · obtain ⟨y, e, c, hat, hh⟩ := at_of_blockExists h.blocks hex
      exact hp.fresh hat hh
    · obtain ⟨y, e, c, hat, hh⟩ := at_of_blockGet h.blocks hget
      rw [← hh, blockGet_at H h.blocks hat] at hget
      cases hget
      obtain ⟨rfl, rfl⟩ := below_of_qualifiedRoot H hat hp.fits (suffix_refl _) hroot
      exact Chains.Grows.not_at_self _ hat

include H in
theorem accepted_of_valid (h : Represents l0 L fun _ => 0) (h1 : Represents l1 L1 fun _ => 0)
    (hb : known b) (hfor : ¬ ForeignEpoch p l1 b) {r : ProcessReturn}
    (hproc : l1.process p b .unknown = some (r, l2)) (hcode : r.code = .progress)
    (hsto : ∀ x, l1.Stores p x → l0.Stores p x) (hfresh : ¬ l0.blockExists (p.hash b))
    (hfree : ∀ r, ¬ l0.Competitor p b r) :
    ∃ r l', l0.process p b .unknown = some (r, l') ∧ r.code = .progress ∧
      ∀ x, l'.blockExists x ↔ x = p.hash b ∨ l0.blockExists x := by
  rcases process_represents H h1 hb hproc with ⟨hno, -⟩ | ⟨-, hf | hpush⟩
  · exact absurd hcode hno
  · exact absurd hf hfor
  obtain ⟨a, n, amount, epoch, hp, rfl, hg, -⟩ := hpush
  have hacc := process_checked H hp hg h1 r l2 hproc hcode
  have hw : L1.chain.Within L.chain := Chains.within_of_at fun y e c =>
    Lattice.at_of_blocks H fun hat =>
      (stores_iff H h.blocks _).1 (hsto _ ((stores_iff H h1.blocks _).2 ⟨_, _, _, hat, rfl⟩))
  have hnew {y e c} (hat : L.At y e c) : e.hash p ≠ n.hash p := fun heq => by
    have hex := blockExists_at H h.blocks hat
    rw [heq] at hex
    exact hfresh hex
  -- a block above the chain of the smaller ledger would have the qualified root
  have hc : L.chain a = L1.chain a := by
    by_contra hne
    obtain ⟨e, hat⟩ : ∃ e, L.At a e (L1.chain a) := by
      obtain ⟨t, ht⟩ := hw a
      rcases eq_nil_or_concat t with rfl | ⟨t, e, rfl⟩
      · exact absurd ht.symm hne
      · exact ⟨e, t, by rw [← ht]; simp⟩
    have hroot : e.block.hashables.qualifiedRoot = n.block.hashables.qualifiedRoot := by
      rw [qualifiedRoot_at H hat, hp.fits.qualifiedRoot (Lattice.headHash_chain H a).1]
    exact hfree (e.stored a _ _) ⟨blockGet_at H h.blocks hat, hroot, hnew hat⟩
  have hacc0 := hacc.mono H hw hc h1 h hnew
  obtain ⟨r, l', hproc, hcode, h', -⟩ := process_acceptable H h hacc0 .unknown
  refine ⟨r, l', hproc, hcode, fun x => ?_⟩
  rw [blockExists_iff H h'.blocks, blockExists_iff H h.blocks]
  exact (L.push_grows a n hacc0.pushable).exists_at_iff.trans (or_congr_left eq_comm)

namespace BlockProcessor

variable {s s' : BlockProcessor} {info : UncheckedInfo}

theorem processOne_ledger (h : processOne p fullSize s info = some s') :
    ∃ r, s.ledger.process p info.block info.verified = some (r, s'.ledger) := by
  obtain ⟨⟨r, l'⟩, hproc, h⟩ := bind_eq_some_iff.1 h
  refine ⟨r, hproc.trans ?_⟩
  dsimp only at h
  split at h
  · split at h
    · cases h
      rw [queueUnchecked_ledger]
    · cases h
  · cases h; rfl
  · obtain ⟨source, -, h⟩ := bind_eq_some_iff.1 h
    cases h; rfl
  · cases h; rfl

theorem processOne_returns (fullSize : Nat) (info : UncheckedInfo) {r : ProcessReturn}
    (hproc : s.ledger.process p info.block info.verified = some (r, l2)) (hacc : info.account = 0)
    (hsrc : r.code = .gapSource → (l2.blockSource info.block).isSome) :
    ∃ s', processOne p fullSize s info = some s' ∧ s'.ledger = l2 := by
  obtain ⟨s', hs'⟩ : ∃ s', processOne p fullSize s info = some s' := by
    unfold processOne
    rw [hproc]
    simp only [bind_eq_bind, bind_some]
    split
    · rw [if_pos (.inl hacc)]
      exact ⟨_, rfl⟩
    · exact ⟨_, rfl⟩
    · rename_i hgap
      obtain ⟨source, hsrc⟩ := isSome_iff_exists.1 (hsrc hgap)
      rw [hsrc]
      exact ⟨_, rfl⟩
    · exact ⟨_, rfl⟩
  obtain ⟨_, hproc'⟩ := processOne_ledger hs'
  exact ⟨s', hs', (Prod.mk.inj (Option.some.inj (hproc'.symm.trans hproc))).2⟩

end BlockProcessor

include H in
theorem blockSource_isSome (h : Represents l L fun _ => 0)
    (hprev : b.hashables.previous ≠ 0 → l.blockExists b.hashables.previous) :
    (l.blockSource b).isSome := by
  unfold Ledger.blockSource
  cases hb : b.hashables with
  | stateBlock acc prev rep bal link =>
    dsimp only
    split
    · rfl
    · rename_i hne
      rw [hb] at hprev
      obtain ⟨y, e, c, hat, hh⟩ := at_of_blockExists h.blocks (hprev hne)
      rw [show prev = e.hash p from hh.symm, balance_at H h.blocks hat]
      rfl
  | _ => rfl

include H in
theorem not_foreignEpoch_of_stores (h : Represents l L fun _ => 0)
    (h1 : Represents l1 L1 fun _ => 0) (hsto : ∀ x, l1.Stores p x → l.Stores p x)
    (hown : b.hashables.type = .state → b.hashables.previous ≠ 0 →
      l.account b.hashables.previous = some b.hashables.account) : ¬ ForeignEpoch p l1 b := by
  intro hf
  obtain ⟨y, x, d, hat, hh⟩ := at_of_blockExists h1.blocks hf.2.2.2.1
  have hat' : L.At y x d := Lattice.at_of_blocks H
    (fun hat => (stores_iff H h.blocks _).1
      (hsto _ ((stores_iff H h1.blocks _).2 ⟨_, _, _, hat, rfl⟩))) hat
  refine not_foreignEpoch_of_own H h1 (fun ht hne => ?_) hf
  have hacc := hown ht hne
  rw [← hh, account_at H h.blocks hat'] at hacc
  rw [← hh, account_at H h1.blocks hat, hacc]

theorem replaced_of_stored (hex : l.blockExists (p.hash b)) (hno : ∀ r, ¬ l.Competitor p b r) :
    Replaced p l b l where
  stored := iff_of_true hex (.inl hex)
  removed := fun _ x hx => iff_of_false (by simp [hx]) fun ⟨r, hr, _⟩ => hno r hr
  added := fun _ hx => .inl hx
  unchanged := fun _ => rfl

theorem replaced_of_confirmed (hex : ¬ l.blockExists (p.hash b)) (hconf : l.RivalConfirmed p b) :
    Replaced p l b l where
  stored := iff_of_false hex (not_or.2 ⟨hex, not_not.2 hconf⟩)
  removed := fun hex' => absurd hex' hex
  added := fun _ hx => .inl hx
  unchanged := fun _ => rfl

variable {s : BlockProcessor} (hl : Reached p known (NoForeignEpoch p) s.ledger) (hb : known b)
  (hown : b.hashables.type = .state → b.hashables.previous ≠ 0 →
    s.ledger.account b.hashables.previous = some b.hashables.account)

include H hl hb hown

theorem processForced_of_taken (fullSize : Nat) (hkeep : s.ledger.replaceRival p fuel b = some s.ledger)
    (htaken : s.ledger.blockExists (p.hash b) ∨ ∃ r, s.ledger.Competitor p b r) :
    ∃ s', s.processForced p fullSize fuel b = some s' ∧ s'.ledger = s.ledger := by
  obtain ⟨L, hL⟩ := hl.holds H
  have h := hL.represents
  obtain ⟨r, l2, hproc⟩ := process_returns H h hb .unknown
  obtain ⟨-, rfl⟩ := rejected_of_taken H h hb (not_foreignEpoch_of_own H h hown) hproc htaken
  -- the block at its place has the same previous block
  obtain ⟨y, e, c, hat, hroot⟩ : ∃ y e c, L.At y e c ∧
      e.block.hashables.qualifiedRoot = b.hashables.qualifiedRoot := by
    rcases htaken with hex | ⟨r, hget, hroot, -⟩
    · obtain ⟨y, e, c, hat, hh⟩ := at_of_blockExists h.blocks hex
      exact ⟨y, e, c, hat, Hashables.qualifiedRoot_of_hashInput (H.collisionFree (L.known_at hat) hb hh)⟩
    · obtain ⟨y, e, c, hat, hh⟩ := at_of_blockGet h.blocks hget
      rw [← hh, blockGet_at H h.blocks hat] at hget
      cases hget
      exact ⟨y, e, c, hat, hroot⟩
  have hsrc := blockSource_isSome H h (b := b) fun hne => by
    have hprev : headHash p c = b.hashables.previous := by
      rw [qualifiedRoot_at H hat] at hroot
      exact congrArg QualifiedRoot.previous hroot
    cases c with
    | nil => exact absurd hprev.symm hne
    | cons x c => exact hprev ▸ blockExists_at H h.blocks hat.below
  rw [BlockProcessor.processForced, hkeep]
  exact BlockProcessor.processOne_returns fullSize _ hproc rfl fun _ => hsrc

/-- A forced block replaces its rival, as it should, exactly if it is valid without the rival or
there is nothing to do: it is stored already, or the rival is cemented. -/
theorem forced_replaces_iff (fullSize : Nat) (hcl : s.ledger.CementedClosed p)
    (hf : s.ledger.blocks.keys.card < fuel) :
    (∃ s', s.processForced p fullSize fuel b = some s' ∧ Replaced p s.ledger b s'.ledger) ↔
      s.ledger.blockExists (p.hash b) ∨ s.ledger.RivalConfirmed p b ∨
        s.ledger.ValidWithoutRival p known b := by
  obtain ⟨L, hL⟩ := hl.holds H
  have h := hL.represents
  by_cases hex : s.ledger.blockExists (p.hash b)
  · have hno (r : StoredBlock) := not_competitor_of_stored H h hb hex (r := r)
    refine iff_of_true ?_ (.inl hex)
    obtain ⟨s', hrun, heq⟩ := processForced_of_taken H hl hb hown fullSize
      (replaceRival_of_none H h hno fuel) (.inl hex)
    exact ⟨s', hrun, by rw [heq]; exact replaced_of_stored hex hno⟩
  by_cases hconf : s.ledger.RivalConfirmed p b
  · refine iff_of_true ?_ (.inr (.inl hconf))
    obtain ⟨r, hr, -⟩ := id hconf
    obtain ⟨s', hrun, heq⟩ := processForced_of_taken H hl hb hown fullSize
      (replaceRival_of_confirmed H hl hcl hf hconf) (.inr ⟨r, hr⟩)
    exact ⟨s', hrun, by rw [heq]; exact replaced_of_confirmed hex hconf⟩
  obtain ⟨l0, hrival, hl0, hleft, hsto⟩ := replaceRival_spec H hl hcl hf hconf
  have hex0 : ¬ l0.blockExists (p.hash b) := fun hx => hex ((hleft _).1 hx).1
  constructor
  · rintro ⟨s', hrun, hrep⟩
    obtain ⟨l0', hrival', hrun⟩ := bind_eq_some_iff.1 hrun
    cases hrival.symm.trans hrival'
    obtain ⟨r, hproc⟩ := BlockProcessor.processOne_ledger hrun
    refine .inr (.inr ⟨l0, r, s'.ledger, hl0, fun x => (hsto x).1, hproc, ?_⟩)
    -- a block that is rejected is not there in the end
    by_contra hcode
    obtain ⟨L0, hL0⟩ := hl0.holds H
    rcases process_represents H hL0.represents hb hproc with ⟨-, heq⟩ | ⟨hyes, -⟩
    · exact hex0 (heq ▸ hrep.stored.2 (.inr hconf))
    · exact hcode hyes
  · rintro (hex' | hconf' | ⟨l1, r, l2, hl1, hsub, hproc, hcode⟩)
    · exact absurd hex' hex
    · exact absurd hconf' hconf
    obtain ⟨L0, hL0⟩ := hl0.holds H
    obtain ⟨L1, hL1⟩ := hl1.holds H
    have hfor := not_foreignEpoch_of_stores H h hL1.represents (fun x hx => (hsub x hx).1) hown
    -- the rival itself is gone, and no other block has the qualified root
    have hfree (r : StoredBlock) : ¬ l0.Competitor p b r := by
      rintro ⟨hget, hroot, hne⟩
      have hst := (hsto r.block).1 ⟨r, hget, rfl⟩
      obtain ⟨⟨r', hget', hblk⟩, hnot⟩ := hst
      rw [← hblk] at hget' hroot hne hnot
      exact hnot ⟨r', ⟨hget', hroot, hne⟩, .refl⟩
    obtain ⟨r0, l', hproc0, hcode0, hbs⟩ := accepted_of_valid H hL0.represents hL1.represents hb
      hfor hproc hcode (fun x hx => (hsto x).2 (hsub x hx)) hex0 hfree
    obtain ⟨s', hs', hlg⟩ := BlockProcessor.processOne_returns fullSize { block := b }
      (s := { s with ledger := l0 }) hproc0 rfl fun hgap => by cases hcode0.symm.trans hgap
    refine ⟨s', ?_, hlg ▸ ⟨?_, fun _ x hx => ?_, fun x hx => ?_, fun hc => absurd hc hconf⟩⟩
    · unfold BlockProcessor.processForced
      rw [hrival]
      exact hs'
    · exact iff_of_true ((hbs _).2 (.inl rfl)) (.inr hconf)
    · have hne : x ≠ p.hash b := fun heq => hex (heq ▸ hx)
      rw [← Bool.not_eq_true, hbs, hleft]
      simp [hne, hx]
    · rcases (hbs x).1 hx with hx | hx
      · exact .inr hx
      · exact .inl ((hleft x).1 hx).1

end Winner

/-! ## Two winners -/

namespace Sample

def cementedBlocks : List Block := [params.genesisBlock, sendZero, openB, sendB, sendA, epochA]

def cementedDependencies : List (BlockHash × BlockHash) :=
  [(0, 0), (hash params.genesisBlock, 0), (hash sendZero, 0), (hash sendZero, 0), (hash sendB, 0),
    (hash openB, 0)]

/-- An epoch block of A is put on the newest block of B, and everything is cemented. -/
def cementsAll : List Action :=
  opens ++ [put sendA, put epochA, .cement params.genesisAccount ⟨4, hash sendA⟩,
    .cement accountB ⟨1, hash openB⟩, .cement accountA ⟨1, hash epochA⟩]

end Sample

open Sample

/-- The receive block of B, the send to A that follows it and the block that opens A with it give way
to a change block. -/
theorem forced_replaces_pays :
    ∃ l s', run pays = some l ∧
      BlockProcessor.processForced params 10 20 { ledger := l } changeB = some s' ∧
      Replaced params l changeB s'.ledger := by
  obtain ⟨l, hl, hf, hgen, hrival, hproc⟩ : ∃ l ∈ run pays,
    l.blocks.keys.card < 20 ∧ GenesisCemented l ∧
    ((l.successor changeB.hashables.qualifiedRoot).map fun r =>
      l.blockConfirmed (params.hash r.block)) = some (some false) ∧
    ((l.replaceRival params 20 changeB).bind fun l0 =>
      (l0.process params changeB .unknown).map (·.1.code)) = some .progress := by
    decide +kernel
  have hrch : Reached params (· ∈ blocks) (NoForeignEpoch params) l :=
    reached_of_no_epochLink (by decide +kernel) hl
  have hcl := hgen.closed
  obtain ⟨L, hL⟩ := hrch.holds hashAssumptions
  -- the receive block is the rival
  have hconf := not_rivalConfirmed hashAssumptions hL.represents hrival
  obtain ⟨l0, hl0, hrch0, -, hsto⟩ :=
    replaceRival_spec hashAssumptions hrch hcl hf hconf
  rw [hl0, bind_some] at hproc
  obtain ⟨⟨r, l2⟩, hproc, hcode⟩ := map_eq_some_iff.1 hproc
  obtain ⟨s', hrun, hrep⟩ := (forced_replaces_iff hashAssumptions (s := { ledger := l })
    hrch (b := changeB) (by decide +kernel) (fun ht => absurd ht (by decide)) 10 hcl hf).2
    (.inr (.inr ⟨l0, r, l2, hrch0, fun x => (hsto x).1, hproc, hcode⟩))
  exact ⟨l, s', hl, hrun, hrep⟩

theorem cementedClosed_of_all {l : Ledger} {blocks : List Block}
    {dependencies : List (BlockHash × BlockHash)}
    (hkeys : l.blocks.keys.image (·.2) ⊆ (blocks.map p.hash).toFinset)
    (hall : ∀ b ∈ blocks, l.Confirmed (p.hash b))
    (hdeps : blocks.map (fun b => (l.blockGet (p.hash b)).map (Ledger.dependentBlocks p)) =
      dependencies.map some)
    (hin : (dependencies.flatMap fun d => [d.1, d.2]).toFinset ⊆ (0 :: blocks.map p.hash).toFinset) :
    l.CementedClosed p := by
  rintro h' h ⟨s, hget, hne, hdep⟩ -
  have hmem := hkeys (Finset.mem_image.2 (mem_keys_of_blockGet hget))
  obtain ⟨b, hb, rfl⟩ := List.mem_map.1 (List.mem_toFinset.1 hmem)
  have hd : some (Ledger.dependentBlocks p s) ∈ dependencies.map some := by
    rw [← hdeps]
    exact List.mem_map.2 ⟨b, hb, by rw [hget]; rfl⟩
  obtain ⟨d, hd, heq⟩ := List.mem_map.1 hd
  cases heq
  have hlist : h ∈ [(Ledger.dependentBlocks p s).1, (Ledger.dependentBlocks p s).2] := by
    rcases hdep with rfl | rfl <;> simp
  have hmem := List.mem_toFinset.1 (hin (List.mem_toFinset.2 (mem_flatMap.2 ⟨_, hd, hlist⟩)))
  obtain ⟨b', hb', rfl⟩ := List.mem_map.1 ((mem_cons.1 hmem).resolve_left hne)
  exact hall b' hb'

/-- The epoch block of A stands on the open block of B and is cemented with everything else. It has
the qualified root of the receive block of B, which is put in the ledger all the same. -/
theorem forced_past_cemented :
    ∃ l r s', Reached params (· ∈ blocks) (fun _ _ => True) l ∧
      l.CementedClosed params ∧
      Signed params accountB receiveB ∧
      params.workThreshold ⟨.epoch0, false, true, false⟩ ≤ params.difficulty receiveB ∧
      l.account receiveB.hashables.previous = some accountB ∧
      l.blockExists (Sample.hash sendB) ∧
      ¬ l.blockExists (Sample.hash receiveB) ∧
      l.Competitor params receiveB r ∧ l.Confirmed (Sample.hash r.block) ∧
      BlockProcessor.processForced params 10 20 { ledger := l } receiveB = some s' ∧
      s'.ledger.blockExists (Sample.hash receiveB) := by
  obtain ⟨l, hl, hkeys, hall, hdeps, ⟨r, -, hcomp, hconf⟩, hacc, hsrc, hnew, s', hs', hex⟩ :
    ∃ l ∈ run cementsAll,
    l.blocks.keys.image (·.2) ⊆ (cementedBlocks.map params.hash).toFinset ∧
    (cementedBlocks.map fun b => l.blockConfirmed (params.hash b)) = List.replicate 6 (some true) ∧
    (cementedBlocks.map fun b =>
      (l.blockGet (params.hash b)).map (Ledger.dependentBlocks params)) =
      cementedDependencies.map some ∧
    (∃ r ∈ l.successor receiveB.hashables.qualifiedRoot,
      (l.blockGet (params.hash r.block) = some r ∧
        r.block.hashables.qualifiedRoot = receiveB.hashables.qualifiedRoot ∧
        params.hash r.block ≠ params.hash receiveB) ∧
      l.blockConfirmed (Sample.hash r.block) = some true) ∧
    l.account receiveB.hashables.previous = some accountB ∧
    l.blockExists (Sample.hash sendB) ∧ ¬ l.blockExists (Sample.hash receiveB) ∧
    ∃ s' ∈ BlockProcessor.processForced params 10 20 { ledger := l } receiveB,
      s'.ledger.blockExists (Sample.hash receiveB) := by decide +kernel
  have hin : (cementedDependencies.flatMap fun d => [d.1, d.2]).toFinset ⊆
      (0 :: cementedBlocks.map params.hash).toFinset := by decide +kernel
  have hcl := cementedClosed_of_all hkeys (map_eq_replicate_iff.1 hall) hdeps hin
  refine ⟨l, r, s', reached_of_execAll (fun action ha => ⟨?_, fun _ => trivial⟩) hl, hcl,
    rfl, by decide, hacc, hsrc, hnew, hcomp, hconf, hs', hex⟩
  exact (show ∀ action ∈ cementsAll, action.Given (· ∈ blocks) by decide +kernel)
    action ha

end Futurehead
