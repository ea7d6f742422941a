import Futurehead.Ledger.Checked
import Futurehead.Processing.Signatures

/-!
# A valid block in another ledger

A block that one ledger accepts is given to another ledger, with any tag. The chains of both ledgers
are part of one lattice.
-/

namespace Futurehead

open Bool Ledger Futurehead.Lattice

variable {b : Block} {p : Params} {known : Block → Prop} {shift : Account → Amount} {a : Account}
  {e : Entry} {amount : Amount} {epoch : Epoch} {s : BlockHash}

/-- An epoch block that opens an account for which no entry is pending. -/
def Ledger.Early (p : Params) (l : Ledger) (b : Block) : Prop :=
  ∃ account representative link, b.hashables = .stateBlock account 0 representative 0 link ∧
    p.isEpochLink link ∧ l.accountGet account = none ∧ l.pendingAny account = false

/-- A block that is queued again does not go back to the verification thread. -/
def Settles (b : Block) (verified : SignatureVerification) : Prop :=
  b.hashables.type = BlockType.open ∨ b.hashables.type = .state → verified ≠ .unknown

section

variable (H : HashAssumptions p known) {L0 L : Lattice p known}
  {l0 l : Ledger}
  {r : ProcessReturn} (tag : SignatureVerification)

theorem process_of_visit (h : l.visit p b tag = some (r, l)) (hcode : r.code ≠ .progress) :
    l.process p b tag = some (r, l) := by
  rw [Ledger.process, h]
  exact if_neg hcode

theorem process_early (h : l.Early p b) :
    Returns (l.process p b tag) fun r _ =>
      r.code ≠ .progress ∧ r.code ≠ .gapPrevious ∧ r.code ≠ .gapSource := by
  obtain ⟨acc, rep, link, hb, hlink, hnone, hpnd⟩ := h
  refine .process ?_ fun _ _ _ hr => hr
  rw [Ledger.visit, hb]
  dsimp only
  rw [Ledger.stateBlock, if_pos hlink, validateEpochBlock_eq (.inl rfl) rfl]
  show Returns (l.epochBlockImpl p { verified := tag } b acc 0 rep 0 link) _
  refine .bind fun _ _ => ?_
  refine .require (fun _ => by simp) fun _ => ?_
  refine .require (fun _ => by simp) fun _ => ?_
  refine .require (fun _ => by simp) fun _ => ?_
  rw [hnone]
  refine .require (fun _ => by simp) fun _ => ?_
  refine .require (fun _ => by simp) fun hyes => ?_
  rw [hpnd] at hyes
  cases hyes

variable (ha : Acceptable l0 L0 a e amount epoch)
  (hold : ∀ type, l.blockExistsType type (p.hash e.block) = false)
include ha hold

theorem Acceptable.visit_gapPrevious (hne : e.block.hashables.previous ≠ 0)
    (hmiss : l.blockExists e.block.hashables.previous = false) :
    ∃ r, l.visit p e.block tag = some (r, l) ∧ r.code = .gapPrevious ∧
      Settles e.block r.verified := by
  have hx := ha.pushable.fits
  have hget : l.blockGet e.block.hashables.previous = none := by
    rw [← Option.not_isSome_iff_eq_none, blockGet_isSome, hmiss]
    exact Bool.false_ne_true
  unfold Ledger.visit
  cases hb : e.block.hashables with
  | openBlock => rw [hb] at hne; exact absurd rfl hne
  | stateBlock acc previous rep bal link =>
    obtain rfl := hx.account_state hb
    rw [hb] at hne hmiss
    by_cases hlink : p.isEpochLink link
    · -- the signature is looked at first: the account or the signer of the epoch has signed
      obtain ⟨i, hi⟩ := exists_epochInfo hlink
      have hsigned := ha.signed
      rw [Entry.signer, hb, Hashables.link, hi] at hsigned
      by_cases htag : tag = .unknown
      · subst htag
        cases hsig : p.validateMessage acc (p.hash e.block) e.block.signature with
        | false =>
          refine ⟨{ code := .gapPrevious, verified := .valid }, ?_, rfl, by simp [Settles]⟩
          simp_all [Ledger.stateBlock, validateEpochBlock, Hashables.previous]
        | true =>
          have hd : e.details.isEpoch = true := by
            by_contra hd
            rw [ha.signed_state (eq_false_of_not_eq_true hd)] at hsig
            cases hsig
          rw [if_pos hd] at hsigned
          have hsigned : p.validateMessage i.signer (p.hash e.block) e.block.signature = false := hsigned
          refine ⟨{ code := .gapPrevious, verified := .validEpoch }, ?_, rfl, by simp [Settles]⟩
          simp_all [Ledger.stateBlock, validateEpochBlock, Hashables.previous]
      · refine ⟨{ code := .gapPrevious, verified := tag }, ?_, rfl, fun _ => htag⟩
        simp_all [Ledger.stateBlock, validateEpochBlock, Hashables.previous]
    · have hsigned := ha.signed_state (hx.isEpoch_of_link hb (eq_false_of_not_eq_true hlink))
      refine ⟨{ verified := .valid, code := .gapPrevious, amount := bal,
                previousBalance := ((l.accountGet acc).getD {}).balance }, ?_, rfl, by simp [Settles]⟩
      have hacc := hx.account_ne_zero
      cases hinfo : l.accountGet acc <;>
        simp_all [Ledger.stateBlock, stateBlockImpl, Ledger.require, Hashables.previous]
  | _ =>
    rw [hb] at hget
    refine ⟨{ verified := tag, code := .gapPrevious }, ?_, rfl, by simp [Settles, hb, Hashables.type]⟩
    simp_all [Ledger.sendBlock, Ledger.receiveBlock, Ledger.changeBlock, Ledger.require,
      Hashables.previous]

omit ha in
include H in
theorem Extends.visit_gapSource (h : Represents l L shift)
    (hx : Extends p a (L.chain a) e amount epoch) (hsigned : p.validateMessage a (e.hash p) e.block.signature = false)
    (hkind : e.kind p (L.chain a) = .receive s) (hmiss : l.sourceExists s = false) :
    ∃ r, l.visit p e.block tag = some (r, l) ∧ r.code = .gapSource ∧
      Settles e.block r.verified := by
  unfold Ledger.visit
  cases hb : e.block.hashables with
  | sendBlock | changeBlock => rw [Entry.kind, hb] at hkind; cases hkind
  | receiveBlock previous source =>
    rw [Entry.kind, hb] at hkind
    cases hkind
    have ht : e.type = .receive := by rw [Entry.type, hb]; rfl
    have hon : OnFrontier p l e.block tag :=
      hx.onFrontier H h (by rw [ht]; decide) (by rw [ht]; decide) (hold _) hsigned
    obtain ⟨-, ⟨prev, hblw, hval⟩, hfro, hchk, -⟩ := hon
    rw [hb] at hblw hval hfro hchk
    refine ⟨{ verified := .valid, code := .gapSource }, ?_, rfl, by simp [Settles]⟩
    simp_all [Ledger.receiveBlock, Ledger.require, Hashables.previous, Checked]
  | openBlock source rep acc =>
    have hacc := hx.account (.inl (by rw [Entry.type, hb]; rfl))
    rw [Entry.kind, hb, Hashables.kind] at hkind
    split_ifs at hkind
    cases hkind
    rw [hb] at hacc
    refine ⟨{ verified := .valid, code := .gapSource }, ?_, rfl, by simp [Settles]⟩
    simp_all [Ledger.openBlock, Ledger.require, Hashables.account, Entry.hash]
  | stateBlock acc previous rep bal link =>
    obtain rfl := hx.account_state hb
    rw [kind_state hb] at hkind
    split_ifs at hkind with hlt hlink
    cases hkind
    obtain ⟨hzero, hlink⟩ := not_or.1 hlink
    have hpl := hx.statePlace H h hb fun _ => hzero
    have hacc := hx.account_ne_zero
    have hlt : ¬ bal < (chainInfo p (L.chain acc)).balance := hlt
    generalize chainInfo p (L.chain acc) = info at hpl hlt
    refine ⟨{ stateReturn info bal false with code := .gapSource }, ?_, rfl,
      by simp [Settles, stateReturn]⟩
    dsimp only
    rw [stateBlock_eq hpl.below fun hyes => absurd hyes hlink, stateBlockImpl]
    cases hpl <;>
      simp_all [stateLink, Ledger.require, stateReturn, Entry.hash, bne, beq_eq_decide,
        -BitVec.not_lt]

theorem Acceptable.visit_early (hd : e.details.isEpoch = true) (hnil : L0.chain a = [])
    (hnone : l.accountGet a = none) (hpnd : l.pendingAny a = false) :
    l.Early p e.block ∧ ∃ r, l.visit p e.block tag = some (r, l) ∧ r.code = .blockPosition := by
  have hx := ha.pushable.fits
  have hrep := ha.representative hd
  have hsigned := ha.signed
  obtain ⟨acc, previous, rep, bal, link, i, hb, hk, hi, -⟩ :=
    chainDetails_isEpoch (hx.details ▸ hd)
  obtain rfl := hx.account_state hb
  obtain rfl : previous = 0 := by rw [hx.previous_state hb, hnil]; rfl
  obtain rfl : bal = 0 := by rw [hx.balance_neutral hb hk, hnil]; rfl
  obtain rfl : rep = 0 := by rw [hb, hnil] at hrep; exact hrep
  rw [Entry.signer, if_pos hd, hb, Hashables.link, hi] at hsigned
  have hsigned : p.validateMessage i.signer (p.hash e.block) e.block.signature = false := hsigned
  have hlink := isEpochLink_of_epochInfo hi
  have hacc := hx.account_ne_zero
  refine ⟨⟨acc, 0, link, hb, hlink, hnone, hpnd⟩,
    { verified := .validEpoch, code := .blockPosition }, ?_, rfl⟩
  rw [Ledger.visit, hb]
  dsimp only
  rw [Ledger.stateBlock, if_pos hlink, validateEpochBlock_eq (.inl rfl) rfl, beq_self_eq_true]
  simp_all [epochBlockImpl, Ledger.require]

end

/-! ## On the chains of one lattice -/

section

variable (H : HashAssumptions p known) {τ L0 L : Lattice p known}
  {l0 l : Ledger}

/-- The block was accepted by a ledger whose chains are part of the lattice, at its place there. -/
structure Admissible (τ : Lattice p known) (b : Block) : Prop where
  accepted : ∃ (l0 : Ledger) (L0 : Lattice p known) (a : Account) (e : Entry),
    Represents l0 L0 (fun _ => 0) ∧ L0.chain.Within τ.chain ∧ τ.At a e (L0.chain a) ∧ e.block = b ∧
      ¬ ForeignEpoch p l0 b ∧ (l0.process p b .unknown).map (·.1.code) = some .progress

/-- The block waits for `m`, which comes before it in the lattice and is not stored. -/
structure Awaits (τ : Lattice p known) (l : Ledger) (b : Block) (m : BlockHash) : Prop where
  block : ∃ a x d, τ.At a x d ∧ x.hash p = m
  rank : τ.rank m < τ.rank (p.hash b)
  missing : l.blockExists m = false

/-- What happens to an admissible block in a ledger whose chains are part of the lattice. -/
inductive Fate (τ : Lattice p known) (l : Ledger) (b : Block) (r : ProcessReturn) (l' : Ledger) :
    Prop
  | accepted (code : r.code = .progress)
      (lattice : ∃ L' : Lattice p known, Represents l' L' (fun _ => 0) ∧ L'.chain.Within τ.chain)
      (stores : ∀ b', l'.Stores p b' ↔ b' = b ∨ l.Stores p b')
  | gapPrevious (code : r.code = .gapPrevious) (same : l' = l)
      (awaits : Awaits τ l b b.hashables.previous) (tag : Settles b r.verified)
  | gapSource (s : BlockHash) (code : r.code = .gapSource) (same : l' = l)
      (source : l.blockSource b = some s) (awaits : Awaits τ l b s) (tag : Settles b r.verified)
  | early (code : r.code = .blockPosition) (same : l' = l) (early : l.Early p b)

include H in
theorem Lattice.push_within (w : L.chain.Within τ.chain) {y : Account} {n : Entry} {c : List Entry}
    (hp : L.Pushable y n amount epoch) (hat : τ.At a e c) (hb : n.block = e.block) :
    (L.push y n hp).chain.Within τ.chain := by
  refine Chains.within_of_at fun _ _ _ hpos => at_of_blocks H (fun hpos => ?_) hpos
  rcases (L.push_grows y n hp).at_iff.1 hpos with ⟨-, rfl, -⟩ | hold
  · exact ⟨a, e, c, hat, hb.symm⟩
  · exact ⟨_, _, _, w.at hold, rfl⟩

include H in
theorem acceptable_of_accepted (h0 : Represents l0 L0 shift) (w0 : L0.chain.Within τ.chain)
    (hat : τ.At a e (L0.chain a)) (hkn : known e.block) (hfor : ¬ ForeignEpoch p l0 e.block)
    (hcode : (l0.process p e.block .unknown).map (·.1.code) = some .progress) :
    ∃ amount epoch, Acceptable l0 L0 a e amount epoch := by
  obtain ⟨⟨r, l'⟩, hproc, hcode'⟩ := Option.map_eq_some_iff.1 hcode
  rcases process_represents H h0 hkn hproc with ⟨hno, -⟩ | ⟨-, hf | hyes⟩
  · exact absurd hcode' hno
  · exact absurd hf hfor
  · obtain ⟨y, n, amount, epoch, hp, hn, hg, -⟩ := hyes
    have hnew := (push_within H w0 hp hat hn).at (L0.push_grows y n hp).at_new
    obtain ⟨rfl, rfl, -⟩ := at_unique H hnew hat (congrArg p.hash hn)
    exact ⟨amount, epoch, process_checked H hp hg h0 r l' hproc hcode'⟩

section

variable (h : Represents l L shift) (w0 : L0.chain.Within τ.chain) (w : L.chain.Within τ.chain)
  (hat : τ.At a e (L0.chain a)) (hnew : ¬ L.At a e (L0.chain a))

include hat hnew in
theorem chain_eq_below (hwithin : L.chain a <:+ τ.chain a) (hblw : L0.chain a <:+ L.chain a) :
    L.chain a = L0.chain a := by
  refine (List.IsSuffix.eq_of_length_le hblw ?_).symm
  by_contra hlt
  exact hnew (List.suffix_of_suffix_length_le hat hwithin (by simp; omega))

include H h w hat hnew

theorem not_stored (type : BlockType) : l.blockExistsType type (e.hash p) = false := by
  by_contra hex
  obtain ⟨y, x, d, hx, hkey⟩ := at_of_blockExistsType h.blocks (eq_true_of_not_eq_false hex)
  obtain ⟨rfl, rfl, rfl⟩ := at_unique H hat (w.at hx) (congrArg Prod.snd hkey)
  exact hnew hx

theorem below_or_missing : L.chain a = L0.chain a ∨
    e.block.hashables.previous ≠ 0 ∧ Awaits τ l e.block e.block.hashables.previous := by
  by_cases hblw : L0.chain a <:+ L.chain a
  · exact .inl (chain_eq_below hat hnew (w a) hblw)
  · right
    rw [previous_at hat]
    cases hc : L0.chain a with
    | nil => rw [hc] at hblw; exact absurd List.nil_suffix hblw
    | cons x c =>
      rw [hc] at hat hblw
      refine ⟨hash_ne_zero H hat.below, ⟨a, x, c, hat.below, rfl⟩, τ.rank_previous hat, ?_⟩
      by_contra hex
      obtain ⟨y, x', d, hx', hh⟩ := at_of_blockExists h.blocks (eq_true_of_not_eq_false hex)
      obtain ⟨rfl, rfl, rfl⟩ := at_unique H (w.at hx') hat.below hh
      exact hblw hx'

include w0

theorem sends_of_source (hkind : e.kind p (L0.chain a) = .receive s)
    (hs : L0.Sends s a amount epoch) (hst : l.blockExists s) :
    L.Sends s a amount epoch ∧ ¬ L.Received s := by
  obtain ⟨y, x, d, hx, rfl, hsend⟩ := hs
  obtain ⟨y', x', d', hx', hh⟩ := at_of_blockExists h.blocks hst
  obtain ⟨rfl, rfl, rfl⟩ := at_unique H (w.at hx') (w0.at hx) hh
  refine ⟨⟨y', x', d', hx', rfl, hsend⟩, ?_⟩
  rintro ⟨z, n, c, hz, hkz⟩
  obtain ⟨rfl, rfl, rfl⟩ := τ.received_once (w.at hz) hat hkz hkind
  exact hnew hz

end

include H

theorem blockSource_of_kind (h : Represents l L shift) (hx : Extends p a (L.chain a) e amount epoch)
    (hkind : e.kind p (L.chain a) = .receive s) : l.blockSource e.block = some s := by
  unfold blockSource
  cases hb : e.block.hashables with
  | stateBlock acc previous rep bal link =>
    rw [kind_state hb] at hkind
    split_ifs at hkind with hlt
    cases hkind
    dsimp only
    split
    · rfl
    · rw [hx.previous_state hb, balance_headHash H h.blocks]
      exact congrArg some (if_neg hlt)
  | openBlock =>
    rw [Entry.kind, hb, Hashables.kind] at hkind
    split_ifs at hkind
    cases hkind
    rfl
  | _ =>
    rw [Entry.kind, hb] at hkind
    cases hkind
    try rfl

theorem Admissible.fate (hadm : Admissible τ b) (w : L.chain.Within τ.chain)
    (h : Represents l L fun _ => 0) (hkn : known b) (hnew : ¬ l.Stores p b)
    (tag : SignatureVerification) : ∃ r l', l.process p b tag = some (r, l') ∧ Fate τ l b r l' := by
  obtain ⟨l0, L0, a, e, h0, w0, hat, rfl, hfor, hcode⟩ := hadm.accepted
  obtain ⟨amount, epoch, ha⟩ := acceptable_of_accepted H h0 w0 hat hkn hfor hcode
  have hnew : ¬ L.At a e (L0.chain a) := fun hpos =>
    hnew ((stores_iff H h.blocks _).2 ⟨a, e, _, hpos, rfl⟩)
  have hold := not_stored H h w hat hnew
  rcases below_or_missing H h w hat hnew with hc | ⟨hne, hawaits⟩
  swap
  · obtain ⟨r, hvis, hcode, htag⟩ := ha.visit_gapPrevious tag hold hne hawaits.missing
    exact ⟨r, l, process_of_visit tag hvis (by simp [hcode]), .gapPrevious hcode rfl hawaits htag⟩
  have hx := ha.pushable.fits
  by_cases hsrc : ∃ s, e.kind p (L0.chain a) = .receive s ∧ l.blockExists s = false
  · obtain ⟨s, hkind, hmiss⟩ := hsrc
    have hd : e.details.isEpoch = false := by
      by_contra hd
      obtain ⟨_, _, _, _, _, _, -, hk, -⟩ :=
        chainDetails_isEpoch (hx.details ▸ eq_true_of_not_eq_false hd)
      cases hkind.symm.trans hk
    have hsourceExists : l.sourceExists s = false := by
      simp_all [Ledger.blockExists, sourceExists]
    rw [← hc] at hx
    obtain ⟨⟨y, x, d, hpos, rfl, -⟩, -⟩ := ha.pushable.source s hkind
    have hkind' := hc.symm ▸ hkind
    obtain ⟨r, hvis, hcode, htag⟩ :=
      hx.visit_gapSource H tag hold h (ha.signed_state hd) hkind' hsourceExists
    exact ⟨r, l, process_of_visit tag hvis (by simp [hcode]), .gapSource _ hcode rfl
      (blockSource_of_kind H h hx hkind') ⟨⟨y, x, d, w0.at hpos, rfl⟩, τ.rank_source hat hkind, hmiss⟩
      htag⟩
  by_cases hearly : e.details.isEpoch = true ∧ L0.chain a = [] ∧ l.pendingAny a = false
  · obtain ⟨hd, hnil, hpnd⟩ := hearly
    obtain ⟨hearly, r, hvis, hcode⟩ := ha.visit_early tag hold hd hnil
      (by rw [accountGet_chain h.accounts, hc, hnil]; rfl) hpnd
    exact ⟨r, l, process_of_visit tag hvis (by simp [hcode]), .early hcode rfl hearly⟩
  -- nothing is missing
  have ha' : Acceptable l L a e amount epoch := by
    refine ha.of_chain hc (fun hpos heq => ?_) (fun s hk => ?_) fun hd hnil => ?_
    · obtain ⟨rfl, rfl, rfl⟩ := at_unique H (w.at hpos) hat heq
      exact hnew hpos
    · refine sends_of_source H h w0 w hat hnew hk (ha.pushable.source s hk).1 ?_
      exact eq_true_of_not_eq_false fun hno => hsrc ⟨s, hk, hno⟩
    · exact eq_true_of_not_eq_false fun hno => hearly ⟨hd, hnil, hno⟩
  obtain ⟨r, l', hproc, hcode, hrep, -⟩ := process_acceptable H h ha' tag
  refine ⟨r, l', hproc, .accepted hcode ⟨_, hrep, push_within H w ha'.pushable hat rfl⟩
    fun b' => ?_⟩
  rw [stores_iff H hrep.blocks, stores_iff H h.blocks]
  exact (L.push_grows a e ha'.pushable).exists_at_iff.trans (or_congr_left eq_comm)

end

end Futurehead
