import Futurehead.Ledger.Complete

/-!
# Every accepted block is valid

The converse of `process_acceptable`: a block that comes without a tag and is accepted for a place on
a chain is `Acceptable` there (`process_checked`). Together they say what the ledger asks of a block,
and that is a matter of the chain below it and the send it receives: `Acceptable.mono` takes an
acceptable block to a lattice with more blocks, as long as they are on other chains.
-/

namespace Futurehead

variable {p : Params} {known : Block → Prop} {l : Ledger} {shift : Account → Amount} {a : Account}
  {n : Entry} {amount : Amount} {epoch : Epoch}

section

variable (H : HashAssumptions p known) {L : Lattice p known}

theorem Checked.valid {b : Block} {account : Account} {expected : SignatureVerification}
    (hne : expected ≠ .unknown) (h : Checked p b .unknown expected account) :
    p.validateMessage account (p.hash b) b.signature = false := by
  rcases Bool.or_eq_true_iff.1 h with hv | hv
  · exact absurd (eq_of_beq hv).symm hne
  · exact Bool.eq_false_of_not_eq_true' hv

section

variable (hp : L.Pushable a n amount epoch) (hg : n.kind p (L.chain a) ≠ .genesis)
include hp hg

theorem Lattice.Pushable.acceptable (hd : n.details.isEpoch = false)
    (hsig : p.validateMessage a (p.hash n.block) n.block.signature = false)
    (hwork : p.workThreshold n.details ≤ p.difficulty n.block)
    (hopens : L.chain a = [] → n.kind p (L.chain a) ≠ .neutral) :
    Acceptable l L a n amount epoch := by
  refine ⟨hp, hg, ?_, hwork, fun hnil hk => absurd hk (hopens hnil), fun he => ?_, fun he => ?_⟩
  · rw [Entry.signer, hd, if_neg Bool.false_ne_true]
    exact hsig
  · rw [hd] at he; cases he
  · rw [hd] at he; cases he

theorem Lattice.Pushable.acceptable_legacy (hns : n.type ≠ .state)
    (hsig : p.validateMessage a (p.hash n.block) n.block.signature = false)
    (hwork : p.workThreshold {} ≤ p.difficulty n.block) : Acceptable l L a n amount epoch := by
  have hdet := hp.fits.details_legacy hns
  refine hp.acceptable hg (by rw [hdet]) hsig (by rwa [hdet]) fun hnil hk => ?_
  -- an open block receives
  have hopen := (hp.fits.opens hnil).resolve_right hns
  unfold Entry.type at hopen
  unfold Entry.kind at hg hk
  cases hh : n.block.hashables with
  | openBlock =>
    rw [hh, Hashables.kind] at hk
    split_ifs at hk
  | _ => rw [hh] at hopen; cases hopen

include H

theorem Passed.acceptable (h : Represents l L shift) {x : Processed}
    (hx : Passed p l n.block .unknown x) : Acceptable l L a n amount epoch := by
  have hleg (place : OnFrontier p l n.block .unknown)
      (work : p.workThreshold {} ≤ p.difficulty n.block) : Acceptable l L a n amount epoch := by
    have hsig := place.signed.valid (by decide)
    rw [hp.fits.frontierGet h place.legacy.1 place.legacy.2] at hsig
    exact hp.acceptable_legacy hg place.legacy.2 hsig work
  cases hx with
  | send _ place work | change _ place work | receive _ place work => exact hleg place work
  | @opens _ _ account _ hb _ signed work =>
    have ht : n.type = BlockType.open := by rw [Entry.type, hb]; rfl
    obtain rfl : account = a := by
      have := hp.fits.account (.inl ht)
      rwa [hb] at this
    exact hp.acceptable_legacy hg (by rw [ht]; decide) (signed.valid (by decide)) work
  | @state _ _ _ _ link _ details hb _ signed ne _ place does work =>
    obtain rfl := hp.fits.account_state hb
    obtain ⟨hinfo, hprev⟩ := place.info_eq h
    obtain ⟨_, _, hp'⟩ := (hinfo ▸ does).pushable H hp.known ne hb hprev h
    have heq : n.details = details := congrArg Entry.details (hp.unique H hp' rfl).2
    have hdet := hp.fits.details_state hb
    refine hp.acceptable hg ?_ (signed.valid (by decide)) (heq ▸ work) fun hnil hk => ?_
    · rw [heq]
      cases does <;> rfl
    · rw [hk, heq] at hdet
      -- only a receive opens an account
      cases does with
      | send lt => rw [hinfo, hnil] at lt; exact absurd lt BitVec.not_lt_zero
      | receive =>
        have hrcv := congrArg BlockDetails.isReceive hdet
        cases hi : p.epochInfo link <;> simp [hi] at hrcv
      | change zero =>
        cases place with
        | opened get => exact (accountGet_some h.accounts get).1 hnil
        | unopened _ _ hne => exact hne zero
  | @epoch account _ _ _ _ info i hb _ isLink hi signed ne below _ place same work =>
    obtain rfl := hp.fits.account_state hb
    have hprev := hp.fits.previous_state hb
    obtain ⟨hinfo, hrep, -⟩ := place.info_eq h below
    have hp' := pushable_stateEpoch H hp.known ne hb hprev hi isLink (by rw [same, hinfo]; rfl)
    have hdet : n.details = ⟨i.epoch, false, false, true⟩ :=
      congrArg Entry.details (hp.unique H hp' rfl).2
    refine ⟨hp, hg, ?_, hdet ▸ work, fun _ _ => by rw [hdet], fun _ => ?_, fun _ => ?_⟩
    · rw [Entry.signer, hdet, if_pos rfl, hb, Hashables.link, hi]
      exact signed.valid (by decide)
    · rw [hb]
      exact hrep
    · cases place with
      | opened get _ _ _ next =>
        obtain ⟨hne, rfl⟩ := accountGet_some h.accounts get
        rw [if_neg hne, hdet]
        exact next
      | unopened get _ pending =>
        rw [if_pos (chain_eq_nil h.accounts get)]
        exact pending

theorem process_checked (h : Represents l L shift) :
    Returns (l.process p n.block .unknown) fun r _ =>
      r.code = .progress → Acceptable l L a n amount epoch := by
  refine Returns.process ?_ fun _ _ _ hr => hr
  exact .visit (fun r hr hcode => absurd hcode hr.code) fun x hx _ _ _ _ => hx.acceptable H hp hg h

end

end

/-! ## Larger lattices -/

section

variable (H : HashAssumptions p known) {L L' : Lattice p known}
  {l' : Ledger} {shift' : Account → Amount}
  {s : BlockHash}

include H in
theorem Lattice.receiver (hs : L.Sends s a amount epoch) (hr : L.Received s) :
    ∃ e c, L.At a e c ∧ e.kind p c = .receive s := by
  obtain ⟨y, e, c, hat, hk⟩ := hr
  obtain ⟨_, _, _, x, d, hx, hh, hsend, -⟩ := sends_of_receive hat hk
  obtain ⟨_, x', d', hx', hh', hsend', -⟩ := hs
  obtain ⟨rfl, rfl, rfl⟩ := at_unique H hx hx' (hh.trans hh'.symm)
  cases hsend.symm.trans hsend'
  exact ⟨e, c, hat, hk⟩

theorem Acceptable.of_chain (ha : Acceptable l L a n amount epoch) (hc : L'.chain a = L.chain a)
    (hfresh : ∀ {y e c}, L'.At y e c → e.hash p ≠ n.hash p)
    (hsrc : ∀ s, n.kind p (L.chain a) = .receive s → L'.Sends s a amount epoch ∧ ¬ L'.Received s)
    (hpnd : n.details.isEpoch = true → L.chain a = [] → l'.pendingAny a = true) :
    Acceptable l' L' a n amount epoch where
  pushable :=
    { known := ha.pushable.known
      fresh := hfresh
      fits := hc ▸ ha.pushable.fits
      source := fun s hk => hsrc s (hc ▸ hk) }
  not_genesis := hc ▸ ha.not_genesis
  signed := ha.signed
  work := ha.work
  opens := hc ▸ ha.opens
  representative := hc ▸ ha.representative
  upgrade := fun hd => by
    have hup := ha.upgrade hd
    rw [hc]
    split_ifs at hup ⊢ with hnil
    · exact hpnd hd hnil
    · exact hup

variable (hw : L.chain.Within L'.chain) (hc : L'.chain a = L.chain a)
include H hw hc

theorem Lattice.not_received_of_within (hs : L.Sends s a amount epoch) (hnr : ¬ L.Received s) :
    L'.Sends s a amount epoch ∧ ¬ L'.Received s := by
  obtain ⟨y, x, d, hx, hrest⟩ := hs
  have hs' : L'.Sends s a amount epoch := ⟨y, x, d, hw.at hx, hrest⟩
  refine ⟨hs', fun hr => hnr ?_⟩
  obtain ⟨e, c, hat, hk⟩ := Lattice.receiver H hs' hr
  exact ⟨a, e, c, (hc ▸ hat : e :: c <:+ L.chain a), hk⟩

theorem Acceptable.mono (h : Represents l L shift) (h' : Represents l' L' shift')
    (ha : Acceptable l L a n amount epoch)
    (hfresh : ∀ {y e c}, L'.At y e c → e.hash p ≠ n.hash p) : Acceptable l' L' a n amount epoch := by
  refine ha.of_chain hc hfresh (fun s hk => ?_) fun hd hnil => ?_
  · obtain ⟨hs, hnr⟩ := ha.pushable.source s hk
    exact Lattice.not_received_of_within H hw hc hs hnr
  · -- what is pending for the account is still there
    have hup := ha.upgrade hd
    rw [if_pos hnil] at hup
    obtain ⟨⟨_, s⟩, hmem, rfl⟩ := of_decide_eq_true hup
    obtain ⟨i, hi⟩ := Finmap.mem_iff.1 (Finmap.mem_keys.1 hmem)
    obtain ⟨y, x, d, hx, hk, hnr, rfl⟩ := h.pending.only hi
    obtain ⟨hs, hnr'⟩ := Lattice.not_received_of_within H hw hc ⟨y, x, d, hx, rfl, hk, rfl, rfl⟩ hnr
    obtain ⟨z, hz⟩ := pendingGet_of_sends h'.pending hs hnr'
    exact decide_eq_true ⟨_, Finmap.mem_keys.2 (Finmap.mem_iff.2 ⟨_, hz⟩), rfl⟩

end

end Futurehead
