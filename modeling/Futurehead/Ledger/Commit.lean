import Futurehead.Ledger.Processor
import Futurehead.Lattice.Updates
import Mathlib.Tactic.Ring

/-!
# What an accepted block writes

Each `*Commit` function of the processor, on a ledger that holds a lattice, puts the block on its
chain: `*Commit_appends`. The checks that come before are in `Futurehead.Ledger.Accept`.
-/

namespace Futurehead

open List Option Finmap Ledger Futurehead.Lattice

variable {p : Params} {c : List Entry} {a : Account} {n : Entry} {amount balance : Amount}
  {epoch : Epoch}

/-! ## Weights -/

theorem representationGet_add (l : Ledger) (rep r : Account) (x : Amount) :
    (l.representationAdd rep x).representationGet r =
      l.representationGet r + if rep = r then x else 0 := by
  unfold representationAdd representationPut representationGet
  rw [Finmap.lookup_insert_eq]
  by_cases h : rep = r
  · subst h; simp
  · rw [if_neg (Ne.symm h), if_neg h, add_zero]

theorem weightFor_chain (p : Params) (r : Account) (c : List Entry) :
    weightFor r (chainInfo p c) = if chainRep c = r then chainBal c else 0 := rfl

theorem representationGet_keep (l : Ledger) {c' : List Entry} {rep : Account}
    {x : Amount} (hc : c = [] ∨ chainRep c = rep)
    (hc' : c' = [] ∨ chainRep c' = rep) (hx : x = chainBal c' - chainBal c)
    (r : Account) :
    (l.representationAdd rep x).representationGet r =
      l.representationGet r - weightFor r (chainInfo p c) + weightFor r (chainInfo p c') := by
  have hwt {d : List Entry} (hd : d = [] ∨ chainRep d = rep) :
      weightFor r (chainInfo p d) = if rep = r then chainBal d else 0 := by
    rcases hd with rfl | rfl
    · exact (weightFor_chain p r []).trans (by simp [chainBal])
    · rfl
  rw [representationGet_add, hwt hc, hwt hc', hx]
  split <;> ring

section

variable {known : Block → Prop} (H : HashAssumptions p known) {L : Lattice p known}
  {l : Ledger} {shift : Account → Amount}

theorem Lattice.ne_zero_of_open (h : L.chain a ≠ []) : a ≠ 0 := by
  obtain ⟨e, c, hc⟩ := exists_cons_of_ne_nil h
  obtain ⟨_, _, hx⟩ := extends_at (Chains.at_head hc)
  exact hx.account_ne_zero

theorem stateFrontier_eq {f : Table BlockHash Account} (hf : FrontiersRep p f L.chain)
    (a : Account) (hl : l.frontiers = f) :
    l.stateFrontier (headHash p (L.chain a)) =
      some { l with frontiers := f.erase (headHash p (L.chain a)) } := by
  subst hl
  unfold stateFrontier Ledger.frontierGet
  cases hlk : l.frontiers.lookup (headHash p (L.chain a)) with
  | none =>
    rw [Finmap.erase_of_lookup_none hlk]
    rfl
  | some y =>
    -- only an open account has a frontier, and the burn account is never open
    have hl := ((hf _ y).1 hlk).1
    have hy : y ≠ 0 := ne_zero_of_open (L := L) fun hc => by simp [hc, chainLegacy] at hl
    exact (if_pos hy).trans (frontierDel_eq (mem_iff.2 ⟨y, hlk⟩))

theorem pending_of_pushable (hq : PendingRep p l.pending L.chain)
    (hp : L.Pushable a n amount epoch) {s : BlockHash}
    (hk : n.kind p (L.chain a) = .receive s) : (⟨a, s⟩ : PendingKey) ∈ l.pending := by
  obtain ⟨⟨y, e, c, hat, rfl, hke, -⟩, hnr⟩ := hp.source s hk
  rw [← lookup_isSome, hq.stored hat hke hnr]
  rfl

/-! ## State blocks -/

theorem stateWeight_eq (l : Ledger) {info : AccountInfo} (hinfo : info.head = 0 → info.balance = 0)
    (representative : Account) (balance : Amount) :
    ∃ w, l.stateWeight info representative balance = { l with repAmounts := w } ∧
      ∀ r, { l with repAmounts := w }.representationGet r =
        l.representationGet r - weightFor r info + if representative = r then balance else 0 := by
  unfold stateWeight
  dsimp only
  split
  · refine ⟨_, rfl, fun r => ?_⟩
    change ((l.representationAdd info.representative (0 - info.balance)).representationAdd
      representative balance).representationGet r = _
    rw [representationGet_add, representationGet_add, weightFor]
    split <;> ring
  · rename_i hz
    refine ⟨_, rfl, fun r => ?_⟩
    change (l.representationAdd representative balance).representationGet r = _
    rw [representationGet_add, weightFor, hinfo (not_not.1 hz), ite_self, sub_zero]

variable {representative : Account} {previous : BlockHash} {link : Link}
  {epoch' : Epoch} (result : ProcessReturn)

include H in
theorem head_zero_balance (a : Account) :
    (chainInfo p (L.chain a)).head = 0 → (chainInfo p (L.chain a)).balance = 0 := fun hz => by
  rw [(headHash_chain H (L := L) a).1 hz]
  rfl

include H in
theorem chainOpen_push (n : Entry) (a : Account) :
    (if chainOpen p (L.chain a) = 0 then n.hash p else chainOpen p (L.chain a)) =
      chainOpen p (n :: L.chain a) := by
  rw [chainOpen_cons]
  by_cases hc : L.chain a = []
  · rw [if_pos hc, hc]; rfl
  · rw [if_neg hc, if_neg]
    have : ∀ d : List Entry, d ≠ [] → d <:+ L.chain a → chainOpen p d ≠ 0 := by
      intro d
      induction d with
      | nil => simp
      | cons e d ih =>
        intro _ hsuf
        rw [chainOpen_cons]
        split
        · exact hash_ne_zero H hsuf
        · rename_i hd; exact ih hd ((suffix_cons e d).trans hsuf)
    exact this _ hc (suffix_refl _)

theorem kind_state
    (hb : n.block.hashables = .stateBlock a previous representative balance link) (c : List Entry) :
    n.kind p c =
      if balance < chainBal c then .send link
      else if link = 0 ∨ p.isEpochLink link then .neutral else .receive link := by
  rw [Entry.kind, hb, Hashables.kind]

section

variable (hb : n.block.hashables = .stateBlock a previous representative n.balance link)

include hb in
theorem sideband_state (c : List Entry) :
    Sideband.stored { account := a, height := c.length + 1, details := n.details } n.type =
      n.sideband a c 0 := by
  unfold Entry.sideband Entry.type
  rw [hb]
  rfl

include H hb in
theorem chainInfo_state :
    { head := n.hash p, representative := representative,
      openBlock := if (chainInfo p (L.chain a)).openBlock = 0 then n.hash p
        else (chainInfo p (L.chain a)).openBlock,
      balance := n.balance, blockCount := (chainInfo p (L.chain a)).blockCount + 1,
      epoch := n.details.epoch } = chainInfo p (n :: L.chain a) := by
  have hrep : chainRep (n :: L.chain a) = representative := by
    rw [chainRep, hb]
    rfl
  have hopen := chainOpen_push H n a (L := L)
  simp only [chainInfo, headHash, chainBal, chainEpoch, length_cons, hrep, ← hopen]
  rfl

include hb in
theorem statePending_eq (hq : PendingRep p l.pending L.chain) (hp : L.Pushable a n amount epoch)
    (hlink : n.details.isSend = false → link = 0 ∨ p.isEpochLink link = false)
    (hsend : n.details.isSend = true ↔ n.balance < chainBal (L.chain a))
    {sent : Amount} (hsent : n.details.isSend = true → sent = n.sent (L.chain a)) :
    ∃ q, l.statePending (n.hash p) a link sent n.details = some { l with pending := q } ∧
      ∀ k, q.lookup k = pendingAppended p l.pending a (L.chain a) n k := by
  have hkind := kind_state hb (p := p) (L.chain a)
  unfold pendingAppended statePending
  cases hs : n.details.isSend with
  | true =>
    refine ⟨_, if_pos rfl, fun k => ?_⟩
    rw [hkind, if_pos (hsend.1 hs), hsent hs]
    exact Finmap.lookup_insert_eq _ _ _ _
  | false =>
    have hle : ¬ n.balance < chainBal (L.chain a) := fun hlt => by simp [hsend.2 hlt] at hs
    rw [if_neg (by simp), hkind, if_neg hle]
    by_cases hz : link = 0
    · exact ⟨l.pending, if_neg (not_not.2 hz), fun k => by rw [if_pos (.inl hz)]⟩
    · have hne : ¬ (link = 0 ∨ p.isEpochLink link) := by
        rintro (h | h)
        · exact hz h
        · rcases hlink hs with h' | h'
          · exact hz h'
          · simp [h] at h'
      have hmem := pending_of_pushable hq hp (hkind.trans ((if_neg hle).trans (if_neg hne)))
      rw [if_pos hz]
      refine ⟨_, pendingDel_eq hmem, fun k => ?_⟩
      rw [if_neg hne]
      exact Finmap.lookup_erase_eq _ _ _

include H hb

theorem stateCommit_appends (h : Represents l L shift) (hp : L.Pushable a n amount epoch)
    (hlink : n.details.isSend = false → link = 0 ∨ p.isEpochLink link = false)
    (hsend : n.details.isSend = true ↔ n.balance < chainBal (L.chain a))
    (hamt : n.details.isSend = true → result.amount = n.sent (L.chain a)) :
    ∃ l', l.stateCommit p result n.block a representative n.balance link
          (chainInfo p (L.chain a)) n.details = some ({ result with account := a }, l') ∧
      Appends p l a (L.chain a) n l' := by
  obtain ⟨t, hput, ht⟩ := blockPut_extends H h.blocks hp.fits hp.fresh (sideband_state hb _)
  obtain ⟨w, hmove, hw⟩ := stateWeight_eq { l with blocks := t } (head_zero_balance H (L := L) a)
    representative n.balance
  obtain ⟨q, hpend, hq⟩ := statePending_eq hb (l := { l with blocks := t, repAmounts := w })
    h.pending hp hlink hsend hamt
  obtain ⟨ta, tf, hchg, hta, htf⟩ := changeLatest_push H (a := a) h.accounts (H.ne_zero hp.known)
  unfold stateCommit
  refine ⟨_, bind_eq_some_iff.2 ⟨_, hput, bind_eq_some_iff.2
    ⟨_, (congrArg (statePending · _ _ _ _ _) hmove).trans hpend, bind_eq_some_iff.2
      ⟨_, hchg _ _ rfl rfl (chainInfo_state H hb), bind_eq_some_iff.2
        ⟨_, stateFrontier_eq h.frontiers a rfl, rfl⟩⟩⟩⟩, ?_⟩
  refine ⟨ht, hta, hq, fun x => ?_, htf, fun r => ?_, rfl, rfl⟩
  · refine (Finmap.lookup_erase_eq _ _ _).trans (if_neg ?_).symm
    simp [chainLegacy, Entry.type, hb, Hashables.type]
  · refine (hw r).trans ?_
    simp [weightFor, chainInfo, chainRep, hb, Hashables.representative, chainBal]
    rfl

theorem epochCommit_appends (h : Represents l L shift) (hp : L.Pushable a n amount epoch)
    (hlink : p.isEpochLink link) (hbal : n.balance = chainBal (L.chain a))
    (hrep : representative = chainRep (L.chain a))
    (hdet : n.details = ⟨epoch', false, false, true⟩) :
    ∃ l', l.epochCommit p result n.block a representative (chainInfo p (L.chain a)) epoch' =
        some ({ result with account := a, amount := 0 }, l') ∧
      Appends p l a (L.chain a) n l' := by
  obtain ⟨t, hput, ht⟩ := blockPut_extends H h.blocks hp.fits hp.fresh (sideband_state hb _)
  obtain ⟨ta, tf, hchg, hta, htf⟩ := changeLatest_push H (a := a) h.accounts (H.ne_zero hp.known)
  have hkind : n.kind p (L.chain a) = .neutral := by
    rw [kind_state hb, if_neg (by rw [hbal]; exact BitVec.lt_irrefl _), if_pos (.inr hlink)]
  have hinfo := chainInfo_state H hb (L := L)
  rw [hdet] at hput hinfo
  rw [hbal] at hinfo
  have happ (started : Bool) : Appends p l a (L.chain a) n { l with
      blocks := t, frontiers := l.frontiers.erase (headHash p (L.chain a)), accounts := ta,
      confirmationHeight := tf, epoch2Started := started,
      accountCount := if L.chain a = [] then l.accountCount + 1 else l.accountCount } := by
    refine ⟨ht, hta, fun key => ?_, fun x => ?_, htf, fun r => ?_, rfl, rfl⟩
    · rw [pendingAppended, hkind]
    · refine (Finmap.lookup_erase_eq _ _ _).trans (if_neg ?_).symm
      simp [chainLegacy, Entry.type, hb, Hashables.type]
    · have hw : weightFor r (chainInfo p (n :: L.chain a)) =
          weightFor r (chainInfo p (L.chain a)) := by
        rw [← hinfo, hrep]
        rfl
      rw [hw, sub_add_cancel]
      rfl
  refine ⟨_, ?_, happ (if epoch' = .epoch2 then true else l.epoch2Started)⟩
  unfold epochCommit
  refine bind_eq_some_iff.2 ⟨_, hput, ?_⟩
  refine bind_eq_some_iff.2 ⟨_, hchg _ _ rfl rfl hinfo, ?_⟩
  refine bind_eq_some_iff.2 ⟨_, stateFrontier_eq h.frontiers a rfl, ?_⟩
  split <;> rfl

end

/-! ## Legacy blocks -/

section

variable {source : BlockHash} {destination : Account} {pending : PendingInfo}

theorem sideband_legacy (hd : n.details = {}) (c : List Entry) :
    Sideband.stored { account := a, balance := n.balance, height := c.length + 1 } n.type =
      n.sideband a c 0 := by
  unfold Entry.sideband
  rw [hd]

theorem chainInfo_legacy (hc : c ≠ []) (hd : n.details = {})
    (hrep : chainRep (n :: c) = representative) :
    { head := n.hash p, representative := representative, openBlock := (chainInfo p c).openBlock,
      balance := n.balance, blockCount := (chainInfo p c).blockCount + 1, epoch := .epoch0 } =
      chainInfo p (n :: c) := by
  simp only [chainInfo, headHash, chainBal, chainEpoch, length_cons, hrep, hd,
    chainOpen_cons, if_neg hc]

theorem mem_frontiers (hf : FrontiersRep p l.frontiers L.chain) (hl : chainLegacy (L.chain a)) :
    headHash p (L.chain a) ∈ l.frontiers := by
  rw [← lookup_isSome, (hf _ a).2 ⟨hl, rfl⟩]
  rfl

theorem lookup_frontiers_legacy (hn : chainLegacy (n :: L.chain a)) (f : Table BlockHash Account)
    (x : BlockHash) :
    ((f.erase (headHash p (L.chain a))).insert (n.hash p) a).lookup x =
      if chainLegacy (n :: L.chain a) ∧ x = n.hash p then some a
      else if x = headHash p (L.chain a) then none
      else f.lookup x := by
  rw [Finmap.lookup_insert_eq, Finmap.lookup_erase_eq]
  simp only [hn, true_and]

include H in
theorem frontiers_zero (hf : FrontiersRep p l.frontiers L.chain) : l.frontiers.lookup 0 = none := by
  cases hlk : l.frontiers.lookup 0 with
  | none => rfl
  | some y =>
    obtain ⟨hl, hz⟩ := (hf 0 y).1 hlk
    rw [(headHash_chain H (L := L) y).1 hz] at hl
    cases hl

variable (hd : n.details = {}) (hl : chainLegacy (L.chain a))

include hl in
theorem ne_nil_of_legacy : L.chain a ≠ [] := fun hc => by simp [hc, chainLegacy] at hl

include H hd hl in
theorem sendCommit_appends (h : Represents l L shift) (hp : L.Pushable a n amount epoch)
    (hb : n.block.hashables = .sendBlock (headHash p (L.chain a)) destination n.balance) :
    ∃ r l', l.sendCommit p result n.block (headHash p (L.chain a)) destination n.balance a
          (chainInfo p (L.chain a)) = some (r, l') ∧ r.code = result.code ∧
      Appends p l a (L.chain a) n l' := by
  have hkind : n.kind p (L.chain a) = .send destination := by
    unfold Entry.kind; rw [hb]; rfl
  have hrep : chainRep (n :: L.chain a) = chainRep (L.chain a) := by
    rw [chainRep, hb]
  have hinfo := chainInfo_legacy (p := p) (ne_nil_of_legacy hl) hd hrep
  have hleg : chainLegacy (n :: L.chain a) := by
    simp [chainLegacy, Entry.type, hb, Hashables.type]
  obtain ⟨t, hput, ht⟩ := blockPut_extends H (l := l.representationAdd
    (chainRep (L.chain a)) (0 - (chainBal (L.chain a) - n.balance)))
    h.blocks hp.fits hp.fresh (sideband_legacy hd _)
  obtain ⟨ta, tf, hchg, hta, htf⟩ := changeLatest_push H (a := a) h.accounts (H.ne_zero hp.known)
  unfold sendCommit
  refine ⟨_, _, bind_eq_some_iff.2 ⟨_, hput, bind_eq_some_iff.2
    ⟨_, hchg _ _ rfl rfl hinfo, bind_eq_some_iff.2
      ⟨_, frontierDel_eq (mem_frontiers h.frontiers hl), rfl⟩⟩⟩, rfl, ?_⟩
  refine ⟨ht, hta, fun key => ?_, lookup_frontiers_legacy hleg _, htf, fun r => ?_, rfl, rfl⟩
  · rw [pendingAppended, hkind]
    simp only [hd]
    exact Finmap.lookup_insert_eq _ _ _ _
  · exact representationGet_keep l (.inr rfl) (.inr hrep) (by rw [chainBal]; ring) r

include H hd hl in
theorem changeCommit_appends (h : Represents l L shift) (hp : L.Pushable a n amount epoch)
    (hb : n.block.hashables = .changeBlock (headHash p (L.chain a)) representative)
    (hbal : n.balance = chainBal (L.chain a)) :
    ∃ r l', l.changeCommit p result n.block (headHash p (L.chain a)) representative a
          (chainInfo p (L.chain a)) = some (r, l') ∧ r.code = result.code ∧
      Appends p l a (L.chain a) n l' := by
  have hkind : n.kind p (L.chain a) = .neutral := by
    unfold Entry.kind; rw [hb]; rfl
  have hrep : chainRep (n :: L.chain a) = representative := by
    rw [chainRep, hb]
    rfl
  have hinfo := chainInfo_legacy (p := p) (ne_nil_of_legacy hl) hd hrep
  have hleg : chainLegacy (n :: L.chain a) := by
    simp [chainLegacy, Entry.type, hb, Hashables.type]
  obtain ⟨t, hput, ht⟩ := blockPut_extends H h.blocks hp.fits hp.fresh (sideband_legacy hd _)
  have hprev : { l with blocks := t }.balance (headHash p (L.chain a)) =
      some (chainBal (L.chain a)) :=
    balance_below H (h.blocks.push H (L.push_grows a n hp) ht) (L.push_grows a n hp).at_new
  obtain ⟨ta, tf, hchg, hta, htf⟩ := changeLatest_push H (a := a) h.accounts (H.ne_zero hp.known)
  rw [hbal] at hput hinfo
  unfold changeCommit
  refine ⟨_, _, bind_eq_some_iff.2 ⟨_, hput, bind_eq_some_iff.2 ⟨_, hprev,
    bind_eq_some_iff.2 ⟨_, hchg _ _ rfl rfl hinfo, bind_eq_some_iff.2
      ⟨_, frontierDel_eq (mem_frontiers h.frontiers hl), rfl⟩⟩⟩⟩, rfl, ?_⟩
  refine ⟨ht, hta, fun key => ?_, lookup_frontiers_legacy hleg _, htf, fun r => ?_, rfl, rfl⟩
  · rw [pendingAppended, hkind]
    rfl
  · refine (representationGet_add _ _ _ _).trans ?_
    rw [representationGet_add, weightFor_chain, weightFor_chain, hrep, chainBal, hbal]
    change l.representationGet r + _ + (if chainRep (L.chain a) = r then _ else _) = _
    split_ifs <;> ring

include H hd hl in
theorem receiveCommit_appends (h : Represents l L shift) (hp : L.Pushable a n amount epoch)
    (hb : n.block.hashables = .receiveBlock (headHash p (L.chain a)) source)
    (hbal : chainBal (L.chain a) + pending.amount = n.balance) :
    ∃ r l', l.receiveCommit p result n.block (headHash p (L.chain a)) source a
          (chainInfo p (L.chain a)) pending = some (r, l') ∧ r.code = result.code ∧
      Appends p l a (L.chain a) n l' := by
  have hkind : n.kind p (L.chain a) = .receive source := by
    unfold Entry.kind; rw [hb]; rfl
  have hrep : chainRep (n :: L.chain a) = chainRep (L.chain a) := by
    rw [chainRep, hb]
  have hinfo := chainInfo_legacy (p := p) (ne_nil_of_legacy hl) hd hrep
  have hleg : chainLegacy (n :: L.chain a) := by
    simp [chainLegacy, Entry.type, hb, Hashables.type]
  have hdel := pendingDel_eq (pending_of_pushable h.pending hp hkind)
  obtain ⟨t, hput, ht⟩ := blockPut_extends H
    (l := { l with pending := l.pending.erase ⟨a, source⟩ })
    h.blocks hp.fits hp.fresh (sideband_legacy hd _)
  obtain ⟨ta, tf, hchg, hta, htf⟩ := changeLatest_push H (a := a) h.accounts (H.ne_zero hp.known)
  rw [← hbal] at hput hinfo
  unfold receiveCommit
  refine ⟨_, _, bind_eq_some_iff.2 ⟨_, hdel, bind_eq_some_iff.2 ⟨_, hput,
    bind_eq_some_iff.2 ⟨_, hchg _ _ rfl rfl hinfo, bind_eq_some_iff.2
      ⟨_, frontierDel_eq (mem_frontiers h.frontiers hl), rfl⟩⟩⟩⟩, rfl, ?_⟩
  refine ⟨ht, hta, fun key => ?_, lookup_frontiers_legacy hleg _, htf, fun r => ?_, rfl, rfl⟩
  · rw [pendingAppended, hkind]
    exact Finmap.lookup_erase_eq _ _ _
  · exact representationGet_keep l (.inr rfl) (.inr hrep) (by rw [chainBal, ← hbal]; ring) r

include H hd in
theorem openCommit_appends (h : Represents l L shift) (hp : L.Pushable a n amount epoch)
    (hc : L.chain a = []) (hb : n.block.hashables = .openBlock source representative a)
    (hsrc : source ≠ p.genesisAccount) (hbal : pending.amount = n.balance) :
    ∃ r l', l.openCommit p result n.block source representative a pending = some (r, l') ∧
      r.code = result.code ∧ Appends p l a (L.chain a) n l' := by
  have hkind : n.kind p (L.chain a) = .receive source := by
    unfold Entry.kind; rw [hb, Hashables.kind, if_neg hsrc]
  have hrep : chainRep (n :: L.chain a) = representative := by
    rw [chainRep, hb]
    rfl
  have hinfo : (⟨n.hash p, representative, n.hash p, pending.amount, 1, .epoch0⟩ : AccountInfo) =
      chainInfo p (n :: L.chain a) := by
    rw [hc] at hrep ⊢
    simp only [chainInfo, headHash, chainBal, chainEpoch, hrep, hd, chainOpen, hbal,
      length_cons, length_nil, Nat.zero_add]
  have hleg : chainLegacy (n :: L.chain a) := by
    simp [chainLegacy, Entry.type, hb, Hashables.type]
  have hdel := pendingDel_eq (pending_of_pushable h.pending hp hkind)
  obtain ⟨t, hput, ht⟩ := blockPut_extends H
    (l := { l with pending := l.pending.erase ⟨a, source⟩ })
    h.blocks hp.fits hp.fresh (sideband_legacy hd _)
  obtain ⟨ta, tf, hchg, hta, htf⟩ := changeLatest_push H (a := a) h.accounts (H.ne_zero hp.known)
  rw [← hbal, hc] at hput
  simp only [hc, if_true] at hchg
  unfold openCommit
  refine ⟨_, _, bind_eq_some_iff.2 ⟨_, hdel, bind_eq_some_iff.2 ⟨_, hput,
    bind_eq_some_iff.2 ⟨_, hchg _ _ rfl rfl (hc ▸ hinfo), rfl⟩⟩⟩, rfl, ?_⟩
  refine ⟨ht, hta, fun key => ?_, fun x => ?_, htf, fun r => ?_, rfl, (if_pos hc).symm⟩
  · rw [pendingAppended, hkind]
    exact Finmap.lookup_erase_eq _ _ _
  · rw [hc, headHash]
    refine (Finmap.lookup_insert_eq _ _ _ _).trans ?_
    rw [hc] at hleg
    simp only [hleg, true_and]
    congr 1
    split
    · rename_i hz; rw [hz]; exact frontiers_zero H h.frontiers
    · rfl
  · refine representationGet_keep l (.inl hc) (.inr hrep) ?_ r
    rw [hc, chainBal, chainBal, sub_zero, hbal]

end

end

end Futurehead
