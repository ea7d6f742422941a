import Futurehead.Ledger.Scope

/-!
# Rollbacks that fail

The confirmation heights of a ledger need not be closed under dependencies: the height of a single
account can be cleared. Then a rollback of a send may have to stop at a cemented receive after it
has begun. `failure_harmless_iff` says for which tables it reports the error and leaves the account
of the send alone: the newest block of that account has to be a legacy block that cannot be rolled
back either. A state block there stops the node, because the state visitor goes on to delete a
pending entry that does not exist.
-/

namespace Futurehead

open Option Finmap

variable {p : Params} {known : Block → Prop} (H : HashAssumptions p known) {L : Lattice p known}
  {l : Ledger} {a : Account} {e : Entry} {c : List Entry}

/-- A cemented block is or rests on the block, so it cannot be rolled back. -/
def Ledger.Blocked (p : Params) (l : Ledger) (hash : BlockHash) : Prop :=
  ∃ x, l.blockExists x ∧ l.RestsOn p x hash ∧ l.Confirmed x

/-- A rollback that cannot succeed reports an error, leaves the block and the record of its account
as they are, and leaves exact weights. -/
def Ledger.FailsHarmlessly (p : Params) (l : Ledger) (hash : BlockHash) : Prop :=
  l.Blocked p hash → ∀ fuel list, l.blocks.keys.card < fuel →
    ∃ l' list', Ledger.rollback p fuel l hash list = some (true, l', list') ∧
      (l'.blockGet hash).map (·.block) = (l.blockGet hash).map (·.block) ∧
      (∀ account, l.account hash = some account → l'.accountGet account = l.accountGet account) ∧
      ∀ r, (l'.representationGet r).toNat = l'.weightOf r

/-- If a send is not cemented but cannot be rolled back, the newest block of its account is a legacy
block that cannot be rolled back. -/
def Ledger.LegacyBlocked (p : Params) (l : Ledger) : Prop :=
  ∀ hash d, l.destination hash = some d → l.Blocked p hash → ¬ l.Confirmed hash →
    ∃ account info b, l.account hash = some account ∧ l.accountGet account = some info ∧
      l.blockGet info.head = some b ∧ b.block.hashables.type ≠ .state ∧ l.Blocked p info.head

include H in
theorem blocked_iff (hb : BlocksRep p l.blocks L.chain) (hash : BlockHash) :
    l.Blocked p hash ↔ l.Pinned L hash := by
  unfold Ledger.Blocked Ledger.Pinned
  constructor
  · rintro ⟨x, hex, hr, hc⟩
    obtain ⟨y, w, d, hat, rfl⟩ := at_of_blockExists hb hex
    exact ⟨y, w, d, hat, (restsOn_iff H hb _ _).1 hr, (confirmed_at H hb hat).1 hc⟩
  · rintro ⟨y, w, d, hat, hr, hc⟩
    exact ⟨_, blockExists_at H hb hat, (restsOn_iff H hb _ _).2 hr, (confirmed_at H hb hat).2 hc⟩

include H in
theorem exists_pinned_send (hat : L.At a e c) (hcem : ¬ l.CementedAt a c)
    (hp : l.Pinned L (e.hash p)) :
    ∃ s f d, L.At a s f ∧ e :: c <:+ s :: f ∧ s.kind p f = .send d ∧ l.Pinned L (s.hash p) := by
  obtain ⟨y, x, w, hx, hr, hcemx⟩ := hp
  generalize hh : e.hash p = h at hr
  induction hr generalizing a e c with
  | refl =>
    obtain ⟨rfl, rfl, rfl⟩ := Lattice.at_unique H hat hx hh
    exact absurd hcemx hcem
  | tail hr hd ih =>
    obtain ⟨a', e', c', hat', hh', ⟨hne, hblw⟩ | hk⟩ := hd
    · -- the block above on the same chain
      cases c' with
      | nil => exact absurd rfl hne
      | cons z c'' =>
        obtain ⟨rfl, rfl, rfl⟩ := Lattice.at_unique H hat hat'.below (hh.trans hblw.symm)
        have hcem' : ¬ l.CementedAt a (e :: c) := by
          rintro ⟨i, hi, hle⟩
          exact hcem ⟨i, hi, by simp only [List.length_cons] at hle; omega⟩
        obtain ⟨s, f, d, hats, hsuf, hks, hps⟩ := ih hat' hcem' hh'
        exact ⟨s, f, d, hats, (List.suffix_cons e' _).trans hsuf, hks, hps⟩
    · -- a receive, so that the block is the send
      obtain ⟨_, _, z, s, f, hats, hhs, hks, -⟩ := Lattice.sends_of_receive hat' hk
      obtain ⟨rfl, rfl, rfl⟩ := Lattice.at_unique H hats hat (hhs.trans hh.symm)
      refine ⟨s, f, _, hat, List.suffix_rfl, hks, y, x, w, hx, ?_, hcemx⟩
      exact Relation.ReflTransGen.tail hr ⟨a', e', c', hat', hh', .inr (hh ▸ hk)⟩

include H in
theorem newest_of_pinned_send (hb : BlocksRep p l.blocks L.chain) (hleg : l.LegacyBlocked p)
    (ha : AccountsRep p l.accounts L.chain) {s : Entry} {f : List Entry} {d : Account}
    (hat : L.At a s f) (hk : s.kind p f = .send d) (hcem : ¬ l.CementedAt a f)
    (hp : l.Pinned L (s.hash p)) :
    ∃ n g, L.chain a = n :: g ∧ n.type ≠ .state ∧ l.Pinned L (n.hash p) := by
  obtain ⟨acc, info, b, hacc, hinfo, hget, ht, hblkd⟩ :=
    hleg _ d ((destination_at H hb hat).2 hk) ((blocked_iff H hb _).2 hp)
      (mt (confirmed_at H hb hat).1 hcem)
  rw [account_at H hb hat] at hacc
  obtain rfl := Option.some.inj hacc
  obtain ⟨hne, rfl⟩ := accountGet_some ha hinfo
  cases hc : L.chain a with
  | nil => exact absurd hc hne
  | cons n g =>
    rw [hc] at hget hblkd
    obtain rfl := Option.some.inj ((blockGet_at H hb (Chains.at_head hc)).symm.trans hget)
    exact ⟨n, g, rfl, ht, (blocked_iff H hb _).1 hblkd⟩

section

variable (h : Represents l L fun _ => 0)

include H h

theorem legacyBlocked_of_harmless
    (hall : ∀ hash d, l.destination hash = some d → l.FailsHarmlessly p hash) :
    l.LegacyBlocked p := by
  intro hash d hdest hblkd hnot
  obtain ⟨a, e, c, hat, rfl⟩ := at_of_destination h.blocks hdest
  obtain ⟨l', list', hrun, -, hacc, -⟩ := hall _ d hdest hblkd (l.blocks.keys.card + 1) []
    (Nat.lt_succ_self _)
  have hacc := hacc a (account_at H h.blocks hat)
  obtain ⟨L', removed, h', r, -, herr⟩ := rollback_spec H _ h hat hrun
  obtain ⟨-, -, hwhy⟩ := herr rfl
  rcases hwhy with hcem | ⟨n, g, hc', ht, hpin⟩
  · exact absurd ((confirmed_at H h.blocks hat).2 hcem) hnot
  have hinfo : l.accountGet a = some (chainInfo p (n :: g)) := by
    rw [← hacc, accountGet_chain h'.accounts, hc']; rfl
  -- the records agree in the block count, so nothing was taken off the chain
  obtain ⟨-, hrec⟩ := accountGet_some h.accounts hinfo
  have hlen : (L'.chain a).length = (L.chain a).length := by
    rw [hc']; exact congrArg AccountInfo.blockCount hrec
  have hc : L.chain a = n :: g := by rw [← hc', (r.within a).eq_of_length hlen]
  exact ⟨a, _, _, account_at H h.blocks hat, hinfo, blockGet_at H h.blocks (Chains.at_head hc), ht,
    (blocked_iff H h.blocks _).2 hpin⟩

theorem stateClosed_of_legacyBlocked (hleg : l.LegacyBlocked p) : l.StateClosed L := by
  intro a e c hat ht hp
  by_contra hcem
  obtain ⟨s, f, d, hats, hsuf, hks, hps⟩ := exists_pinned_send H hat hcem hp
  have hcems : ¬ l.CementedAt a f := by
    rintro ⟨i, hi, hle⟩
    have := hsuf.length_le
    simp only [List.length_cons] at this
    exact hcem ⟨i, hi, by omega⟩
  obtain ⟨n, g, hc, hn, -⟩ := newest_of_pinned_send H h.blocks hleg h.accounts hats hks hcems hps
  have hsufn : e :: c <:+ n :: g := hc ▸ hat
  exact hn (Lattice.type_above (Chains.at_head hc) hsufn ht)

theorem harmless_of_legacyBlocked (hleg : l.LegacyBlocked p) (hash : BlockHash) (d : Account) (hdest : l.destination hash = some d) :
    l.FailsHarmlessly p hash := by
  intro hblkd fuel list hf
  obtain ⟨a, e, c, hat, rfl⟩ := at_of_destination h.blocks hdest
  have hp := (blocked_iff H h.blocks _).1 hblkd
  by_cases hcem : l.CementedAt a c
  · obtain ⟨k, rfl⟩ : ∃ k, fuel = k + 1 := ⟨fuel - 1, by omega⟩
    exact ⟨l, list, rollback_cemented H h hat hcem k list, rfl, fun _ _ => rfl, h.weightOf_eq⟩
  have hk := (destination_at H h.blocks hat).1 hdest
  obtain ⟨n, g, hc, -, hpn⟩ := newest_of_pinned_send H h.blocks hleg h.accounts hat hk hcem hp
  obtain ⟨error, l', list', hrun⟩ :=
    rollback_total H h (stateClosed_of_legacyBlocked H h hleg) hat (by simp [hk]) hf list
  obtain ⟨L', removed, h', r, hok, -⟩ := rollback_spec H fuel h hat hrun
  have hat' := r.at_of_pinned H hat hp
  have herror : error = true := by
    by_contra hne
    exact (hok (Bool.eq_false_of_not_eq_true hne)).1 hat'
  subst herror
  -- the newest block cannot go, so the chain stays as it is
  have hc' := chain_eq_of_within r.within hc (r.at_of_pinned H (Chains.at_head hc) hpn)
  refine ⟨l', list', hrun, ?_, fun acc hacc => ?_, h'.weightOf_eq⟩
  · rw [blockGet_at H h'.blocks hat', blockGet_at H h.blocks hat]
    rfl
  · rw [account_at H h.blocks hat] at hacc
    obtain rfl := Option.some.inj hacc
    rw [accountGet_chain h'.accounts, accountGet_chain h.accounts, hc, hc']

end

include H in
/-- For every table of confirmation heights: all failed rollbacks of sends are harmless exactly if
the newest block of an account with a blocked send is a blocked legacy block. -/
theorem failure_harmless_iff (hl : Reached p known (NoForeignEpoch p) l)
    {heights : Table Account ConfirmationHeightInfo}
    (hmem : ∀ acc, acc ∈ heights ↔ acc ∈ l.accounts) :
    (∀ hash d, (l.withHeights heights).destination hash = some d →
      (l.withHeights heights).FailsHarmlessly p hash) ↔ (l.withHeights heights).LegacyBlocked p := by
  obtain ⟨L, hL⟩ := hl.holds H
  have h := hL.represents.withHeights hmem
  exact ⟨legacyBlocked_of_harmless H h, harmless_of_legacyBlocked H h⟩

theorem blocked_of_confirmed {hash h h' : BlockHash}
    (hdep : (l.blockGet hash).map (Ledger.dependentBlocks p) = some (h, h')) (hne : h ≠ 0)
    (hex : l.blockExists hash) (hc : l.Confirmed hash) : l.Blocked p h := by
  obtain ⟨b, hget, hb⟩ := map_eq_some_iff.1 hdep
  exact ⟨hash, hex, .single ⟨b, hget, hne, .inl (congrArg Prod.fst hb)⟩, hc⟩

open Sample

/-- The ledger in which the account `account` is cemented up to its first block. -/
def Sample.cemented (account : Account) (first : Block) (l : Ledger) : Ledger :=
  l.withHeights (l.confirmationHeight.insert account ⟨1, Sample.hash first⟩)

/-- The legacy send to B cannot be rolled back once the open block of B is cemented, and the
rollback says so. -/
theorem failure_harmless_iff_opens :
    ∃ l, run [put sendZero, put openB] = some l ∧
      ∃ l' list, Ledger.rollback params 20 (cemented accountB openB l)
        (Sample.hash sendZero) [] = some (true, l', list) := by
  obtain ⟨l, hl, hkeys, hst, hf, ⟨hgen, hsend, hopen⟩, hdep, hex, hconf, hacc, ⟨info, hinfo,
      hhead⟩, b, hget, htype⟩ :
    ∃ l ∈ run [put sendZero, put openB],
    (cemented accountB openB l).confirmationHeight.keys = l.accounts.keys ∧
    l.blocks.keys.image (·.2) ⊆ {Sample.hash params.genesisBlock,
      Sample.hash sendZero, Sample.hash openB} ∧
    l.blocks.keys.card < 20 ∧
    (l.destination (Sample.hash params.genesisBlock) = none ∧
      l.destination (Sample.hash sendZero) = some accountB ∧
      l.destination (Sample.hash openB) = none) ∧
    (l.blockGet (Sample.hash openB)).map (Ledger.dependentBlocks params) =
      some (Sample.hash sendZero, 0) ∧
    l.blockExists (Sample.hash openB) ∧
    (cemented accountB openB l).blockConfirmed (Sample.hash openB) = some true ∧
    l.account (Sample.hash sendZero) = some params.genesisAccount ∧
    (∃ info ∈ l.accountGet params.genesisAccount, info.head = Sample.hash sendZero) ∧
    ∃ b ∈ l.blockGet (Sample.hash sendZero), b.block.hashables.type = .send := by
    decide +kernel
  have hblkd : (cemented accountB openB l).Blocked params
      (Sample.hash sendZero) := blocked_of_confirmed hdep (by decide +kernel) hex hconf
  have hrch : Reached params (· ∈ blocks) (NoForeignEpoch params) l :=
    reached_of_no_epochLink (by decide +kernel) hl
  -- the send to B is the only send
  have hsent : ∀ hash d, l.destination hash = some d → hash = Sample.hash sendZero := by
    intro hash d hd
    obtain ⟨b, hget, -⟩ := bind_eq_some_iff.1 hd
    have hmem := hst (Finset.mem_image.2 (mem_keys_of_blockGet hget))
    simp only [Finset.mem_insert, Finset.mem_singleton] at hmem
    rcases hmem with rfl | rfl | rfl
    · exact absurd (hgen.symm.trans hd) (by simp)
    · rfl
    · exact absurd (hopen.symm.trans hd) (by simp)
  have hleg : (cemented accountB openB l).LegacyBlocked params := by
    intro hash d hd _ _
    obtain rfl := hsent hash d hd
    exact ⟨_, info, b, hacc, hinfo, hhead ▸ hget, by simp [htype], hhead ▸ hblkd⟩
  have hmem : ∀ acc,
      acc ∈ (cemented accountB openB l).confirmationHeight ↔ acc ∈ l.accounts :=
    fun acc => by rw [← mem_keys, ← mem_keys, hkeys]
  obtain ⟨l', list', hrun, -⟩ := (failure_harmless_iff hashAssumptions hrch hmem).2
    hleg _ _ hsend hblkd 20 [] hf
  exact ⟨l, hl, l', list', hrun⟩

/-- The state send of B to A, whose receive is cemented: the rollback does not return an error, it
deletes a pending entry that is not there. -/
theorem failure_harmless_fails :
    ∃ l, Reached params (· ∈ blocks) (NoForeignEpoch params) l ∧
      (∀ acc, acc ∈ (cemented accountA openA l).confirmationHeight ↔ acc ∈ l.accounts) ∧
      l.destination (Sample.hash payA) = some accountA ∧
      (cemented accountA openA l).Blocked params
        (Sample.hash payA) ∧
      l.blocks.keys.card < 20 ∧
      (⟨accountA, Sample.hash payA⟩ : PendingKey) ∉ l.pending ∧
      Ledger.rollback params 20 (cemented accountA openA l) (Sample.hash payA) [] = none := by
  obtain ⟨l, hl, hkeys, hf, hdest, hdep, hex, hconf, hpend, hrun⟩ : ∃ l ∈ run pays,
    (cemented accountA openA l).confirmationHeight.keys = l.accounts.keys ∧
    l.blocks.keys.card < 20 ∧
    l.destination (Sample.hash payA) = some accountA ∧
    (l.blockGet (Sample.hash openA)).map (Ledger.dependentBlocks params) =
      some (Sample.hash payA, 0) ∧
    l.blockExists (Sample.hash openA) ∧
    (cemented accountA openA l).blockConfirmed (Sample.hash openA) = some true ∧
    (⟨accountA, Sample.hash payA⟩ : PendingKey) ∉ l.pending ∧
    (Ledger.rollback params 20 (cemented accountA openA l)
      (Sample.hash payA) []).isNone := by decide +kernel
  refine ⟨l, reached_of_no_epochLink (by decide +kernel) hl, fun acc => ?_, hdest,
    blocked_of_confirmed hdep (by decide +kernel) hex hconf, hf, hpend, isNone_iff_eq_none.1 hrun⟩
  rw [← mem_keys, ← mem_keys, hkeys]

end Futurehead
