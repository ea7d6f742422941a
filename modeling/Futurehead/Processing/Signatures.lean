import Futurehead.Ledger.Writes
import Futurehead.Processing.BlockProcessor

/-!
# Signatures of accepted blocks

The signature of a block is checked once: by the verification thread, against the account that the
peer claims, or by the ledger, against the account that the block belongs to. The ledger trusts the
tag of the thread.

Nothing here needs the lattice: the blocks that a peer sends may break it.
-/

namespace Futurehead

open List Bool

variable {account account' claimed : Account} {l l' : Ledger} {b : Block} {front : Bool}
  {i : UncheckedInfo} {s : BlockProcessor}

def Signed (p : Params) (account : Account) (b : Block) : Prop :=
  p.validateMessage account (p.hash b) b.signature = false

instance (p : Params) (account : Account) (b : Block) : Decidable (Signed p account b) :=
  inferInstanceAs (Decidable (_ = _))

/-- An accepted block of `account` is signed by the account, or is an epoch block signed by the
signer of the epoch, and it was said to belong to that account if anything was said. -/
structure Sound (p : Params) (l : Ledger) (info : UncheckedInfo) (account : Account) : Prop where
  signed : Signed p account info.block ∨ EpochBlock p l info.block ∧
    ∃ epoch, p.epochInfo info.block.hashables.link = some epoch ∧ Signed p epoch.signer info.block
  claimed : info.account = 0 ∨ info.account = account

/-! ## Owners of legacy blocks -/

section

variable (p : Params) (known : Block → Prop)

/-- The block with this hash is on a legacy chain of the account: the open block at its bottom names
the account. -/
inductive Owner : BlockHash → Account → Prop
  | first {b : Block} {source : BlockHash} {representative account : Account} :
      known b → b.hashables = .openBlock source representative account → Owner (p.hash b) account
  | next {b : Block} {account : Account} :
      known b → b.hashables.type ≠ BlockType.open → b.hashables.type ≠ .state →
      Owner b.hashables.previous account → Owner (p.hash b) account

/-- Only owners are in the frontier table. -/
def FrontiersOwned (l : Ledger) : Prop :=
  ∀ {hash account}, l.frontiers.lookup hash = some account → Owner p known hash account

/-- The account that a block belongs to in every ledger it can be put in. -/
def Home (b : Block) (account : Account) : Prop :=
  if b.hashables.type = BlockType.open ∨ b.hashables.type = .state then
    b.hashables.account = account
  else Owner p known b.hashables.previous account

/-- What a tag says about the signature of a block that is said to belong to `claimed`. -/
def Vouched (b : Block) (claimed : Account) : SignatureVerification → Prop
  | .valid => ∃ account, Signed p account b ∧
      (claimed ≠ 0 ∧ account = claimed ∨ Home p known b account)
  | .validEpoch => ∃ epoch, p.epochInfo b.hashables.link = some epoch ∧ Signed p epoch.signer b
  | _ => True

variable {p known}
  {result : ProcessReturn}

theorem Owner.unique (H : HashAssumptions p known) {hash : BlockHash}
    (h : Owner p known hash account) (h' : Owner p known hash account') : account = account' := by
  generalize hx : hash = x at h'
  induction h generalizing x with
  | first hb heq =>
    cases h' with
    | first hb' heq' =>
      have hh := Hashables.eq_of_hashInput (H.collisionFree hb hb' hx) (.inl (by rw [heq]; rfl))
      rw [heq, heq'] at hh
      cases hh
      rfl
    | next hb' ho hs hprev =>
      have hh := Hashables.eq_of_hashInput (H.collisionFree hb hb' hx) (.inl (by rw [heq]; rfl))
      rw [← hh, heq] at ho
      exact absurd rfl ho
  | next hb ho hs hprev ih =>
    cases h' with
    | first hb' heq' =>
      have hh := Hashables.eq_of_hashInput (H.collisionFree hb' hb hx.symm) (.inl (by rw [heq']; rfl))
      rw [← hh, heq'] at ho
      exact absurd rfl ho
    | next hb' ho' hs' hprev' =>
      exact ih _ (Hashables.hashInput_previous (H.collisionFree hb hb' hx)) hprev'

theorem Home.unique (H : HashAssumptions p known)
    (h : Home p known b account) (h' : Home p known b account') : account = account' := by
  unfold Home at h h'
  split at h
  · rename_i hc
    rw [if_pos hc] at h'
    exact h.symm.trans h'
  · rename_i hc
    rw [if_neg hc] at h'
    exact h.unique H h'

theorem home_of_owner (h : b.hashables.type ≠ BlockType.open → b.hashables.type ≠ .state →
    Owner p known b.hashables.previous (l.home b)) : Home p known b (l.home b) := by
  unfold Home
  split
  · rename_i hnamed
    unfold Ledger.home
    cases hh : b.hashables <;> simp_all [Hashables.type, Hashables.account]
  · rename_i hleg
    exact h (not_or.1 hleg).1 (not_or.1 hleg).2

/-! ## What the ledger returns -/

theorem Tags.vouched {tag tag' : SignatureVerification} (h : Tags p l b tag tag')
    (howned : FrontiersOwned p known l) (htag : Vouched p known b claimed tag) :
    Vouched p known b claimed tag' := by
  cases h with
  | given => exact htag
  | valid signed placed =>
    rcases or_eq_true_iff.1 signed with hv | hv
    · rw [eq_of_beq hv] at htag
      exact htag
    · refine ⟨l.home b, eq_false_of_not_eq_true' hv, .inr (home_of_owner fun ho hs => ?_)⟩
      rw [home_legacy ho hs]
      exact howned (lookup_of_frontierGet ((placed.resolve_left ho).resolve_left hs))
  | epoch info signed =>
    rcases or_eq_true_iff.1 signed with hv | hv
    · rw [eq_of_beq hv] at htag
      exact htag
    · exact ⟨_, info, eq_false_of_not_eq_true' hv⟩
  | invalid => trivial

theorem FrontiersOwned.writes (h : FrontiersOwned p known l) (hw : Writes p l b (l.home b) l')
    (hkn : known b) : FrontiersOwned p known l' := by
  intro hash account hlk
  rcases hw.frontiers hlk with ⟨hsta, rfl, rfl⟩ | ⟨hold, -⟩
  · by_cases hopen : b.hashables.type = BlockType.open
    · cases hb : b.hashables with
      | openBlock source rep account =>
        rw [home_open hb]
        exact .first hkn hb
      | _ => rw [hb] at hopen; cases hopen
    · exact .next hkn hopen hsta (h (hw.legacy hopen hsta).2)
  · exact h hold

end

/-- What is returned for a block that is said to belong to `claimed`. -/
structure Settled (p : Params) (known : Block → Prop) (l : Ledger) (b : Block) (claimed : Account)
    (r : ProcessReturn) (l' : Ledger) : Prop where
  tagged : Vouched p known b claimed r.verified
  owned : FrontiersOwned p known l'
  accepted : r.code = .progress → r.account = l.home b ∧ Home p known b r.account ∧
    l'.latest r.account = p.hash b ∧
      (r.verified = .valid ∨ r.verified = .validEpoch ∧ EpochBlock p l b)

theorem process_settled {p : Params} {known : Block → Prop} (H : HashAssumptions p known)
    {verification : SignatureVerification}
    (hkn : known b) (howned : FrontiersOwned p known l)
    (htag : Vouched p known b claimed verification) :
    Returns (l.process p b verification) (Settled p known l b claimed) := by
  intro r l' hproc
  rcases process_writes (H.ne_zero hkn) verification r l' hproc with ⟨hr, rfl⟩ | ⟨hr, hw⟩
  · exact ⟨hr.tags.vouched howned htag, howned, fun hcode => absurd hcode hr.code⟩
  · refine ⟨hr.tags.vouched howned htag, howned.writes hw hkn, fun _ =>
      ⟨hr.account, ?_, ?_, hr.verified⟩⟩
    · rw [hr.account]
      exact home_of_owner fun ho hs => howned (hw.legacy ho hs).2
    · obtain ⟨info, hhead, haccs⟩ := hw.accounts
      rw [hr.account, Ledger.latest, haccs, if_pos rfl]
      exact hhead

/-! ## The queues -/

namespace BlockProcessor

variable {p : Params} {fullSize : Nat} {known : Block → Prop} {s' : BlockProcessor}
  {info : UncheckedInfo}

/-- The account of the block is named, by it or by the peer. -/
def Named (info : UncheckedInfo) : Prop :=
  info.block.hashables.type = .state ∨ info.block.hashables.type = BlockType.open ∨ info.account ≠ 0

/-- What holds of everything that waits. -/
structure Tagged (p : Params) (known : Block → Prop) (s : BlockProcessor) : Prop where
  owned : FrontiersOwned p known s.ledger
  known_of : ∀ info, s.Carries info → known info.block
  vouched : ∀ info, s.Carries info → Vouched p known info.block info.account info.verified
  named : ∀ info ∈ s.stateBlocks, Named info

theorem add_stateBlocks
    (h : i ∈ (s.add fullSize info front).stateBlocks) :
    i ∈ s.stateBlocks ∨ i = info ∧ Named info := by
  unfold add at h
  dsimp only at h
  split at h
  · rename_i hc
    rcases mem_append.1 h with h | h
    · exact .inl h
    · exact .inr ⟨mem_singleton.1 h, hc.2⟩
  · split at h <;> exact .inl h

theorem Tagged.add (h : Tagged p known s) (hkn : known info.block)
    (htag : Vouched p known info.block info.account info.verified) :
    Tagged p known (s.add fullSize info front) where
  owned := by rw [add_ledger]; exact h.owned
  known_of i hi := by
    rcases carries_add.1 hi with rfl | hi
    · exact hkn
    · exact h.known_of i hi
  vouched i hi := by
    rcases carries_add.1 hi with rfl | hi
    · exact htag
    · exact h.vouched i hi
  named i hi := by
    rcases add_stateBlocks hi with hi | ⟨rfl, hnamed⟩
    · exact h.named i hi
    · exact hnamed

theorem vouched_of_verify (hi : verify p info = some i)
    (hnamed : Named info) :
    i.block = info.block ∧ Vouched p known i.block i.account i.verified := by
  unfold verify at hi
  dsimp only at hi
  split at hi
  · cases hi
    refine ⟨rfl, ?_⟩
    dsimp only
    split
    · rename_i hlink hval
      unfold signer at hval
      split at hval
      · rename_i epoch hep
        exact ⟨epoch, hep, eq_false_of_not_eq_true' hval⟩
      · rename_i hep
        exact absurd hlink (by simpa [Params.isEpochLink, Params.epochInfo] using hep)
    · trivial
  · split at hi
    · rename_i hlink hval
      cases hi
      refine ⟨rfl, ?_⟩
      unfold signer at hval
      rw [epochInfo_eq_none (eq_false_of_not_eq_true hlink)] at hval
      have hsig : Signed p (if info.account ≠ 0 then info.account
          else info.block.hashables.account) info.block := eq_false_of_not_eq_true' hval
      by_cases hclm : info.account = 0
      · rw [if_neg (not_not.2 hclm)] at hsig
        refine ⟨info.block.hashables.account, hsig, .inr ?_⟩
        unfold Home
        rw [if_pos]
        rcases hnamed with ht | ht | hne
        · exact .inr ht
        · exact .inl ht
        · exact absurd hclm hne
      · rw [if_pos hclm] at hsig
        exact ⟨info.account, hsig, .inl ⟨hclm, rfl⟩⟩
    · cases hi

theorem Tagged.verifyStateBlocks (h : Tagged p known s) (count : Nat) :
    Tagged p known (s.verifyStateBlocks p count) := by
  have hcar {i : UncheckedInfo} (hi : (s.verifyStateBlocks p count).Carries i) :
      s.Carries i ∨ ∃ info ∈ s.stateBlocks, verify p info = some i := by
    rcases hi with hi | hi | hi
    · exact .inl (.inl (mem_of_mem_drop hi))
    · rcases mem_append.1 hi with hi | hi
      · exact .inl (.inr (.inl hi))
      · obtain ⟨info, hinfo, hver⟩ := mem_filterMap.1 hi
        exact .inr ⟨info, mem_of_mem_take hinfo, hver⟩
    · exact .inl (.inr (.inr hi))
  refine ⟨h.owned, fun i hi => ?_, fun i hi => ?_, fun i hi => h.named i (mem_of_mem_drop hi)⟩
  · rcases hcar hi with hi | ⟨info, hinfo, hver⟩
    · exact h.known_of i hi
    · have hv : i.block = info.block ∧ Vouched p known i.block i.account i.verified :=
        vouched_of_verify hver (h.named info hinfo)
      rw [hv.1]
      exact h.known_of info (.inl hinfo)
  · rcases hcar hi with hi | ⟨info, hinfo, hver⟩
    · exact h.vouched i hi
    · exact (vouched_of_verify hver (h.named info hinfo)).2

theorem Tagged.queueUnchecked (h : Tagged p known s) (hash : BlockHash) :
    Tagged p known (s.queueUnchecked fullSize hash) where
  owned := by rw [queueUnchecked_ledger]; exact h.owned
  known_of i hi := h.known_of i (carries_queueUnchecked.1 hi)
  vouched i hi := h.vouched i (carries_queueUnchecked.1 hi)
  named := by
    refine queueUnchecked_induct (I := fun s => ∀ info ∈ s.stateBlocks, Named info) h.named ?_
    intro s entry ih _ _ i hi
    rcases add_stateBlocks hi with hi | ⟨rfl, hnamed⟩
    · exact ih i hi
    · exact hnamed

theorem Tagged.uncheckedPut (h : Tagged p known s) {verified : SignatureVerification}
    (hkn : known info.block) (htag : Vouched p known info.block info.account verified)
    (missing : BlockHash) : Tagged p known (s.uncheckedPut p missing info verified) := by
  have hcar {i : UncheckedInfo} (hi : (s.uncheckedPut p missing info verified).Carries i) :
      s.Carries i ∨ i = { info with verified := verified } := by
    rcases hi with hi | hi | ⟨key, hi⟩
    · exact .inl (.inl hi)
    · exact .inl (.inr (.inl hi))
    · unfold BlockProcessor.uncheckedPut at hi
      by_cases hkey : key = ⟨missing, p.hash info.block⟩
      · rw [hkey, AList.lookup_insert] at hi
        exact .inr (Option.some.inj hi).symm
      · rw [AList.lookup_insert_ne hkey] at hi
        exact .inl (.inr (.inr ⟨key, hi⟩))
  refine ⟨h.owned, fun i hi => ?_, fun i hi => ?_, h.named⟩
  · rcases hcar hi with hi | rfl
    · exact h.known_of i hi
    · exact hkn
  · rcases hcar hi with hi | rfl
    · exact h.vouched i hi
    · exact htag

theorem Tagged.processOne (H : HashAssumptions p known) (h : Tagged p known s)
    (hkn : known info.block) (htag : Vouched p known info.block info.account info.verified)
    (hstep : s.processOne p fullSize info = some s') : Tagged p known s' := by
  obtain ⟨⟨r, l⟩, hproc, hstep⟩ := Option.bind_eq_some_iff.1 hstep
  have hr := process_settled H hkn h.owned htag r l hproc
  have hl : Tagged p known { s with ledger := l } := ⟨hr.owned, h.known_of, h.vouched, h.named⟩
  dsimp only at hstep
  split at hstep
  · split at hstep
    · cases hstep
      exact hl.queueUnchecked _
    · cases hstep
  · cases hstep
    exact hl.uncheckedPut hkn hr.tagged _
  · obtain ⟨source, -, hstep⟩ := Option.bind_eq_some_iff.1 hstep
    cases hstep
    exact hl.uncheckedPut hkn hr.tagged _
  · cases hstep
    exact hl

theorem Tagged.exec (H : HashAssumptions p known) (h : Tagged p known s) {event : Event}
    (hgiv : event.Given known) (hstep : s.exec p fullSize event = some s') : Tagged p known s' := by
  cases event with
  | add block account =>
    cases hstep
    exact h.add hgiv trivial
  | verify count =>
    cases hstep
    exact h.verifyStateBlocks count
  | process =>
    unfold BlockProcessor.exec at hstep
    dsimp only at hstep
    split at hstep
    · cases hstep
      exact h
    · rename_i info blocks hbs
      have hinfo : s.Carries info := .inr (.inl (by rw [hbs]; exact mem_cons_self))
      have hrest {i : UncheckedInfo} (hi : { s with blocks := blocks }.Carries i) : s.Carries i :=
        hi.imp_right fun hi => hi.imp_left fun hi => by
          rw [hbs]
          exact mem_cons_of_mem _ hi
      have h' : Tagged p known { s with blocks := blocks } :=
        ⟨h.owned, fun i hi => h.known_of i (hrest hi), fun i hi => h.vouched i (hrest hi), h.named⟩
      exact h'.processOne H (h.known_of info hinfo) (h.vouched info hinfo) hstep

theorem genesis_tagged (H : HashAssumptions p known)
    (hl : Ledger.genesis p = some l) : Tagged p known { ledger := l } := by
  have hemp {i : UncheckedInfo} (hi : BlockProcessor.Carries { ledger := l } i) : False := by
    rcases hi with hi | hi | ⟨key, hi⟩
    · cases hi
    · cases hi
    · cases hi
  refine ⟨fun {hash account} hlk => ?_, fun i hi => (hemp hi).elim, fun i hi => (hemp hi).elim,
    fun i hi => by cases hi⟩
  rw [genesis_eq] at hl
  cases hl
  rw [Finmap.lookup_insert_eq] at hlk
  split at hlk
  · rename_i hhash
    cases hlk
    rw [hhash]
    exact .first H.genesis rfl
  · cases hlk

theorem Reached.tagged (H : HashAssumptions p known) (h : Reached p fullSize known s) :
    Tagged p known s := by
  obtain ⟨l, hl, hrun⟩ := h
  exact hrun.invariant (genesis_tagged H hl) fun _ _ _ ih hgiv hstep => ih.exec H hgiv hstep

/-- The account that is said with a block is the one it belongs to, if one is said. -/
def Attributed (l : Ledger) (info : UncheckedInfo) : Prop :=
  info.account = 0 ∨ info.account = l.home info.block

/-- Whenever the ledger accepts the next block, it becomes the head of the account that the ledger
returns. It is then signed as that account demands, and the node does not stop, exactly if the peer
attributed it to the right account or to none. -/
theorem accepted_sound_iff (H : HashAssumptions p known) (hs : Reached p fullSize known s)
    {rest : List UncheckedInfo} (hnext : s.blocks = info :: rest) {r : ProcessReturn}
    (hproc : s.ledger.process p info.block info.verified = some (r, l'))
    (hcode : r.code = .progress) :
    l'.latest r.account = p.hash info.block ∧
      (Sound p s.ledger info r.account ↔ Attributed s.ledger info) := by
  have h := hs.tagged H
  have hinfo : s.Carries info := .inr (.inl (by rw [hnext]; exact mem_cons_self))
  have hr := process_settled H (h.known_of info hinfo) h.owned (h.vouched info hinfo) r l' hproc
  obtain ⟨hacc, hhome, hlat, hverified⟩ := hr.accepted hcode
  refine ⟨hlat, fun hsnd => ?_, fun hattr => ⟨?_, ?_⟩⟩
  · unfold Attributed
    rw [← hacc]
    exact hsnd.claimed
  · have htag := hr.tagged
    rcases hverified with hv | ⟨hv, hep⟩
    · rw [hv] at htag
      obtain ⟨account, hsig, ⟨hne, rfl⟩ | hhome'⟩ := htag
      · rw [hacc, ← hattr.resolve_left hne]
        exact .inl hsig
      · rw [hhome.unique H hhome']
        exact .inl hsig
    · rw [hv] at htag
      exact .inr ⟨hep, htag⟩
  · rw [hacc]
    exact hattr

end BlockProcessor

namespace Sample

/-- The network with signatures: an account signs with its own number. -/
def signing : Params :=
  { params with validateMessage := fun account _ signature => signature != account.setWidth 512 }

def spend (signature : Signature) : Block :=
  ⟨.stateBlock 1 (hash params.genesisBlock) 1 (genesisAmount - 1) accountB, signature, 0⟩

def spends : List Block := [params.genesisBlock, spend 1, spend 7]

theorem signingAssumptions : HashAssumptions signing (· ∈ spends) :=
  hashAssumptions_of_list (by decide +kernel) (by decide) (by decide +kernel)

/-- A block that a peer attributes to an account arrives and its signature is checked. -/
def arrives (b : Block) (account : Account) : Option BlockProcessor :=
  (Ledger.genesis signing).bind fun l =>
    BlockProcessor.execAll signing 65536 [.add b account, .verify 1] { ledger := l }

theorem arrives_reached
    (h : arrives b account = some s) (hb : b ∈ spends) : s.Reached signing 65536 (· ∈ spends) :=
  BlockProcessor.reached_of_execAll (by simpa [BlockProcessor.Event.Given] using hb) h

end Sample

open Sample

theorem accepted_sound_spend : ∃ s r l', arrives (spend 1) 1 = some s ∧
    s.blocks = [⟨spend 1, 1, .valid⟩] ∧
    s.ledger.process signing (spend 1) .valid = some (r, l') ∧
    Sound signing s.ledger ⟨spend 1, 1, .valid⟩ r.account := by
  obtain ⟨s, hs, hbs, ⟨r, l'⟩, hproc, hcode⟩ : ∃ s ∈ arrives (spend 1) 1,
    s.blocks = [⟨spend 1, 1, .valid⟩] ∧
    ∃ x ∈ s.ledger.process signing (spend 1) .valid, x.1.code = .progress := by
    decide +kernel
  refine ⟨s, r, l', hs, hbs, hproc, ?_⟩
  exact (BlockProcessor.accepted_sound_iff signingAssumptions
    (arrives_reached hs (by decide +kernel)) hbs hproc hcode).2.2 (.inr rfl)

/-- A block of the genesis account that account 7 signed, and that a peer attributes to account 7,
is accepted, and the node stops. -/
theorem accepted_sound_fails : HashAssumptions signing (· ∈ spends) ∧
    ∃ (s : BlockProcessor) (info : UncheckedInfo) (r : ProcessReturn) (l' : Ledger),
      s.Reached signing 65536 (· ∈ spends) ∧ s.blocks = [info] ∧
      s.ledger.process signing info.block info.verified = some (r, l') ∧
      r.code = .progress ∧ ¬ Signed signing r.account info.block ∧
      ¬ Sound signing s.ledger info r.account ∧ (s.exec signing 65536 .process).isNone := by
  obtain ⟨s, hs, hbs, ⟨⟨r, l'⟩, hproc, hcode, hacc⟩, hstop⟩ :
    ∃ s ∈ arrives (spend 7) 7, s.blocks = [⟨spend 7, 7, .valid⟩] ∧
    (∃ x ∈ s.ledger.process signing (spend 7) .valid, x.1.code = .progress ∧ x.1.account = 1) ∧
    (s.exec signing 65536 .process).isNone := by decide +kernel
  refine ⟨signingAssumptions, s, _, r, l', arrives_reached hs (by decide +kernel),
    hbs, hproc, hcode, ?_, fun hsnd => ?_, hstop⟩
  · dsimp only at hacc
    rw [hacc]
    decide +kernel
  · have hclm := hsnd.claimed
    dsimp only at hacc
    rw [hacc] at hclm
    exact absurd hclm (by decide)

end Futurehead
