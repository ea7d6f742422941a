import Futurehead.Voting.Activation
import Futurehead.Wallet.Representatives

/-!
# Answering vote requests (`request_aggregator`)

A batch of requested hashes with their roots is cleared of repeated hashes. Each request without
cached votes is resolved to a block: the winner of an election with the hash, the block with the
hash, or the block at the root. The hashes of the blocks the node can vote for go into votes of
twelve at most, one of each local representative. Two requests can be resolved to one block, and an
account can be a representative in two wallets. `votes_well_formed_iff` says that the votes are well
formed exactly if neither happens.
-/

namespace Futurehead

open List BitVec

/-! ## The aggregator -/

/-- A block as the node holds it in memory, where the sideband may not have been set. -/
structure HeldBlock where
  block : Block
  sideband : Option Sideband

/-- `ledger::dependent_blocks`. Without a sideband, the balance of the previous block says whether a
state block is a send. -/
def HeldBlock.dependentBlocks (p : Params) (l : Ledger) (b : HeldBlock) :
    Option (BlockHash × BlockHash) :=
  match b.sideband, b.block.hashables with
  | none, .stateBlock _ previous _ balance link =>
    if p.isEpochLink link then some (previous, 0)
    else if l.blockExists previous ∧ previous ≠ 0 then
      (l.balance previous).map fun before => (previous, if balance < before then 0 else link)
    else some (previous, link)
  | sideband, _ => some (Ledger.dependentBlocks p ⟨b.block, sideband.getD {}⟩)

/-- `ledger::can_vote`. -/
def HeldBlock.canVote (p : Params) (l : Ledger) (b : HeldBlock) : Option Bool := do
  let hashes ← b.dependentBlocks p l
  let confirmed ← l.dependencyConfirmed hashes.1
  if confirmed then l.dependencyConfirmed hashes.2 else return false

/-- The hash of a block, and its root. -/
abbrev VoteRequest := BlockHash × Root

/-- `std::unique` by hash. -/
def uniqueRequests : List VoteRequest → List VoteRequest
  | [] => []
  | r :: requests =>
    match uniqueRequests requests with
    | [] => [r]
    | r' :: unique => if r.1 = r'.1 then r :: unique else r :: r' :: unique

/-- `erase_duplicates`. The sort is not stable: requests for one hash end up in any order. -/
def EraseDuplicates (requests unique : List VoteRequest) : Prop :=
  ∃ sorted : List VoteRequest, sorted.Perm requests ∧ sorted.Pairwise (·.1 ≤ ·.1) ∧
    unique = uniqueRequests sorted

/-- What `aggregate` reads. -/
structure VoteSnapshot where
  ledger : Ledger
  /-- There are votes for the hash in the votes cache. -/
  cached : BlockHash → Bool
  /-- `active.winner`: the winner of the election that has a block with the hash. -/
  winner : BlockHash → Option HeldBlock

namespace VoteSnapshot

variable (p : Params) (s : VoteSnapshot)

/-- A block of the ledger. -/
def stored (hash : BlockHash) : Option HeldBlock :=
  (s.ledger.blockGet hash).map fun b => ⟨b.block, some b.sideband⟩

/-- The block at a root: the successor of a block, or the open block of an account. -/
def successor (root : Root) : BlockHash :=
  let successor := s.ledger.blockSuccessor root
  if successor = 0 then ((s.ledger.accountGet root).map (·.openBlock)).getD 0 else successor

/-- The block that a request is answered with, unless its votes are cached. -/
def resolve (request : VoteRequest) : Option HeldBlock :=
  if s.cached request.1 then none
  else
    match s.winner request.1 with
    | some b => some b
    | none =>
      match s.stored request.1 with
      | some b => some b
      | none =>
        if request.2 ≠ 0 ∧ s.successor request.2 ≠ 0 ∧ ¬ s.cached (s.successor request.2) then
          s.stored (s.successor request.2)
        else none

/-- `aggregate`: the hashes to generate votes for. -/
def aggregate : List VoteRequest → Option (List BlockHash)
  | [] => some []
  | request :: requests =>
    match s.resolve request with
    | none => aggregate requests
    | some b => do
      let canVote ← b.canVote p s.ledger
      let hashes ← aggregate requests
      some (if canVote then p.hash b.block :: hashes else hashes)

end VoteSnapshot

/-- A vote as far as its account and its hashes go. -/
structure GeneratedVote where
  account : Account
  hashes : List BlockHash
  deriving DecidableEq

/-- The account of a vote, and the hashes it names. -/
def Vote.generated (digest : Bytes → BlockHash) (vote : Vote) : GeneratedVote :=
  ⟨vote.account, vote.hashes digest⟩

/-- The votes for a list of hashes: batch by batch, one of each account. -/
def batchVotes (accounts : List Account) : Nat → List BlockHash → List GeneratedVote
  | 0, _ => []
  | fuel + 1, hashes =>
    if hashes = [] then []
    else accounts.map (⟨·, hashes.take confirmAckHashesMax⟩) ++
      batchVotes accounts fuel (hashes.drop confirmAckHashesMax)

/-- The accounts of a wallet that `foreach_representative` visits. -/
def Wallet.visits (c : Crypto) (node : VotingNode) (wallet : Wallet) : List Account :=
  wallet.representatives.filter fun account =>
    wallet.store.accountExists account ∧ node.weight account ≠ 0 ∧ wallet.store.validPassword c

/-- The accounts of all wallets that `foreach_representative` visits. -/
def Wallets.voters (c : Crypto) (node : VotingNode) (wallets : Wallets) : List Account :=
  if node.enableVoting then wallets.items.flatMap (·.visits c node) else []

/-! ## The generated votes -/

/-- A request is resolved to a block with this hash, and `can_vote` held for the block. -/
def VoteSnapshot.VotesFor (p : Params) (s : VoteSnapshot) (request : VoteRequest)
    (hash : BlockHash) : Prop :=
  ∃ b, s.resolve request = some b ∧ b.canVote p s.ledger = some true ∧ p.hash b.block = hash

/-- A request of the batch names a block for which `can_vote` held. -/
def VoteSnapshot.Votable (p : Params) (s : VoteSnapshot) (requests : List VoteRequest)
    (hash : BlockHash) : Prop :=
  ∃ request ∈ requests, s.VotesFor p request hash

/-- No two requests are resolved to votable blocks of one hash. -/
def VoteSnapshot.ResolvesApart (p : Params) (s : VoteSnapshot) (requests : List VoteRequest) : Prop :=
  requests.Pairwise fun r r' => ∀ hash, s.VotesFor p r hash → ¬ s.VotesFor p r' hash

/-- No account is visited in two wallets. -/
def Wallets.VisitsApart (c : Crypto) (node : VotingNode) (wallets : Wallets) : Prop :=
  wallets.items.Pairwise fun wallet wallet' =>
    (wallet.visits c node).Disjoint (wallet'.visits c node)

/-- No hash is in two votes of an account. -/
def VotesDisjoint (votes : List GeneratedVote) : Prop :=
  votes.Pairwise fun v w => v.account = w.account → v.hashes.Disjoint w.hashes

/-- What is claimed of the votes for a batch. -/
structure VotesWellFormed (p : Params) (s : VoteSnapshot) (requests : List VoteRequest)
    (votes : List GeneratedVote) : Prop where
  size : ∀ vote ∈ votes, 1 ≤ vote.hashes.length ∧ vote.hashes.length ≤ confirmAckHashesMax
  distinct : ∀ vote ∈ votes, vote.hashes.Nodup
  votable : ∀ vote ∈ votes, ∀ hash ∈ vote.hashes, s.Votable p requests hash
  once : VotesDisjoint votes

section

variable {p : Params} {s : VoteSnapshot} {requests unique : List VoteRequest}
  {hashes : List BlockHash} {request : VoteRequest}

theorem VoteSnapshot.VotesFor.hash_eq {hash hash' : BlockHash} (h : s.VotesFor p request hash)
    (h' : s.VotesFor p request hash') : hash = hash' := by
  obtain ⟨b, hb, -, rfl⟩ := h
  obtain ⟨b', hb', -, rfl⟩ := h'
  rw [Option.some.inj (hb.symm.trans hb')]

theorem VoteSnapshot.aggregate_cons (h : s.aggregate p (request :: requests) = some hashes) :
    ∃ rest, s.aggregate p requests = some rest ∧
      ((hashes = rest ∧ ∀ hash, ¬ s.VotesFor p request hash) ∨
        ∃ hash, s.VotesFor p request hash ∧ hashes = hash :: rest) := by
  rw [VoteSnapshot.aggregate] at h
  cases hres : s.resolve request with
  | none =>
    rw [hres] at h
    exact ⟨hashes, h, .inl ⟨rfl, fun hash ⟨b, hb, _⟩ => by cases hres.symm.trans hb⟩⟩
  | some b =>
    rw [hres] at h
    simp only [Option.bind_eq_bind, Option.bind_eq_some_iff, Option.some.injEq] at h
    obtain ⟨canVote, hvote, rest, ha, rfl⟩ := h
    refine ⟨rest, ha, ?_⟩
    cases canVote with
    | false =>
      refine .inl ⟨rfl, fun hash ⟨b', hb', hvote', _⟩ => ?_⟩
      obtain rfl := Option.some.inj (hres.symm.trans hb')
      cases hvote.symm.trans hvote'
    | true => exact .inr ⟨_, ⟨b, hres, hvote, rfl⟩, rfl⟩

theorem VoteSnapshot.mem_aggregate (h : s.aggregate p requests = some hashes) {hash : BlockHash} :
    hash ∈ hashes ↔ s.Votable p requests hash := by
  induction requests generalizing hashes with
  | nil =>
    obtain rfl := Option.some.inj h
    simp [Votable]
  | cons request requests ih =>
    rw [Votable, exists_mem_cons_iff]
    obtain ⟨rest, ha, ⟨rfl, hnone⟩ | ⟨hash', hvs, rfl⟩⟩ := aggregate_cons h
    · rw [or_iff_right (hnone hash)]
      exact ih ha
    · rw [mem_cons, ih ha]
      refine or_congr_left ⟨?_, fun h => h.hash_eq hvs⟩
      rintro rfl
      exact hvs

theorem VoteSnapshot.nodup_aggregate (h : s.aggregate p requests = some hashes) :
    hashes.Nodup ↔ s.ResolvesApart p requests := by
  induction requests generalizing hashes with
  | nil =>
    obtain rfl := Option.some.inj h
    simp [ResolvesApart]
  | cons request requests ih =>
    rw [ResolvesApart, pairwise_cons]
    obtain ⟨rest, ha, ⟨rfl, hnone⟩ | ⟨hash, hvs, rfl⟩⟩ := aggregate_cons h
    · rw [ih ha]
      exact (and_iff_right fun r hr hash hvs => absurd hvs (hnone hash)).symm
    · rw [nodup_cons, ih ha, mem_aggregate ha]
      refine and_congr_left fun _ => ⟨fun hnot r hr hash' hvs' hr' => hnot ⟨r, hr, ?_⟩, ?_⟩
      · rwa [hvs.hash_eq hvs']
      · rintro happart ⟨r, hr, hr'⟩
        exact happart r hr hash hvs hr'

theorem uniqueRequests_sublist : (uniqueRequests requests).Sublist requests := by
  induction requests with
  | nil => exact .slnil
  | cons r requests ih =>
    rw [uniqueRequests]
    split <;> rename_i heq <;> rw [heq] at ih
    · exact ih.cons_cons r
    · split
      · exact ((sublist_cons_self ..).trans ih).cons_cons r
      · exact ih.cons_cons r

theorem uniqueRequests_sorted (h : requests.Pairwise (·.1 ≤ ·.1)) :
    (uniqueRequests requests).Pairwise (·.1 < ·.1) := by
  induction requests with
  | nil => exact .nil
  | cons r requests ih =>
    obtain ⟨hle, hrest⟩ := pairwise_cons.1 h
    have hlt := ih hrest
    have hsub : uniqueRequests requests ⊆ requests := uniqueRequests_sublist.subset
    rw [uniqueRequests]
    split
    · exact pairwise_singleton ..
    · rename_i r' unique heq
      rw [heq] at hlt hsub
      have hr' := hle r' (hsub (mem_cons_self ..))
      obtain ⟨hhead, htail⟩ := pairwise_cons.1 hlt
      split
      · rename_i hsame
        exact pairwise_cons.2 ⟨fun x hx => hsame ▸ hhead x hx, htail⟩
      · rename_i hne
        have hlt' : r.1 < r'.1 := by
          have : r.1.toNat ≠ r'.1.toNat := fun heq => hne (eq_of_toNat_eq heq)
          rw [le_def] at hr'
          rw [lt_def]
          omega
        refine pairwise_cons.2 ⟨fun x hx => ?_, hlt⟩
        rcases mem_cons.1 hx with rfl | hx
        · exact hlt'
        · exact BitVec.lt_trans hlt' (hhead x hx)

theorem EraseDuplicates.nodup (h : EraseDuplicates requests unique) : (unique.map (·.1)).Nodup := by
  obtain ⟨sorted, -, hsorted, rfl⟩ := h
  rw [List.Nodup, pairwise_map]
  refine (uniqueRequests_sorted hsorted).imp fun hlt heq => ?_
  rw [heq] at hlt
  exact BitVec.lt_irrefl _ hlt

end

section

variable {accounts : List Account} {fuel : Nat} {hashes : List BlockHash}
  {vote : GeneratedVote}

theorem mem_batchVotes (h : vote ∈ batchVotes accounts fuel hashes) :
    vote.account ∈ accounts ∧ vote.hashes ≠ [] ∧
      vote.hashes.length ≤ confirmAckHashesMax ∧ vote.hashes.Sublist hashes := by
  induction fuel generalizing hashes with
  | zero => cases h
  | succ fuel ih =>
    rw [batchVotes] at h
    split at h
    · cases h
    · rename_i hne
      rcases mem_append.1 h with h | h
      · obtain ⟨acc, hmem, rfl⟩ := mem_map.1 h
        refine ⟨hmem, ?_, length_take_le .., take_sublist ..⟩
        simpa [confirmAckHashesMax] using hne
      · obtain ⟨hmem, hnil, hlen, hsub⟩ := ih h
        exact ⟨hmem, hnil, hlen, hsub.trans (drop_sublist ..)⟩

theorem exists_vote {acc : Account} (hacc : acc ∈ accounts) {hash : BlockHash}
    (hhash : hash ∈ hashes) (hfuel : hashes.length ≤ fuel) :
    ∃ vote ∈ batchVotes accounts fuel hashes, vote.account = acc ∧ hash ∈ vote.hashes := by
  induction fuel generalizing hashes with
  | zero => exact absurd (length_pos_of_mem hhash) (by omega)
  | succ fuel ih =>
    rw [batchVotes, if_neg (ne_nil_of_mem hhash)]
    rw [← take_append_drop confirmAckHashesMax hashes, mem_append] at hhash
    rcases hhash with hhash | hhash
    · exact ⟨_, mem_append_left _ (mem_map_of_mem hacc), rfl, hhash⟩
    · have hlen : (hashes.drop confirmAckHashesMax).length ≤ fuel := by
        rw [length_drop, confirmAckHashesMax]
        omega
      obtain ⟨vote, hvote, h⟩ := ih hhash hlen
      exact ⟨vote, mem_append_right _ hvote, h⟩

theorem votesDisjoint_batchVotes (hreps : accounts.Nodup) (hnd : hashes.Nodup) :
    VotesDisjoint (batchVotes accounts fuel hashes) := by
  induction fuel generalizing hashes with
  | zero => exact .nil
  | succ fuel ih =>
    rw [batchVotes]
    split
    · exact .nil
    · refine pairwise_append.2 ⟨?_, ih (hnd.sublist (drop_sublist ..)), ?_⟩
      · exact pairwise_map.2 (hreps.imp fun hne heq => absurd heq hne)
      · intro v hv w hw _
        obtain ⟨acc, -, rfl⟩ := mem_map.1 hv
        obtain ⟨-, -, -, hsub⟩ := mem_batchVotes hw
        rw [← take_append_drop confirmAckHashesMax hashes] at hnd
        exact fun hash hl hr => disjoint_of_nodup_append hnd hl (hsub.subset hr)

theorem nodup_of_votesDisjoint (hreps : accounts ≠ []) (hfuel : hashes.length ≤ fuel)
    (hdist : ∀ vote ∈ batchVotes accounts fuel hashes, vote.hashes.Nodup)
    (h : VotesDisjoint (batchVotes accounts fuel hashes)) :
    hashes = [] ∨ hashes.Nodup ∧ accounts.Nodup := by
  induction fuel generalizing hashes with
  | zero => exact .inl (length_eq_zero_iff.1 (by omega))
  | succ fuel ih =>
    by_cases hnil : hashes = []
    · exact .inl hnil
    · obtain ⟨acc, hacc⟩ := exists_mem_of_ne_nil _ hreps
      have hlen : (hashes.drop confirmAckHashesMax).length ≤ fuel := by
        rw [length_drop, confirmAckHashesMax]
        omega
      rw [batchVotes, if_neg hnil] at h hdist
      obtain ⟨hfst, hrest, hcross⟩ := pairwise_append.1 h
      have htake : (hashes.take confirmAckHashesMax).Nodup :=
        hdist _ (mem_append_left _ (mem_map_of_mem hacc))
      have hdrop : (hashes.drop confirmAckHashesMax).Nodup := by
        rcases ih hlen (fun v hv => hdist v (mem_append_right _ hv)) hrest with heq | hd
        · rw [heq]
          exact nodup_nil
        · exact hd.1
      refine .inr ⟨?_, ?_⟩
      · rw [← take_append_drop confirmAckHashesMax hashes]
        refine htake.append hdrop fun hash hl hr => ?_
        obtain ⟨vote, hvote, rfl, hmem⟩ := exists_vote hacc hr hlen
        exact hcross _ (mem_map_of_mem hacc) vote hvote rfl hl hmem
      · refine (pairwise_map.1 hfst).imp fun {a b} hdis hab => ?_
        obtain ⟨hash, hhash⟩ := exists_mem_of_ne_nil (hashes.take confirmAckHashesMax)
          (by simpa [confirmAckHashesMax] using hnil)
        exact hdis hab hhash hhash

end

section

variable {c : Crypto} {node : VotingNode} {digest : Bytes → BlockHash}
  {snapshot : Table Account Vote} {wallets : Wallets}

theorem foreachRepresentative_accounts (memory : Nat → Account → RawKey) :
    (wallets.foreachRepresentative c node memory).map (·.1) = wallets.voters c node := by
  have hwal (wallet : Wallet) (i : Nat) :
      (wallet.representatives.filterMap (wallet.pair c node (memory i))).map (·.1) =
        wallet.visits c node := by
    rw [map_filterMap, Wallet.visits, ← filterMap_eq_filter]
    refine filterMap_congr fun acc _ => ?_
    unfold Wallet.pair
    simp only [Option.guard_apply, decide_eq_true_eq]
    split <;> rfl
  unfold Wallets.voters Wallets.foreachRepresentative
  split
  · simp only [map_flatMap, hwal]
    rw [← flatMap_map Prod.fst, zipIdx_map_fst]
  · rfl

theorem nodup_voters (hsets : ∀ wallet ∈ wallets.items, wallet.representatives.Nodup)
    (hne : wallets.voters c node ≠ []) :
    (wallets.voters c node).Nodup ↔ wallets.VisitsApart c node := by
  unfold Wallets.voters at hne ⊢
  split
  · rw [nodup_flatMap]
    exact and_iff_right fun wallet hwal => (hsets wallet hwal).filter _
  · rename_i hoff
    rw [if_neg hoff] at hne
    exact absurd rfl hne

theorem generateVotes_generated (hashes : List BlockHash) (pairs : List (Account × RawKey))
    (store : VoteStore) :
    (Wallets.generateVotes c digest snapshot hashes pairs store).1.map (Vote.generated digest) =
      (pairs.map (·.1)).map (⟨·, hashes⟩) := by
  induction pairs generalizing store with
  | nil => rfl
  | cons x pairs ih =>
    have hhs : (hashes.map VoteBlock.hash).map (VoteBlock.toHash digest) = hashes := by
      rw [map_map]
      exact map_id hashes
    simp only [Wallets.generateVotes, map_cons, ih, List.cons.injEq, and_true]
    exact congrArg (GeneratedVote.mk x.1) hhs

theorem generate_generated (memory : Nat → Nat → Account → RawKey) (hashes : List BlockHash)
    (store : VoteStore) :
    (wallets.generate c node digest snapshot memory hashes store).1.map (Vote.generated digest) =
      batchVotes (wallets.voters c node) hashes.length hashes := by
  suffices h : ∀ fuel hashes store,
      (wallets.generateLoop c node digest snapshot memory fuel hashes store).1.map
        (Vote.generated digest) = batchVotes (wallets.voters c node) fuel hashes from
    h hashes.length hashes store
  intro fuel
  induction fuel with
  | zero => exact fun _ _ => rfl
  | succ fuel ih =>
    intro hashes store
    rw [Wallets.generateLoop, batchVotes]
    split
    · rfl
    · simp only [map_append, generateVotes_generated, foreachRepresentative_accounts, ih]

variable (p : Params) (s : VoteSnapshot) {requests unique : List VoteRequest}
  {hashes : List BlockHash}

theorem wellFormed_batchVotes_iff (h : s.aggregate p unique = some hashes) {accounts : List Account} :
    VotesWellFormed p s unique (batchVotes accounts hashes.length hashes) ↔
      accounts = [] ∨ hashes = [] ∨ hashes.Nodup ∧ accounts.Nodup := by
  refine ⟨fun hwf => ?_, fun hcond => ?_⟩
  · by_cases haccs : accounts = []
    · exact .inl haccs
    · exact .inr (nodup_of_votesDisjoint haccs le_rfl hwf.distinct hwf.once)
  · have hemp : batchVotes accounts hashes.length hashes = [] ∨
        hashes.Nodup ∧ accounts.Nodup := by
      obtain rfl | rfl | hnd := hcond
      · refine .inl (eq_nil_iff_forall_not_mem.2 fun vote hvote => ?_)
        exact not_mem_nil (mem_batchVotes hvote).1
      · exact .inl rfl
      · exact .inr hnd
    refine ⟨fun vote hvote => ?_, fun vote hvote => ?_, fun vote hvote hash hhash => ?_, ?_⟩
    · obtain ⟨-, hne, hlen, -⟩ := mem_batchVotes hvote
      exact ⟨length_pos_iff.2 hne, hlen⟩
    · obtain heq | ⟨hnd, -⟩ := hemp
      · rw [heq] at hvote
        cases hvote
      · exact hnd.sublist (mem_batchVotes hvote).2.2.2
    · exact (VoteSnapshot.mem_aggregate h).1 ((mem_batchVotes hvote).2.2.2.subset hhash)
    · obtain heq | ⟨hnd, haccs⟩ := hemp
      · rw [heq]
        exact .nil
      · exact votesDisjoint_batchVotes haccs hnd

theorem EraseDuplicates.resolvesApart (huniq : EraseDuplicates requests unique)
    (hown : ∀ r ∈ unique, ∀ b, s.resolve r = some b → p.hash b.block = r.1) :
    s.ResolvesApart p unique := by
  refine (pairwise_map.1 huniq.nodup).imp_of_mem fun {r r'} hr hr' hne hash hvs hvs' => ?_
  obtain ⟨b, hb, -, rfl⟩ := hvs
  obtain ⟨b', hb', -, heq⟩ := hvs'
  exact hne ((hown r hr b hb).symm.trans (heq.symm.trans (hown r' hr' b' hb')))

/-- The votes for a batch are well formed exactly if there are none, or no two of its requests are
resolved to votable blocks of one hash and no account is visited in two wallets. Requests that are
answered with the blocks they name are resolved apart. The representatives of a wallet are a set. -/
theorem votes_well_formed_iff (huniq : EraseDuplicates requests unique)
    (h : s.aggregate p unique = some hashes)
    (hsets : ∀ wallet ∈ wallets.items, wallet.representatives.Nodup)
    (memory : Nat → Nat → Account → RawKey) (store : VoteStore) :
    (VotesWellFormed p s unique
        ((wallets.generate c node digest snapshot memory hashes store).1.map
          (Vote.generated digest)) ↔
      wallets.voters c node = [] ∨ (∀ hash, ¬ s.Votable p unique hash) ∨
        s.ResolvesApart p unique ∧ wallets.VisitsApart c node) ∧
    ((∀ r ∈ unique, ∀ b, s.resolve r = some b → p.hash b.block = r.1) →
      s.ResolvesApart p unique) := by
  have hnone : hashes = [] ↔ ∀ hash, ¬ s.Votable p unique hash := by
    rw [eq_nil_iff_forall_not_mem]
    exact forall_congr' fun hash => not_congr (VoteSnapshot.mem_aggregate h)
  refine ⟨?_, huniq.resolvesApart p s⟩
  rw [generate_generated, wellFormed_batchVotes_iff p s h, hnone, VoteSnapshot.nodup_aggregate h]
  by_cases hvoters : wallets.voters c node = []
  · rw [or_iff_left_of_imp fun _ => hvoters, or_iff_left_of_imp fun _ => hvoters]
  · rw [nodup_voters hsets hvoters]

end

namespace Sample

def votingWallets : Wallets := ⟨[⟨(wallet.insertAdhoc crypto 5).2, [1005]⟩], {}⟩

def generated (hashes : List BlockHash) : List GeneratedVote :=
  (votingWallets.generate crypto votingNode (fun _ => 0) ∅ (fun _ _ _ => 0) hashes (.new ∅)).1.map
    (Vote.generated fun _ => 0)

def voteSnapshot (l : Ledger) : VoteSnapshot := ⟨l, fun _ => false, fun _ => none⟩

end Sample

open Sample

/-- Two blocks are requested by their hashes. -/
theorem votes_well_formed_sendZero : ∃ l, run [put sendZero] = some l ∧
    let hashes := [Sample.hash params.genesisBlock, Sample.hash sendZero]
    generated hashes = [⟨1005, hashes⟩] ∧
    VotesWellFormed params (voteSnapshot l) (hashes.map (·, 0)) (generated hashes) := by
  let hashes := [Sample.hash params.genesisBlock, Sample.hash sendZero]
  obtain ⟨l, hl, hagg, hown⟩ : ∃ l ∈ run [put sendZero],
    (voteSnapshot l).aggregate params (hashes.map (·, 0)) = some hashes ∧
    (hashes.map (·, (0 : Root))).all fun r => ((voteSnapshot l).resolve r).all
      (params.hash ·.block == r.1) := by decide +kernel
  have huniq : EraseDuplicates (hashes.map (·, 0)) (hashes.map (·, 0)) :=
    ⟨_, List.Perm.refl _, by decide +kernel, by decide +kernel⟩
  have hiff := @votes_well_formed_iff crypto votingNode (fun _ => 0) ∅ votingWallets params _ _ _ _
    huniq hagg (by decide +kernel) (fun _ _ _ => 0) (.new ∅)
  refine ⟨l, hl, by decide +kernel, hiff.1.2 (.inr (.inr ⟨hiff.2 fun r hr b hb => ?_,
    pairwise_singleton ..⟩))⟩
  have hall := List.all_eq_true.1 hown r hr
  rw [hb] at hall
  exact eq_of_beq hall

/-- A stored block is requested by its hash, and by an unknown hash with its root. -/
theorem votes_well_formed_fails : ∃ l, run [put sendZero] = some l ∧
    let root : Root := Sample.hash params.genesisBlock
    let requests : List VoteRequest := [(5, root), (Sample.hash sendZero, root)]
    let hashes := [Sample.hash sendZero, Sample.hash sendZero]
    EraseDuplicates requests requests ∧
      (voteSnapshot l).aggregate params requests = some hashes ∧
      generated hashes = [⟨1005, hashes⟩] ∧
      ¬ VotesWellFormed params (voteSnapshot l) requests (generated hashes) := by
  obtain ⟨l, hl, hagg⟩ : ∃ l ∈ run [put sendZero],
    (voteSnapshot l).aggregate params
      [(5, Sample.hash params.genesisBlock),
        (Sample.hash sendZero, Sample.hash params.genesisBlock)] =
      some [Sample.hash sendZero, Sample.hash sendZero] := by decide +kernel
  have hvs : generated [Sample.hash sendZero, Sample.hash sendZero] =
    [⟨1005, [Sample.hash sendZero, Sample.hash sendZero]⟩] := by decide +kernel
  refine ⟨l, hl, ⟨_, List.Perm.refl _, by decide +kernel, by decide +kernel⟩, hagg, hvs,
    fun h => ?_⟩
  have := h.distinct _ (hvs ▸ mem_singleton.2 rfl)
  simp at this

end Futurehead
