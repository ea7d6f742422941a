import Futurehead.Voting.Sequence

/-!
# Local representatives (`wallets::foreach_representative`, `check_rep`, `compute_reps`)

The accounts of a wallet that have enough weight are kept as its representatives. To vote, the node
looks up the key of each of them in the unlocked wallets. The outcome of `fetch` is only asserted, so
if it fails the key is what the memory of the variable held before.
-/

namespace Futurehead

open List

/-- What the wallets read of the node. -/
structure VotingNode where
  enableVoting : Bool
  voteMinimum : Amount
  /-- `ledger.weight`. -/
  weight : Account → Amount
  minimumPrincipalWeight : Amount

structure WalletRepresentatives where
  voting : Nat := 0
  halfPrincipal : Nat := 0
  accounts : List Account := []

/-- `wallet`: its store, and its accounts that vote. -/
structure Wallet where
  store : WalletStore
  representatives : List Account := []

structure Wallets where
  items : List Wallet
  representatives : WalletRepresentatives := {}

def confirmAckHashesMax : Nat := 12

variable (c : Crypto) (node : VotingNode)

def checkRep (representatives : WalletRepresentatives) (account : Account) (halfPrincipalWeight : Amount) :
    Bool × WalletRepresentatives :=
  let weight := node.weight account
  if node.voteMinimum ≤ weight then
    (true, {
      accounts := representatives.accounts.insert account
      voting := representatives.voting + 1
      halfPrincipal :=
        if halfPrincipalWeight ≤ weight then representatives.halfPrincipal + 1
        else representatives.halfPrincipal })
  else (false, representatives)

namespace Wallet

/-- An account that was inserted becomes a representative if it has the weight. -/
def checkInserted (wallet : Wallet) (representatives : WalletRepresentatives) (key : Account) :
    Wallet × WalletRepresentatives :=
  let (result, representatives) :=
    checkRep node representatives key (node.minimumPrincipalWeight / 2)
  (if result then { wallet with representatives := wallet.representatives.insert key } else wallet,
    representatives)

def deterministicInsert (wallet : Wallet) (representatives : WalletRepresentatives) :
    Option (Wallet × WalletRepresentatives) :=
  if wallet.store.validPassword c then do
    let (key, store) ← wallet.store.deterministicInsert c
    some (checkInserted node { wallet with store } representatives key)
  else some (wallet, representatives)

/-- `deterministic_insert` at an index, which does not look at the weight. -/
def deterministicInsertAt (wallet : Wallet) (index : BitVec 32) : Wallet :=
  if wallet.store.validPassword c then
    { wallet with store := (wallet.store.deterministicInsertAt c index).2 }
  else wallet

def insertAdhoc (wallet : Wallet) (representatives : WalletRepresentatives) (prv : RawKey) :
    Wallet × WalletRepresentatives :=
  if wallet.store.validPassword c then
    let (key, store) := wallet.store.insertAdhoc c prv
    checkInserted node { wallet with store } representatives key
  else (wallet, representatives)

def insertWatch (wallet : Wallet) (pub : Account) : Wallet :=
  { wallet with store := (wallet.store.insertWatch pub).2 }

/-- The loop of `compute_reps` over the accounts of a wallet. -/
def computeReps (representatives : WalletRepresentatives) (wallet : Wallet) :
    Wallet × WalletRepresentatives :=
  let (found, representatives) :=
    wallet.store.accounts.foldl (fun (found, representatives) account =>
      let (result, representatives) :=
        checkRep node representatives account (node.minimumPrincipalWeight / 2)
      (if result then found.insert account else found, representatives)) ([], representatives)
  ({ wallet with representatives := found }, representatives)

/-- The body of `foreach_representative` for one account. -/
def pair (wallet : Wallet) (memory : Account → RawKey) (account : Account) :
    Option (Account × RawKey) :=
  if wallet.store.accountExists account ∧ node.weight account ≠ 0 ∧ wallet.store.validPassword c then
    some (account, (wallet.store.fetch c account (memory account)).2)
  else none

end Wallet

namespace Wallets

def computeReps (wallets : Wallets) : Wallets :=
  let (items, representatives) :=
    wallets.items.foldl (fun (items, representatives) wallet =>
      let (wallet, representatives) := Wallet.computeReps node representatives wallet
      (items ++ [wallet], representatives)) ([], {})
  ⟨items, representatives⟩

/-- `foreach_representative`: the pairs that the action gets. -/
def foreachRepresentative (wallets : Wallets) (memory : Nat → Account → RawKey) :
    List (Account × RawKey) :=
  if node.enableVoting then
    wallets.items.zipIdx.flatMap fun (wallet, i) =>
      wallet.representatives.filterMap (wallet.pair c node (memory i))
  else []

/-! ## Votes -/

section

variable (digest : Bytes → BlockHash) (snapshot : Table Account Vote)

/-- One vote for each pair, each made with the store that the one before has left. -/
def generateVotes (hashes : List BlockHash) :
    List (Account × RawKey) → VoteStore → List Vote × VoteStore
  | [], store => ([], store)
  | (pub, prv) :: pairs, store =>
    let (vote, store) := VoteStore.voteGenerate c digest store snapshot pub prv hashes
    let (votes, store) := generateVotes hashes pairs store
    (vote :: votes, store)

/-- `vote_generator::send`: the votes, and what is left of the queue. -/
def send (wallets : Wallets) (memory : Nat → Account → RawKey) (hashes : List BlockHash)
    (store : VoteStore) : List Vote × List BlockHash × VoteStore :=
  let (votes, store) := generateVotes c digest snapshot (hashes.take confirmAckHashesMax)
    (wallets.foreachRepresentative c node memory) store
  (votes, hashes.drop confirmAckHashesMax, store)

/-- The loop of `request_aggregator::generate`, with the memory of each turn. -/
def generateLoop (wallets : Wallets) (memory : Nat → Nat → Account → RawKey) :
    (fuel : Nat) → List BlockHash → VoteStore → List Vote × VoteStore
  | 0, _, store => ([], store)
  | fuel + 1, hashes, store =>
    if hashes = [] then ([], store)
    else
      let (votes, store) := generateVotes c digest snapshot (hashes.take confirmAckHashesMax)
        (wallets.foreachRepresentative c node (memory fuel)) store
      let (rest, store) := generateLoop wallets memory fuel (hashes.drop confirmAckHashesMax) store
      (votes ++ rest, store)

/-- `request_aggregator::generate`. Every turn takes at least one hash. -/
def generate (wallets : Wallets) (memory : Nat → Nat → Account → RawKey) (hashes : List BlockHash)
    (store : VoteStore) : List Vote × VoteStore :=
  generateLoop c node digest snapshot wallets memory hashes.length hashes store

end

/-! ## Histories -/

/-- What happens to the wallets. A wallet is given by its place. -/
inductive Event where
  | insertAdhoc (i : Nat) (prv : RawKey)
  | deterministicInsert (i : Nat)
  | deterministicInsertAt (i : Nat) (index : BitVec 32)
  | insertWatch (i : Nat) (pub : Account)
  /-- The password of a wallet is entered. -/
  | attemptPassword (i : Nat) (password : Text) (seed : RawKey)
  | rekey (i : Nat) (password : Text)
  | computeReps

/-- The wallets after an event, with the weights at that time. -/
def exec (wallets : Wallets) : Event → Option Wallets
  | .insertAdhoc i prv => do
    let wallet ← wallets.items[i]?
    let (wallet, representatives) := wallet.insertAdhoc c node wallets.representatives prv
    some ⟨wallets.items.set i wallet, representatives⟩
  | .deterministicInsert i => do
    let wallet ← wallets.items[i]?
    let (wallet, representatives) ← wallet.deterministicInsert c node wallets.representatives
    some ⟨wallets.items.set i wallet, representatives⟩
  | .deterministicInsertAt i index => do
    let wallet ← wallets.items[i]?
    some { wallets with items := wallets.items.set i (wallet.deterministicInsertAt c index) }
  | .insertWatch i pub => do
    let wallet ← wallets.items[i]?
    some { wallets with items := wallets.items.set i (wallet.insertWatch pub) }
  | .attemptPassword i password seed => do
    let wallet ← wallets.items[i]?
    let store := (wallet.store.attemptPassword c password seed).2
    some { wallets with items := wallets.items.set i { wallet with store } }
  | .rekey i password => do
    let wallet ← wallets.items[i]?
    let store := (wallet.store.rekey c password).2
    some { wallets with items := wallets.items.set i { wallet with store } }
  | .computeReps => some (wallets.computeReps node)

/-- The wallets after a list of events, each with the node at that time. -/
def run : List (VotingNode × Event) → Wallets → Option Wallets
  | [], wallets => some wallets
  | (node, event) :: events, wallets => (wallets.exec c node event).bind (run events)

/-! ## Matching keys -/

def KeysFound (wallets : Wallets) : Prop :=
  node.enableVoting → ∀ wallet ∈ wallets.items, ∀ account ∈ wallet.representatives,
    wallet.store.accountExists account → node.weight account ≠ 0 → wallet.store.validPassword c →
    ∃ prv, ∀ g, wallet.store.fetch c account g = (false, prv)

variable {c node} {wallets : Wallets} {digest : Bytes → BlockHash} {snapshot : Table Account Vote}

variable {entry : Account × RawKey} {memory : Nat → Account → RawKey}

theorem mem_foreachRepresentative :
    entry ∈ wallets.foreachRepresentative c node memory ↔ node.enableVoting ∧
      ∃ (i : Nat) (wallet : Wallet), wallets.items[i]? = some wallet ∧
        ∃ acc ∈ wallet.representatives, wallet.pair c node (memory i) acc = some entry := by
  unfold foreachRepresentative
  split
  · rename_i hvot
    simp only [mem_flatMap, mem_filterMap, hvot, true_and]
    constructor
    · rintro ⟨⟨wallet, i⟩, hi, hpair⟩
      exact ⟨i, wallet, mem_zipIdx_iff_getElem?.1 hi, hpair⟩
    · rintro ⟨i, wallet, hi, hpair⟩
      exact ⟨(wallet, i), mem_zipIdx_iff_getElem?.2 hi, hpair⟩
  · rename_i hvot
    simp [hvot]

theorem pair_eq_some {wallet : Wallet} {memory : Account → RawKey} {acc : Account} :
    wallet.pair c node memory acc = some entry ↔
      (wallet.store.accountExists acc ∧ node.weight acc ≠ 0 ∧ wallet.store.validPassword c) ∧
        (acc, (wallet.store.fetch c acc (memory acc)).2) = entry :=
  Option.ite_none_right_eq_some.trans (and_congr_right fun _ => Option.some_inj)

theorem fetchRaw_cases (s : WalletStore) (pub : Account) :
    (∀ g, s.fetchRaw c pub g = (true, g)) ∨ ∃ prv, ∀ g, s.fetchRaw c pub g = (false, prv) := by
  unfold WalletStore.fetchRaw
  dsimp only
  split
  · split
    · split
      · exact .inr ⟨_, fun _ => rfl⟩
      · exact .inr ⟨_, fun _ => rfl⟩
      · exact .inl fun _ => rfl
    · exact .inl fun _ => rfl
  · exact .inl fun _ => rfl

theorem fetch_of_pubKey {s : WalletStore} {pub : Account} (hkeys : ∃ g, c.pubKey g ≠ pub)
    (h : ∀ g, c.pubKey (s.fetch c pub g).2 = pub) : ∃ prv, ∀ g, s.fetch c pub g = (false, prv) := by
  unfold WalletStore.fetch at h ⊢
  rcases fetchRaw_cases (c := c) s pub with hraw | ⟨prv, hraw⟩
  · -- nothing is set, so any key would be the one of the account
    obtain ⟨g, hg⟩ := hkeys
    have := h g
    rw [hraw] at this
    exact absurd this hg
  · have hprv : c.pubKey prv = pub := by
      have := h 0
      rw [hraw] at this
      exact this
    refine ⟨prv, fun g => ?_⟩
    rw [hraw]
    simp [hprv]

theorem KeysFound.pubKey (h : wallets.KeysFound c node)
    (hent : entry ∈ wallets.foreachRepresentative c node memory) : c.pubKey entry.2 = entry.1 := by
  obtain ⟨hvot, i, wallet, hi, acc, hacc, hpair⟩ := mem_foreachRepresentative.1 hent
  obtain ⟨⟨hex, hwt, hval⟩, rfl⟩ := pair_eq_some.1 hpair
  obtain ⟨prv, hprv⟩ := h hvot wallet (mem_of_getElem? hi) acc hacc hex hwt
    hval
  rw [hprv]
  exact WalletStore.pubKey_of_keyOf (WalletStore.fetch_eq_ok.1 (hprv 0)).2

/-! ## Signatures -/

def Signed (validateMessage : Account → BlockHash → Signature → Bool) (digest : Bytes → BlockHash)
    (vote : Vote) : Prop :=
  validateMessage vote.account (vote.hash digest) vote.signature = false

variable {validateMessage : Account → BlockHash → Signature → Bool}

theorem signed_generateVotes
    (hsign : ∀ prv hash, validateMessage (c.pubKey prv) hash
      (c.signMessage prv (c.pubKey prv) hash) = false)
    {pairs : List (Account × RawKey)} (hpairs : ∀ entry ∈ pairs, c.pubKey entry.2 = entry.1)
    {hashes : List BlockHash} (store : VoteStore) :
    ∀ vote ∈ (generateVotes c digest snapshot hashes pairs store).1,
      Signed validateMessage digest vote := by
  induction pairs generalizing store with
  | nil => exact fun _ h => by cases h
  | cons entry pairs ih =>
    obtain ⟨pub, prv⟩ := entry
    obtain rfl : c.pubKey prv = pub := hpairs _ mem_cons_self
    intro vote hvote
    rcases mem_cons.1 hvote with rfl | hvote
    · exact hsign prv _
    · exact ih (fun entry h => hpairs entry (mem_cons_of_mem _ h)) _ vote hvote

theorem signed_generateLoop
    (hsign : ∀ prv hash, validateMessage (c.pubKey prv) hash
      (c.signMessage prv (c.pubKey prv) hash) = false)
    (h : wallets.KeysFound c node) {memory : Nat → Nat → Account → RawKey} (fuel : Nat)
    (hashes : List BlockHash) (store : VoteStore) :
    ∀ vote ∈ (generateLoop c node digest snapshot wallets memory fuel hashes store).1,
      Signed validateMessage digest vote := by
  induction fuel generalizing hashes store with
  | zero => exact fun _ h => by cases h
  | succ fuel ih =>
    unfold generateLoop
    split
    · exact fun _ h => by cases h
    · intro vote hvote
      rcases mem_append.1 hvote with hvote | hvote
      · exact signed_generateVotes hsign (fun _ => h.pubKey) _ vote hvote
      · exact ih _ _ vote hvote

/-- Whatever is in memory, the pairs have matching keys and the votes that the vote generator and
the request aggregator make with them are signed by their accounts, exactly if every key that is
looked up is found. -/
theorem foreachRepresentative_sound_iff (wallets : Wallets) (node : VotingNode)
    (hkeys : ∀ pub, ∃ g, c.pubKey g ≠ pub)
    (hsign : ∀ prv hash, validateMessage (c.pubKey prv) hash
      (c.signMessage prv (c.pubKey prv) hash) = false) :
    ((∀ memory, ∀ entry ∈ wallets.foreachRepresentative c node memory, c.pubKey entry.2 = entry.1) ∧
      (∀ digest snapshot memory hashes store,
        ∀ vote ∈ (wallets.send c node digest snapshot memory hashes store).1,
          Signed validateMessage digest vote) ∧
      (∀ digest snapshot memory hashes store,
        ∀ vote ∈ (wallets.generate c node digest snapshot memory hashes store).1,
          Signed validateMessage digest vote)) ↔ wallets.KeysFound c node := by
  constructor
  · rintro ⟨h, -, -⟩ hvot wallet hwal acc hacc hex hwt hval
    obtain ⟨i, hi⟩ := mem_iff_getElem?.1 hwal
    refine fetch_of_pubKey (hkeys acc) fun g => ?_
    refine h (fun _ _ => g) (acc, (wallet.store.fetch c acc g).2)
      (mem_foreachRepresentative.2 ⟨hvot, i, wallet, hi, acc, hacc, ?_⟩)
    exact pair_eq_some.2 ⟨⟨hex, hwt, hval⟩, rfl⟩
  · intro h
    refine ⟨fun _ _ => h.pubKey, fun digest snapshot memory hashes store => ?_,
      fun digest snapshot memory hashes store => ?_⟩
    · exact signed_generateVotes hsign (fun _ => h.pubKey) store
    · exact signed_generateLoop hsign h _ _ store

end Wallets

namespace Sample

def votingNode : VotingNode := ⟨true, 1, fun _ => 10, 100⟩

/-- A signature names the key of the account and the message. -/
def validateMessage (account : Account) (hash : BlockHash) (signature : Signature) : Bool :=
  signature != (account - 1000) ++ hash

end Sample

open Sample

open Wallets in
/-- A key with weight is inserted, and the representatives are computed. -/
theorem foreachRepresentative_sound_adhoc :
    ∃ wallets, run crypto
        [(votingNode, .insertAdhoc 0 5), (votingNode, .computeReps)]
        ⟨[⟨Sample.wallet, []⟩], {}⟩ = some wallets ∧
      wallets.foreachRepresentative crypto votingNode (fun _ _ => 0) = [(1005, 5)] ∧
      ∀ memory, ∀ entry ∈ wallets.foreachRepresentative crypto votingNode memory,
        crypto.pubKey entry.2 = entry.1 := by
  have hkeys (pub : Account) : ∃ g, crypto.pubKey g ≠ pub := by
    by_cases h : crypto.pubKey 0 = pub
    · exact ⟨1, fun h' => absurd (h'.trans h.symm) (by decide)⟩
    · exact ⟨0, h⟩
  have hsign (prv : RawKey) (hash : BlockHash) : validateMessage (crypto.pubKey prv) hash
      (crypto.signMessage prv (crypto.pubKey prv) hash) = false := by
    have hprv : crypto.pubKey prv - 1000 = prv := BitVec.add_sub_cancel prv 1000
    unfold validateMessage
    rw [hprv]
    exact bne_self_eq_false _
  refine ⟨_, rfl, by decide +kernel, ?_⟩
  refine ((foreachRepresentative_sound_iff _ votingNode hkeys hsign).2 ?_).1
  intro _ wallet hwal acc hacc _ _ _
  let view (wallet : Wallet) : List Account × Bool × Option RawKey :=
    (wallet.representatives, wallet.store.validPassword crypto,
      wallet.store.keyOf crypto (wallet.store.walletKey crypto) 1005)
  have hview := mem_map_of_mem (f := view) hwal
  rw [show List.map view _ = [([1005], true, some 5)] by decide +kernel] at hview
  have heq : view wallet = ([1005], true, some 5) := mem_singleton.1 hview
  obtain ⟨hrepresentatives, hrest⟩ := Prod.mk.inj heq
  obtain ⟨hval, hkey⟩ := Prod.mk.inj hrest
  rw [hrepresentatives] at hacc
  obtain rfl := mem_singleton.1 hacc
  exact ⟨5, fun g => WalletStore.fetch_eq_ok.2 ⟨hval, hkey⟩⟩

open Wallets in
/-- An account is watched, and it has weight when the representatives are computed. It is given out
with whatever was in memory. -/
theorem foreachRepresentative_unsound :
    ∃ wallets, run crypto
        [(votingNode, .insertWatch 0 2000), (votingNode, .computeReps)]
        ⟨[⟨Sample.wallet, []⟩], {}⟩ = some wallets ∧
      wallets.foreachRepresentative crypto votingNode (fun _ _ => 0) = [(2000, 0)] ∧
      crypto.pubKey 0 ≠ 2000 := by
  refine ⟨_, rfl, by decide +kernel, by decide +kernel⟩

end Futurehead
