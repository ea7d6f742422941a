import Futurehead.Store

/-!
# Elections (`futurehead/node/election`, `active_transactions::confirm_block`)

An election decides between the blocks of one root. Votes of representatives are collected in
`lastVotes`; when the heaviest candidate is far enough ahead, `confirm_once` makes it final.

What an election reads from the node during a call (clocks, weights, caches, what the network code
answers) is in `NodeView`, one for each call, so that a run covers every choice. What it does to the
node is recorded in `confirmations` and `forced`. No result means undefined behaviour: the first
element of an empty tally is read.
-/

namespace Futurehead

/-- `election::state_t`. -/
inductive ElectionState where
  | idle
  /-- Only listening for incoming votes. -/
  | passive
  /-- Actively request confirmations. -/
  | active
  /-- Request confirmations and broadcast the winner. -/
  | broadcasting
  /-- Start an election for unconfirmed dependent blocks. -/
  | backtracking
  /-- Confirmed but still listening for votes. -/
  | confirmed
  | expiredConfirmed
  | expiredUnconfirmed
  deriving DecidableEq

inductive ElectionStatusType where
  | ongoing
  | activeConfirmedQuorum
  | activeConfirmationHeight
  | inactiveConfirmationHeight
  | stopped
  deriving DecidableEq

/-- `election_status`. Times are in milliseconds. -/
structure ElectionStatus where
  winner : Block
  tally : Amount := 0
  electionEnd : Int := 0
  electionDuration : Int := 0
  confirmationRequestCount : Nat := 0
  blockCount : Nat := 1
  voterCount : Nat := 0
  type : ElectionStatusType := .ongoing
  deriving DecidableEq

/-- `vote_info`; no time is `time_point::min`. -/
structure VoteInfo where
  time : Option Int
  sequence : Nat
  hash : BlockHash
  deriving DecidableEq

/-- `tally_t`: the weights in descending order, one block for each weight. -/
abbrev Tally := List (Amount × Block)

/-- `tally_t::emplace`: nothing happens if the weight is there already. -/
def Tally.emplace (weight : Amount) (block : Block) : Tally → Tally
  | [] => [(weight, block)]
  | (weight', block') :: rest =>
    if weight' < weight then (weight, block) :: (weight', block') :: rest
    else if weight' = weight then (weight', block') :: rest
    else (weight', block') :: Tally.emplace weight block rest

/-- What an election reads from the node during one call. -/
structure NodeView where
  /-- The readings of the clocks, in milliseconds. -/
  now : Nat → Int
  isTestNetwork : Bool
  /-- `ledger.weight`. -/
  weight : Account → Amount
  /-- `online_reps.online_stake`. -/
  onlineStake : Amount
  onlineWeightMinimum : Amount
  /-- In percent. -/
  onlineWeightQuorum : Nat
  /-- The order in which the `unordered_map` of `tally` is gone through. -/
  order : List BlockHash
  /-- `find_inactive_votes_cache`: the voters for a block without election. -/
  voters : BlockHash → List Account
  /-- `config.enable_voting` with a voting representative in a wallet. -/
  voting : Bool
  /-- The accounts of `votes_cache.find`. -/
  generatedVotes : BlockHash → List Account
  /-- The keys of `election_winner_details`. -/
  winnerDetails : BlockHash → Bool
  /-- `confirmation_solicitor::add` and `broadcast` accept. -/
  solicitorAdds : Bool
  solicitorBroadcasts : Bool

def NodeView.delta (node : NodeView) : Amount :=
  node.onlineStake / 100 * BitVec.ofNat 128 node.onlineWeightQuorum

def NodeView.minimumPrincipalWeight (node : NodeView) : Amount := node.onlineStake / 1000

def NodeView.baseLatency (node : NodeView) : Int := if node.isTestNetwork then 25 else 1000

structure Election where
  state : ElectionState := .idle
  stateStart : Int
  lastBlock : Int
  lastReq : Int := 0
  electionStart : Int
  lastVotes : Table Account VoteInfo
  blocks : Table BlockHash Block
  status : ElectionStatus
  confirmationRequestCount : Nat := 0
  /-- Zero for a block without votes. -/
  lastTally : BlockHash → Amount := fun _ => 0
  /-- The calls of `process_confirmed`, each together with the confirmation action and the entries
  in `election_winner_details` and `recently_confirmed`. -/
  confirmations : List ElectionStatus := []
  /-- The calls of `block_processor.force`. -/
  forced : List Block := []

namespace Election

variable (p : Params) (node : NodeView) (e : Election)

/-- The constructor. The first vote is that of `not_an_account`. -/
def start (notAnAccount : Account) (block : Block) : Election where
  stateStart := node.now 0
  lastBlock := node.now 1
  electionStart := node.now 2
  lastVotes := (∅ : Table Account VoteInfo).insert notAnAccount ⟨some (node.now 3), 0, p.hash block⟩
  blocks := (∅ : Table BlockHash Block).insert (p.hash block) block
  status := { winner := block, electionEnd := node.now 4 }

def confirmed : Bool := e.state == .confirmed || e.state == .expiredConfirmed

/-! ## Confirmation -/

def confirmOnce (type : ElectionStatusType) : Election :=
  let first := e.state ≠ .confirmed ∧ node.winnerDetails (p.hash e.status.winner) = false
  let e := { e with state := .confirmed }
  if first then
    let status := { e.status with
      electionEnd := node.now 10
      electionDuration := node.now 11 - e.electionStart
      confirmationRequestCount := e.confirmationRequestCount
      blockCount := e.blocks.keys.card
      voterCount := e.lastVotes.keys.card
      type := type }
    { e with status := status, confirmations := e.confirmations ++ [status] }
  else e

def votedFor : Finset BlockHash := (e.lastVotes.entries.map fun vote => vote.2.hash).toFinset

/-- The map of `tally` is gone through in this order. -/
def Ordered : Prop := node.order.Nodup ∧ ∀ hash, hash ∈ node.order ↔ hash ∈ e.votedFor

/-- The entry of `block_weights` for a hash. -/
def blockWeight (hash : BlockHash) : Amount :=
  (e.lastVotes.entries.map fun vote => if vote.2.hash = hash then node.weight vote.1 else 0).sum

def tally : Tally :=
  node.order.foldl (fun result hash =>
    match e.blocks.lookup hash with
    | some block => Tally.emplace (e.blockWeight node hash) block result
    | none => result) []

/-- `election::have_quorum`. The sum `second + delta` wraps around. -/
def haveQuorum (tally : Tally) (tallySum : Amount) : Option Bool :=
  if node.onlineWeightMinimum ≤ tallySum then
    match tally with
    | [] => none
    | (first, _) :: rest =>
      let second := (rest.head?.map (·.1)).getD 0
      some (decide (second + node.delta < first))
  else some false

def removeVotes (hash : BlockHash) : Election :=
  if node.voting then
    let votes := (node.generatedVotes hash).foldl (fun votes rep => votes.erase rep) e.lastVotes
    { e with lastVotes := votes }
  else e

/-- The part of `confirm_if_quorum` that makes the heaviest block the winner. -/
def changeWinner (sum : Amount) (block : Block) : Election :=
  let winnerHash := p.hash e.status.winner
  if node.onlineWeightMinimum ≤ sum ∧ p.hash block ≠ winnerHash then
    let e := { e with status := { e.status with winner := block } }
    let e := e.removeVotes node winnerHash
    { e with forced := e.forced ++ [block] }
  else e

def confirmIfQuorum : Option Election := do
  let tally := e.tally node
  let e := { e with lastTally := e.blockWeight node }
  let (weight, block) ← tally.head?
  let e := { e with status := { e.status with tally := weight } }
  let sum := (tally.map (·.1)).sum
  let e := e.changeWinner p node sum block
  if ← haveQuorum node tally sum then some (e.confirmOnce p node .activeConfirmedQuorum)
  else some e

/-! ## Votes and blocks -/

/-- The time between two votes of a representative, in milliseconds. -/
def cooldown (weight : Amount) : Int :=
  if weight < node.onlineStake / 100 then 15000
  else if weight < node.onlineStake / 20 then 5000
  else 1000

/-- Whether a vote is newer than the last one of the representative, and late enough. -/
def shouldProcess (rep : Account) (sequence : Nat) (hash : BlockHash) : Bool :=
  match e.lastVotes.lookup rep with
  | none => true
  | some last =>
    (decide (last.sequence < sequence) || last.sequence == sequence && decide (last.hash < hash)) &&
      last.time.all fun time => decide (time ≤ node.now 20 - cooldown node (node.weight rep))

def vote (rep : Account) (sequence : Nat) (hash : BlockHash) : Option Election :=
  if node.isTestNetwork ∨ node.minimumPrincipalWeight < node.weight rep then
    if e.shouldProcess node rep sequence hash then
      let e := { e with lastVotes := e.lastVotes.insert rep ⟨some (node.now 21), sequence, hash⟩ }
      if e.confirmed then some e else e.confirmIfQuorum p node
    else some e
  else some e

def insertInactiveVotesCache (hash : BlockHash) : Option Election :=
  let voters := node.voters hash
  let votes := voters.foldl (fun votes rep =>
    if rep ∈ votes then votes else votes.insert rep ⟨none, 0, hash⟩) e.lastVotes
  let e := { e with lastVotes := votes }
  if !e.confirmed && !voters.isEmpty then e.confirmIfQuorum p node else some e

def publish (block : Block) : Option Election :=
  let hash := p.hash block
  -- Do not insert new blocks if already confirmed
  if e.confirmed || decide (10 ≤ e.blocks.keys.card) && decide (e.lastTally hash < node.onlineStake / 10)
  then some e
  else
    match e.blocks.lookup hash with
    | none => do
      let e := { e with blocks := e.blocks.insert hash block }
      let e ← e.insertInactiveVotesCache p node hash
      -- Even if no votes were in cache, they could be in the election
      if (node.voters hash).isEmpty then e.confirmIfQuorum p node else some e
    | some _ =>
      let e := { e with blocks := e.blocks.insert hash block }
      some (if p.hash e.status.winner = hash then
        { e with status := { e.status with winner := block } } else e)

/-! ## State transitions -/

/-- The cases of `valid_change` from `confirmed` on, which all cases from `active` on fall into. -/
def validFromConfirmed : ElectionState → Bool
  | .expiredConfirmed => true
  | _ => false

def validFromBacktracking (desired : ElectionState) : Bool :=
  (match desired with
    | .idle | .confirmed | .expiredUnconfirmed => true
    | _ => false) || validFromConfirmed desired

def validFromBroadcasting (desired : ElectionState) : Bool :=
  (match desired with
    | .idle | .backtracking | .confirmed | .expiredUnconfirmed => true
    | _ => false) || validFromBacktracking desired

def validChange (expected desired : ElectionState) : Bool :=
  match expected with
  | .idle =>
    match desired with
    | .passive | .active => true
    | _ => false
  | .passive =>
    match desired with
    | .idle | .active | .confirmed | .expiredUnconfirmed => true
    | _ => false
  | .active =>
    (match desired with
      | .idle | .broadcasting | .confirmed | .expiredUnconfirmed => true
      | _ => false) || validFromBroadcasting desired
  | .broadcasting => validFromBroadcasting desired
  | .backtracking => validFromBacktracking desired
  | .confirmed => validFromConfirmed desired
  | .expiredUnconfirmed => false
  | .expiredConfirmed => false

def stateChange (expected desired : ElectionState) : Election :=
  if validChange expected desired ∧ e.state = expected then
    { e with state := desired, stateStart := node.now 30 }
  else e

def transitionPassive : Election := e.stateChange node .idle .passive

def transitionActive : Election := e.stateChange node .idle .active

def sendConfirmReq : Election :=
  if node.baseLatency * 5 < node.now 31 - e.lastReq ∧ node.solicitorAdds then
    { e with lastReq := node.now 32, confirmationRequestCount := e.confirmationRequestCount + 1 }
  else e

def broadcastBlock : Election :=
  if node.baseLatency * 15 < node.now 33 - e.lastBlock ∧ node.solicitorBroadcasts then
    { e with lastBlock := node.now 34 }
  else e

/-- The `switch` of `transition_time`. -/
def transitionState : Bool × Election :=
  match e.state with
  | .idle => (false, e)
  | .passive =>
    (false, if node.baseLatency * 5 < node.now 35 - e.stateStart then
      e.stateChange node .passive .active else e)
  | .active =>
    let e := e.sendConfirmReq node
    (false, if 2 < e.confirmationRequestCount then e.stateChange node .active .broadcasting else e)
  | .broadcasting =>
    let e := (e.broadcastBlock node).sendConfirmReq node
    (false, if node.baseLatency * 30 < node.now 36 - e.stateStart then
      e.stateChange node .broadcasting .backtracking else e)
  | .backtracking => (false, (e.broadcastBlock node).sendConfirmReq node)
  | .confirmed =>
    if node.baseLatency * 5 < node.now 37 - e.stateStart then
      (true, e.stateChange node .confirmed .expiredConfirmed)
    else (false, e)
  | .expiredUnconfirmed => (false, e)
  | .expiredConfirmed => (false, e)

/-- `election::transition_time`. An election that is not confirmed after five minutes is stopped. -/
def transitionTime : Bool × Election :=
  let (result, e) := e.transitionState node
  if !e.confirmed && decide (5 * 60 * 1000 < node.now 38 - e.electionStart) then
    let e := e.stateChange node e.state .expiredUnconfirmed
    (true, { e with status := { e.status with type := .stopped }, lastTally := e.blockWeight node })
  else (result, e)

/-- `active_transactions::confirm_block` for a hash that leads to this election. -/
def confirmBlock (hash : BlockHash) : Election :=
  if p.hash e.status.winner = hash ∧ e.confirmed = false then
    e.confirmOnce p node .activeConfirmationHeight
  else e

/-- `election::cleanup`. The blocks of an election that is not confirmed are moved out of it. -/
def cleanup : Election := if e.confirmed then e else { e with blocks := ∅ }

inductive Call where
  | vote (rep : Account) (sequence : Nat) (hash : BlockHash)
  | publish (block : Block)
  | insertInactiveVotesCache (hash : BlockHash)
  | transitionActive
  | transitionPassive
  | transitionTime
  | confirmBlock (hash : BlockHash)
  | cleanup

def exec : Call → Option Election
  | .vote rep sequence hash => e.vote p node rep sequence hash
  | .publish block => e.publish p node block
  | .insertInactiveVotesCache hash => e.insertInactiveVotesCache p node hash
  | .transitionActive => some (e.transitionActive node)
  | .transitionPassive => some (e.transitionPassive node)
  | .transitionTime => some (e.transitionTime node).2
  | .confirmBlock hash => some (e.confirmBlock p node hash)
  | .cleanup => some e.cleanup

end Election

end Futurehead
