import Futurehead.Blocks
import Futurehead.Bootstrap.Initiator

/-!
# Pull accounting (`bootstrap_connections`, `bulk_pull_client`)

An attempt counts its pulls in `pulling`. The queue and the counter have different mutexes, so a pull is
queued before it is counted, and has left before it is taken off. Between the two steps other threads
run, and the counter may even wrap below zero.
-/

namespace Futurehead

open List BitVec

/-! ## The queue and the clients -/

/-- `pull_info`; `last` is its `end`. -/
structure PullInfo where
  accountOrHead : Uint256
  head : BlockHash
  last : BlockHash
  count : BitVec 32 := 0
  attempts : BitVec 32 := 0
  processed : BitVec 64 := 0
  retryLimit : BitVec 32
  bootstrapId : Nat
  deriving DecidableEq

/-- `bulk_pull_client`: the mode of its attempt, and its pull. -/
structure BulkPullClient where
  mode : BootstrapMode
  pull : PullInfo

/-- `attempts` at some moment: the attempt `id` is running. -/
structure RunningAttempts (id : Nat) where
  find : Nat → Option BootstrapMode
  running : find id ≠ none

/-- What `requeue_pull` asks the attempt, and the limit it uses. -/
structure LazyState where
  /-- `lazy_processed_or_exists`. -/
  processedOrExists : BlockHash → Bool
  batchSize : BitVec 32
  maxPullBlocks : BitVec 32

/-- The pulls of all attempts, and the counter of one. -/
structure PullQueue where
  pulls : List PullInfo := []
  clients : List BulkPullClient := []
  pulling : BitVec 32 := 0
  /-- Pulls of the attempt that are queued and not yet counted. -/
  uncounted : Nat := 0
  /-- Pulls of the attempt that have left and are still counted. -/
  finished : Nat := 0

def requeuedPullsProcessedBlocksFactor : BitVec 64 := 4096

/-- The decision of `requeue_pull`: whether the pull goes to the front or to the back, if anywhere. -/
def PullInfo.requeued (mode : BootstrapMode) (state : LazyState) (networkError : Bool)
    (pull : PullInfo) : Option (Bool × PullInfo) :=
  let pull := if networkError then pull else { pull with attempts := pull.attempts + 1 }
  match mode with
  | .legacy =>
    if pull.attempts.setWidth 64 < pull.retryLimit.setWidth 64 +
        pull.processed / requeuedPullsProcessedBlocksFactor then some (true, pull)
    else none
  | .lazy =>
    let pull := { pull with count := state.batchSize }
    if (pull.retryLimit = BitVec.allOnes 32 ∨ pull.attempts.setWidth 64 ≤
        pull.retryLimit.setWidth 64 + pull.processed / state.maxPullBlocks.setWidth 64) ∧
        ¬ state.processedOrExists pull.accountOrHead then some (false, pull)
    else none
  | .walletLazy => none

namespace PullQueue

variable {id : Nat} (s : PullQueue)

/-- The pull enters the queue; it is counted later. -/
def push (id : Nat) (front : Bool) (pull : PullInfo) : PullQueue :=
  { s with
    pulls := if front then pull :: s.pulls else s.pulls ++ [pull]
    uncounted := s.uncounted + if pull.bootstrapId = id then 1 else 0 }

def requeuePull (attempts : RunningAttempts id) (state : LazyState) (networkError : Bool)
    (pull : PullInfo) : PullQueue :=
  match (attempts.find pull.bootstrapId).bind fun mode =>
    pull.requeued mode state networkError with
  | none => s
  | some x => s.push id x.1 x.2

/-- The loop of `request_pull`: the client for the first pull of an attempt that is not obsolete, the
rest of the queue, and how many obsolete pulls of the attempt were taken. -/
def requestLoop (attempts : RunningAttempts id) (state : LazyState) :
    List PullInfo → Option BulkPullClient × List PullInfo × Nat
  | [] => (none, [], 0)
  | pull :: pulls =>
    match attempts.find pull.bootstrapId with
    | none => requestLoop attempts state pulls
    | some mode =>
      if mode = .lazy ∧ pull.head ≠ 0 ∧ state.processedOrExists pull.head then
        let r := requestLoop attempts state pulls
        (r.1, r.2.1, r.2.2 + if pull.bootstrapId = id then 1 else 0)
      else (some ⟨mode, pull⟩, pulls, 0)

/-- The destructor of a client that received the blocks down to `expected`. -/
def endClient (attempts : RunningAttempts id) (state : LazyState) (client : BulkPullClient)
    (expected : BlockHash) (blocks : BitVec 64) (networkError : Bool) : PullQueue :=
  let s := { s with finished := s.finished + if client.pull.bootstrapId = id then 1 else 0 }
  if expected ≠ client.pull.last then
    s.requeuePull attempts state networkError { client.pull with
      head := expected
      accountOrHead := if client.mode ≠ .legacy then expected else client.pull.accountOrHead
      processed := client.pull.processed + blocks }
  else s

inductive Event (id : Nat) where
  | addPull (pull : PullInfo)
  /-- `++pulling`, or `pull_started`. -/
  | count
  /-- `pull_finished`. -/
  | uncount
  | requestPull (attempts : RunningAttempts id) (state : LazyState)
  | endClient (i : Nat) (attempts : RunningAttempts id) (state : LazyState) (expected : BlockHash)
      (blocks : BitVec 64) (networkError : Bool)
  /-- `requeue_pull`, called by `lazy_requeue` or for a fork. -/
  | requeuePull (attempts : RunningAttempts id) (state : LazyState) (pull : PullInfo)

def exec : Event id → PullQueue
  | .addPull pull => s.push id false pull
  | .count =>
    if s.uncounted = 0 then s
    else { s with pulling := s.pulling + 1, uncounted := s.uncounted - 1 }
  | .uncount =>
    if s.finished = 0 then s else { s with pulling := s.pulling - 1, finished := s.finished - 1 }
  | .requestPull attempts state =>
    let r := requestLoop attempts state s.pulls
    { s with pulls := r.2.1, clients := r.1.toList ++ s.clients, finished := s.finished + r.2.2 }
  | .endClient i attempts state expected blocks networkError =>
    match s.clients[i]? with
    | none => s
    | some client => { s with clients := s.clients.eraseIdx i }.endClient attempts state client
        expected blocks networkError
  | .requeuePull attempts state pull => s.requeuePull attempts state false pull

/-! ## The counter -/

def queued (id : Nat) : Nat := s.pulls.countP (·.bootstrapId = id)

def live (id : Nat) : Nat := s.clients.countP (·.pull.bootstrapId = id)

/-- The counter, with the steps that are still to come. -/
def Balanced (id : Nat) : Prop :=
  (s.pulling.toNat + s.uncounted) % 2 ^ 32 = (s.queued id + s.live id + s.finished) % 2 ^ 32

variable {s}

theorem Balanced.push (h : s.Balanced id) (front : Bool) (pull : PullInfo) :
    (s.push id front pull).Balanced id := by
  have hqueued : (s.push id front pull).queued id =
      s.queued id + if pull.bootstrapId = id then 1 else 0 := by
    cases front <;> simp [PullQueue.push, queued, countP_cons]
  have hunc : (s.push id front pull).uncounted =
      s.uncounted + if pull.bootstrapId = id then 1 else 0 := rfl
  unfold Balanced at h ⊢
  rw [hqueued, hunc]
  change (s.pulling.toNat + _) % _ = (_ + s.live id + s.finished) % _
  omega

theorem Balanced.requeuePull (h : s.Balanced id) (attempts : RunningAttempts id) (state : LazyState)
    (networkError : Bool) (pull : PullInfo) :
    (s.requeuePull attempts state networkError pull).Balanced id := by
  unfold PullQueue.requeuePull
  split
  · exact h
  · exact h.push _ _

theorem countP_requestLoop (attempts : RunningAttempts id) (state : LazyState)
    (pulls : List PullInfo) : pulls.countP (·.bootstrapId = id) =
      (requestLoop attempts state pulls).2.1.countP (·.bootstrapId = id) +
        (requestLoop attempts state pulls).1.toList.countP (·.pull.bootstrapId = id) +
        (requestLoop attempts state pulls).2.2 := by
  induction pulls with
  | nil => rfl
  | cons pull pulls ih =>
    cases hfind : attempts.find pull.bootstrapId with
    | none =>
      have hne : pull.bootstrapId ≠ id := fun heq => attempts.running (heq ▸ hfind)
      simp only [requestLoop, hfind, countP_cons, decide_eq_true_eq, if_neg hne]
      exact ih
    | some mode =>
      by_cases hobsolete : mode = .lazy ∧ pull.head ≠ 0 ∧ state.processedOrExists pull.head
      · simp only [requestLoop, hfind, if_pos hobsolete, countP_cons, decide_eq_true_eq]
        omega
      · simp only [requestLoop, hfind, if_neg hobsolete, countP_cons, decide_eq_true_eq,
          Option.toList_some, countP_nil]
        omega

theorem Balanced.requestPull (h : s.Balanced id) (attempts : RunningAttempts id)
    (state : LazyState) : (s.exec (.requestPull attempts state)).Balanced id := by
  have hcnt := countP_requestLoop attempts state s.pulls
  have hlive : (s.exec (.requestPull attempts state)).live id =
      (requestLoop attempts state s.pulls).1.toList.countP (·.pull.bootstrapId = id) +
        s.live id := countP_append
  unfold Balanced at h ⊢
  rw [hlive]
  change (s.pulling.toNat + s.uncounted) % _ =
    ((requestLoop attempts state s.pulls).2.1.countP (·.bootstrapId = id) + _ +
      (s.finished + (requestLoop attempts state s.pulls).2.2)) % _
  rw [h, queued, hcnt]
  congr 1
  omega

theorem Balanced.endClient (h : s.Balanced id) {i : Nat} {client : BulkPullClient}
    (hclient : s.clients[i]? = some client) (attempts : RunningAttempts id) (state : LazyState)
    (expected : BlockHash) (blocks : BitVec 64) (networkError : Bool) :
    ({ s with clients := s.clients.eraseIdx i }.endClient attempts state client expected blocks
      networkError).Balanced id := by
  have hlive : s.live id = (s.clients.eraseIdx i).countP (·.pull.bootstrapId = id) +
      if client.pull.bootstrapId = id then 1 else 0 := by
    obtain ⟨hi, rfl⟩ := List.getElem?_eq_some_iff.1 hclient
    rw [live, ← (getElem_cons_eraseIdx_perm hi).countP_eq, countP_cons]
    simp only [decide_eq_true_eq]
  have hleft : { s with
      clients := s.clients.eraseIdx i
      finished := s.finished + if client.pull.bootstrapId = id then 1 else 0 }.Balanced id := by
    unfold Balanced at h ⊢
    rw [hlive] at h
    change (s.pulling.toNat + s.uncounted) % _ = (s.queued id +
      (s.clients.eraseIdx i).countP (·.pull.bootstrapId = id) + (s.finished + _)) % _
    rw [h]
    congr 1
    omega
  dsimp only [PullQueue.endClient]
  split
  · exact hleft.requeuePull attempts state networkError _
  · exact hleft

theorem Balanced.exec (h : s.Balanced id) (event : Event id) : (s.exec event).Balanced id := by
  cases event with
  | addPull pull => exact h.push false pull
  | count =>
    rw [PullQueue.exec]
    split
    · exact h
    · change ((s.pulling + 1).toNat + (s.uncounted - 1)) % _ = (s.queued id + s.live id + s.finished) % _
      unfold Balanced at h
      rw [toNat_add, show (1 : BitVec 32).toNat = 1 from rfl]
      omega
  | uncount =>
    rw [PullQueue.exec]
    split
    · exact h
    · change ((s.pulling - 1).toNat + s.uncounted) % _ =
        (s.queued id + s.live id + (s.finished - 1)) % _
      unfold Balanced at h
      rw [toNat_sub, show (1 : BitVec 32).toNat = 1 from rfl]
      omega
  | requestPull attempts state => exact h.requestPull attempts state
  | endClient i attempts state expected blocks networkError =>
    rw [PullQueue.exec]
    split
    · exact h
    · rename_i client hclient
      exact h.endClient hclient attempts state expected blocks networkError
  | requeuePull attempts state pull => exact h.requeuePull attempts state false pull

/-- Whenever no step is outstanding, the counter is the number of queued pulls and clients of the
attempt; so it is zero only if there are none. -/
theorem pulling_exact (events : List (Event id))
    (hidle : (events.foldl exec ({} : PullQueue)).uncounted = 0 ∧
      (events.foldl exec ({} : PullQueue)).finished = 0) :
    let s := events.foldl exec ({} : PullQueue)
    s.pulling = BitVec.ofNat 32 (s.queued id + s.live id) ∧
      (s.queued id + s.live id < 2 ^ 32 → s.pulling = 0 → s.queued id = 0 ∧ s.live id = 0) := by
  have h : (events.foldl exec ({} : PullQueue)).Balanced id :=
    List.foldlRecOn (motive := fun s => s.Balanced id) events exec rfl fun _ hs e _ => hs.exec e
  obtain ⟨hunc, hfin⟩ := hidle
  rw [Balanced, hunc, hfin, Nat.add_zero, Nat.add_zero, Nat.mod_eq_of_lt (BitVec.isLt _)] at h
  refine ⟨eq_of_toNat_eq (by rw [h, BitVec.toNat_ofNat]), fun hsmall hzero => ?_⟩
  rw [hzero, Nat.mod_eq_of_lt hsmall] at h
  have : (0 : BitVec 32).toNat = 0 := rfl
  omega

/-- Of two pulls one gets a client, which fails and requeues it. -/
theorem pulling_exact_requeued :
    let attempts : RunningAttempts 1 := ⟨fun _ => some .legacy, by decide⟩
    let state : LazyState := ⟨fun _ => false, 1, 512⟩
    let pull : PullInfo := ⟨7, 7, 0, 0, 0, 0, 16, 1⟩
    let s := ([.addPull pull, .count, .addPull pull, .requestPull attempts state,
      .endClient 0 attempts state 7 0 false, .uncount, .requestPull attempts state, .count,
      .count] : List (Event 1)).foldl exec ({} : PullQueue)
    s.queued 1 = 1 ∧ s.live 1 = 1 ∧ s.pulling = BitVec.ofNat 32 (s.queued 1 + s.live 1) := by
  intro attempts state pull s
  exact ⟨by decide, by decide, (pulling_exact _ (by decide)).1⟩

end PullQueue

end Futurehead
