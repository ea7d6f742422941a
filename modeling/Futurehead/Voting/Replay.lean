import Futurehead.Voting.Confirmation

/-!
# Votes that come again

A vote of a representative is only taken if it is after the last one, in the order of sequence and
hash. So a vote that was recorded before is never taken again, whatever happened in between, unless
the representative was dropped by `remove_votes`. It is reported as a replay if votes of the
representative count at all at that time.
-/

namespace Futurehead

open List Option Finmap

structure ElectionVoteResult where
  replay : Bool := false
  processed : Bool := false
  deriving DecidableEq

/-- The lexicographic order of sequence and hash. -/
def VoteInfo.Before (a b : VoteInfo) : Prop :=
  a.sequence < b.sequence ∨ a.sequence = b.sequence ∧ a.hash < b.hash

theorem VoteInfo.Before.trans {a b c : VoteInfo} (h : a.Before b) (h' : b.Before c) : a.Before c := by
  rcases h with hlt | ⟨heq, hlt⟩ <;> rcases h' with hlt' | ⟨heq', hlt'⟩
  · exact .inl (hlt.trans hlt')
  · exact .inl (heq' ▸ hlt)
  · exact .inl (heq ▸ hlt')
  · exact .inr ⟨heq.trans heq', BitVec.lt_trans hlt hlt'⟩

namespace Election

variable {p : Params} {node : NodeView} {e e' t : Election} {rep : Account} {a b : VoteInfo}
  {sequence : Nat} {hash : BlockHash}

/-- The votes of the representative count in elections. -/
def counts (node : NodeView) (rep : Account) : Bool :=
  node.isTestNetwork || decide (node.minimumPrincipalWeight < node.weight rep)

/-- The result of `election::vote`. -/
def voteResult (node : NodeView) (e : Election) (rep : Account) (sequence : Nat) (hash : BlockHash) :
    ElectionVoteResult :=
  if counts node rep then
    match e.lastVotes.lookup rep with
    | none => { processed := true }
    | some last =>
      if last.sequence < sequence ∨ last.sequence = sequence ∧ last.hash < hash then
        { processed := last.time.all fun time =>
            decide (time ≤ node.now 20 - cooldown node (node.weight rep)) }
      else { replay := true }
  else {}

theorem voteResult_processed : (e.voteResult node rep sequence hash).processed =
    (counts node rep && e.shouldProcess node rep sequence hash) := by
  unfold voteResult shouldProcess
  cases counts node rep with
  | false => rfl
  | true =>
    cases e.lastVotes.lookup rep with
    | none => rfl
    | some last =>
      by_cases hnew : last.sequence < sequence ∨ last.sequence = sequence ∧ last.hash < hash
      · rcases hnew with hlt | ⟨rfl, hlt⟩
        · simp [hlt]
        · simp [hlt]
      · simp only [if_true, if_neg hnew]
        rw [not_or, not_and] at hnew
        by_cases heq : last.sequence = sequence
        · simp [heq, hnew.2 heq]
        · simp [heq, hnew.1]

theorem vote_of_not_processed (h : (e.voteResult node rep sequence hash).processed = false) :
    e.vote p node rep sequence hash = some e := by
  rw [voteResult_processed, Bool.and_eq_false_iff] at h
  unfold Election.vote
  rcases h with hcounts | hproc
  · rw [if_neg]
    simpa [counts] using hcounts
  · simp [hproc]

/-! ## What a call does to a recorded vote -/

/-- The vote is dropped, stays, or makes way for a later one. -/
def Change (rep : Account) (e e' : Election) : Prop :=
  e'.lastVotes.lookup rep = none ∨ e'.lastVotes.lookup rep = e.lastVotes.lookup rep ∨
    ∃ b, e'.lastVotes.lookup rep = some b ∧ ∀ a, e.lastVotes.lookup rep = some a → a.Before b

theorem Change.of_eq (h : e'.lastVotes = e.lastVotes) : Change rep e e' := .inr (.inl (by rw [h]))

theorem Change.drop (h : Change rep e t)
    (hdrop : e'.lastVotes.lookup rep = t.lastVotes.lookup rep ∨ e'.lastVotes.lookup rep = none) :
    Change rep e e' := by
  rcases hdrop with hsame | hnone
  · unfold Change
    rw [hsame]
    exact h
  · exact .inl hnone

theorem removeVotes_lookup (hash : BlockHash) :
    (e.removeVotes node hash).lastVotes.lookup rep = e.lastVotes.lookup rep ∨
      (e.removeVotes node hash).lastVotes.lookup rep = none := by
  have hfold (reps : List Account) (votes : Table Account VoteInfo) :
      (reps.foldl (fun votes rep => votes.erase rep) votes).lookup rep = votes.lookup rep ∨
        (reps.foldl (fun votes rep => votes.erase rep) votes).lookup rep = none := by
    induction reps generalizing votes with
    | nil => exact .inl rfl
    | cons r reps ih =>
      rw [foldl_cons]
      rcases ih (votes.erase r) with hsame | hnone
      · rw [hsame, Finmap.lookup_erase_eq]
        split
        · exact .inr rfl
        · exact .inl rfl
      · exact .inr hnone
  unfold removeVotes
  split
  · exact hfold _ _
  · exact .inl rfl

theorem changeWinner_lookup (sum : Amount) (block : Block) :
    (e.changeWinner p node sum block).lastVotes.lookup rep = e.lastVotes.lookup rep ∨
      (e.changeWinner p node sum block).lastVotes.lookup rep = none := by
  unfold changeWinner
  dsimp only
  split
  · exact removeVotes_lookup (e := { e with status := { e.status with winner := block } }) _
  · exact .inl rfl

theorem confirmIfQuorum_lookup (h : e.confirmIfQuorum p node = some e') :
    e'.lastVotes.lookup rep = e.lastVotes.lookup rep ∨ e'.lastVotes.lookup rep = none := by
  unfold confirmIfQuorum at h
  simp only [bind_eq_bind, bind_eq_some_iff] at h
  obtain ⟨⟨weight, block⟩, -, quorum, -, h⟩ := h
  split at h <;> cases h
  · rw [(confirmOnce_moves _).votes]
    exact changeWinner_lookup _ _
  · exact changeWinner_lookup _ _

theorem Change.vote {voter : Account} (h : e.vote p node voter sequence hash = some e') :
    Change rep e e' := by
  have hrecord (hnew : e.shouldProcess node voter sequence hash = true) :
      Change rep e { e with lastVotes := e.lastVotes.insert voter ⟨some (node.now 21), sequence, hash⟩ } := by
    unfold Change
    rw [Finmap.lookup_insert_eq]
    split
    · next heq =>
      subst heq
      refine .inr (.inr ⟨_, rfl, fun a ha => ?_⟩)
      rw [shouldProcess, ha] at hnew
      simpa [VoteInfo.Before] using (Bool.and_eq_true_iff.1 hnew).1
    · exact .inr (.inl rfl)
  unfold Election.vote at h
  dsimp only at h
  split_ifs at h with hcounts hproc hconf
  · cases h
    exact hrecord hproc
  · exact (hrecord hproc).drop (confirmIfQuorum_lookup h)
  · cases h
    exact .of_eq rfl
  · cases h
    exact .of_eq rfl

theorem lookup_cached (rep : Account) (voters : List Account) (votes : Table Account VoteInfo)
    (info : VoteInfo) :
    let votes' := voters.foldl (fun votes rep =>
      if rep ∈ votes then votes else votes.insert rep info) votes
    votes'.lookup rep = votes.lookup rep ∨ votes.lookup rep = none ∧ votes'.lookup rep = some info := by
  induction voters generalizing votes with
  | nil => exact .inl rfl
  | cons voter voters ih =>
    simp only [foldl_cons]
    by_cases hmem : voter ∈ votes
    · rw [if_pos hmem]
      exact ih votes
    · rw [if_neg hmem]
      have hstep := ih (votes.insert voter info)
      rw [Finmap.lookup_insert_eq] at hstep
      by_cases heq : rep = voter
      · subst heq
        rw [if_pos rfl] at hstep
        refine .inr ⟨lookup_eq_none.2 hmem, ?_⟩
        exact hstep.resolve_right fun h => nomatch h.1
      · rwa [if_neg heq] at hstep

theorem Change.insertInactiveVotesCache (h : e.insertInactiveVotesCache p node hash = some e') :
    Change rep e e' := by
  unfold Election.insertInactiveVotesCache at h
  dsimp only at h
  have hcached : Change rep e { e with lastVotes := (node.voters hash).foldl (fun votes rep =>
      if rep ∈ votes then votes else votes.insert rep ⟨none, 0, hash⟩) e.lastVotes } := by
    rcases lookup_cached rep (node.voters hash) e.lastVotes ⟨none, 0, hash⟩ with
      hsame | ⟨hnone, hnew⟩
    · exact .inr (.inl hsame)
    · refine .inr (.inr ⟨_, hnew, fun a ha => ?_⟩)
      rw [hnone] at ha
      cases ha
  split at h
  · exact hcached.drop (confirmIfQuorum_lookup h)
  · cases h
    exact hcached

theorem Change.publish {block : Block} (h : e.publish p node block = some e') : Change rep e e' := by
  unfold Election.publish at h
  dsimp only at h
  split at h
  · cases h
    exact .of_eq rfl
  · split at h
    · obtain ⟨inserted, hins, h⟩ := bind_eq_some_iff.1 h
      -- the new candidate does not change the votes
      have haft : Change rep { e with blocks := e.blocks.insert (p.hash block) block } e' := by
        split at h
        · next hemp =>
          rw [insertInactiveVotesCache_of_isEmpty hemp] at hins
          cases hins
          exact (Change.of_eq rfl).drop (confirmIfQuorum_lookup h)
        · cases h
          exact Change.insertInactiveVotesCache hins
      exact haft
    · cases h
      apply Change.of_eq
      split <;> rfl

/-! ## Runs -/

/-- The calls that bring votes and blocks. -/
inductive Delivers : Call → Prop
  | vote (rep : Account) (sequence : Nat) (hash : BlockHash) : Delivers (.vote rep sequence hash)
  | insertInactiveVotesCache (hash : BlockHash) : Delivers (.insertInactiveVotesCache hash)
  | publish (block : Block) : Delivers (.publish block)

theorem Change.exec {call : Call} (hcall : Delivers call) (h : e.exec p node call = some e') :
    Change rep e e' := by
  cases hcall with
  | vote voter sequence hash => exact .vote h
  | insertInactiveVotesCache hash => exact .insertInactiveVotesCache h
  | publish block => exact .publish h

/-- A call that does not drop the vote of the representative. -/
def KeepStep (p : Params) (rep : Account) (e : Election) (call : NodeView × Call) (e' : Election) :
    Prop :=
  e.exec p call.1 call.2 = some e' ∧ (rep ∈ e.lastVotes → rep ∈ e'.lastVotes)

/-- A sequence of calls none of which drops the vote of the representative. -/
def Keeps (p : Params) (rep : Account) : Election → Election → Prop :=
  Reaches (KeepStep p rep) fun _ call => Delivers call.2

theorem Keeps.lookup (h : Keeps p rep t e) (ha : t.lastVotes.lookup rep = some a) :
    ∃ b, e.lastVotes.lookup rep = some b ∧ (b = a ∨ a.Before b) := by
  refine h.invariant (I := fun e => ∃ b, e.lastVotes.lookup rep = some b ∧ (b = a ∨ a.Before b))
    ⟨a, ha, .inl rfl⟩ ?_
  rintro u call u' ⟨b, hb, hab⟩ hcall ⟨hexec, hkeep⟩
  have hmem := hkeep (mem_of_lookup_eq_some hb)
  have hchg : Change rep u u' := .exec hcall hexec
  rcases hchg with hnone | hsame | ⟨b', hb', hlater⟩
  · exact absurd (lookup_eq_none.1 hnone) (not_not.2 hmem)
  · exact ⟨b, hsame.trans hb, hab⟩
  · refine ⟨b', hb', .inr ?_⟩
    rcases hab with rfl | hab
    · exact hlater b hb
    · exact hab.trans (hlater b hb)

theorem voteResult_replay (hb : e.lastVotes.lookup rep = some b)
    (hold : ¬ (b.sequence < sequence ∨ b.sequence = sequence ∧ b.hash < hash)) :
    e.voteResult node rep sequence hash = ⟨counts node rep, false⟩ := by
  unfold voteResult
  cases counts node rep with
  | false => rfl
  | true => simp only [hb, if_neg hold, if_true]

end Election

/-- A vote that is delivered, with what the election reads from the node then. -/
structure Delivery where
  node : NodeView
  rep : Account
  sequence : Nat
  hash : BlockHash

namespace Election

/-- Votes are delivered one after the other. -/
def deliver (p : Params) (e : Election) : List Delivery → Option (Election × List ElectionVoteResult)
  | [] => some (e, [])
  | v :: votes => do
    let result := e.voteResult v.node v.rep v.sequence v.hash
    let e ← e.vote p v.node v.rep v.sequence v.hash
    let (e, results) ← deliver p e votes
    return (e, result :: results)

/-- The vote was recorded at some earlier time, and its representative was not dropped since. -/
def Recorded (p : Params) (e : Election) (v : Delivery) : Prop :=
  ∃ t a, Keeps p v.rep t e ∧ t.lastVotes.lookup v.rep = some a ∧ a.sequence = v.sequence ∧
    a.hash = v.hash

theorem Recorded.voteResult {p : Params} {e : Election} {v : Delivery} (h : e.Recorded p v) :
    e.voteResult v.node v.rep v.sequence v.hash = ⟨counts v.node v.rep, false⟩ := by
  obtain ⟨t, a, hkeeps, ha, hseq, hhash⟩ := h
  obtain ⟨b, hb, hab⟩ := hkeeps.lookup ha
  refine voteResult_replay hb ?_
  rw [← hseq, ← hhash]
  rintro haft
  rcases hab with rfl | hab
  · rcases haft with hlt | ⟨-, hlt⟩
    · exact lt_irrefl _ hlt
    · exact BitVec.lt_irrefl _ hlt
  · rcases VoteInfo.Before.trans hab haft with hlt | ⟨-, hlt⟩
    · exact lt_irrefl _ hlt
    · exact BitVec.lt_irrefl _ hlt

end Election

open Election in
/-- In every sequence of calls the recorded votes of a representative that is not dropped go up
whenever they change. Recorded votes that are delivered again, in any order and at any times, leave
the election as it is, and are reported as replays as far as the votes of the representative count
at that time. -/
theorem vote_replay_protection (p : Params) (e : Election) :
    (∀ rep t a, Keeps p rep t e → t.lastVotes.lookup rep = some a →
      ∃ b, e.lastVotes.lookup rep = some b ∧ (b = a ∨ a.Before b)) ∧
    ∀ votes : List Delivery, (∀ v ∈ votes, e.Recorded p v) →
      e.deliver p votes = some (e, votes.map fun v => ⟨counts v.node v.rep, false⟩) := by
  refine ⟨fun rep t a hkeeps ha => hkeeps.lookup ha, fun votes hvs => ?_⟩
  induction votes with
  | nil => rfl
  | cons v votes ih =>
    have hres := (hvs v mem_cons_self).voteResult
    have hvote : e.vote p v.node v.rep v.sequence v.hash = some e :=
      vote_of_not_processed (by rw [hres])
    have hrest := ih fun v' hv' => hvs v' (mem_cons_of_mem v hv')
    simp only [deliver, hres, hvote, hrest, bind_eq_bind, bind_some, Option.pure_def, map_cons]

namespace Sample

/-- The view of a vote of representative 21 for the block of the election. -/
def viewVote : NodeView := { view with order := [byteParams.hash wordsSend], onlineWeightMinimum := 80 }

def viewLight : NodeView := { viewVote with weight := fun _ => 0 }

def again (node : NodeView) : Delivery := ⟨node, 21, 7, byteParams.hash wordsSend⟩

theorem exists_voted : ∃ e, election.vote byteParams viewVote 21 7 (byteParams.hash wordsSend) = some e ∧
    e.lastVotes.lookup 21 = some ⟨some 0, 7, byteParams.hash wordsSend⟩ := by
  have h : (election.vote byteParams viewVote 21 7 (byteParams.hash wordsSend)).map
      (fun e => e.lastVotes.lookup 21) = some (some ⟨some 0, 7, byteParams.hash wordsSend⟩) := by
    decide +kernel
  exact map_eq_some_iff.1 h

end Sample

open Sample

theorem vote_replay_protection_again : ∃ e,
    election.vote byteParams viewVote 21 7
      (byteParams.hash wordsSend) = some e ∧
    e.deliver byteParams [again viewVote, again viewVote] =
      some (e, [⟨true, false⟩, ⟨true, false⟩]) := by
  obtain ⟨e, hvote, hlk⟩ := exists_voted
  have hrec : e.Recorded byteParams (again viewVote) := ⟨e, _, .refl, hlk, rfl, rfl⟩
  exact ⟨e, hvote, (vote_replay_protection byteParams e).2
    [again viewVote, again viewVote] (by simp [hrec])⟩

/-- A recorded vote of a representative that has lost its weight is not reported as a replay. -/
theorem vote_replay_unreported : ∃ e,
    election.vote byteParams viewVote 21 7
      (byteParams.hash wordsSend) = some e ∧
    e.Recorded byteParams (again viewLight) ∧
    e.deliver byteParams [again viewLight] = some (e, [⟨false, false⟩]) := by
  obtain ⟨e, hvote, hlk⟩ := exists_voted
  have hrec : e.Recorded byteParams (again viewLight) := ⟨e, _, .refl, hlk, rfl, rfl⟩
  have hres := hrec.voteResult
  have hcounts : Election.counts viewLight 21 = false := by decide
  have hsame : e.vote byteParams viewLight 21 7
      (byteParams.hash wordsSend) = some e :=
    Election.vote_of_not_processed (congrArg ElectionVoteResult.processed hres)
  refine ⟨e, hvote, hrec, ?_⟩
  simp only [again] at hres
  simp only [Election.deliver, again, hres, hcounts, hsame, bind_eq_bind,
    bind_some, Option.pure_def]

end Futurehead
