import Futurehead.Voting.Quorum
import Futurehead.Voting.Replay

/-!
# Candidates of an election

An election starts with one candidate and a vote of `not_an_account` for it, which nobody can replace.
As long as the election runs its candidates have one root, its winner is among them, and the first
vote is for one of them. So the tally has an entry whenever `confirm_if_quorum` reads the first one.
-/

namespace Futurehead

open List Finmap

/-- The order in which a map with certain keys is gone through. -/
structure MapOrder where
  list : Finset BlockHash → List BlockHash
  nodup : ∀ keys, (list keys).Nodup
  mem : ∀ keys hash, hash ∈ list keys ↔ hash ∈ keys

/-- What a call finds in the node, whatever the votes are. -/
structure ElectionView where
  node : NodeView
  order : MapOrder

namespace Election

variable (p : Params) (node : NodeView) (e : Election)

/-- The result of `election::publish`: no candidate is added. -/
def publishResult (block : Block) : Bool :=
  let hash := p.hash block
  e.confirmed ||
    decide (10 ≤ e.blocks.keys.card) && decide (e.lastTally hash < node.onlineStake / 10) ||
    decide (hash ∈ e.blocks)

def cached (hash : BlockHash) : Election :=
  { e with lastVotes := (node.voters hash).foldl (fun votes rep =>
      if rep ∈ votes then votes else votes.insert rep ⟨none, 0, hash⟩) e.lastVotes }

def counted : Call → Election
  | .vote rep sequence hash =>
    { e with lastVotes := e.lastVotes.insert rep ⟨some (node.now 21), sequence, hash⟩ }
  | .publish block => e.cached node (p.hash block)
  | .insertInactiveVotesCache hash => e.cached node hash
  | _ => e

/-- What the node is for a call: the order is that of the votes that are counted. -/
def nodeOf (view : ElectionView) (call : Call) : NodeView :=
  { view.node with order := view.order.list (e.counted p view.node call).votedFor }

def call (view : ElectionView) (call : Call) : Option Election :=
  e.exec p (e.nodeOf p view call) call

theorem ordered_nodeOf (view : ElectionView) (call : Call) :
    (e.counted p view.node call).Ordered (e.nodeOf p view call) :=
  ⟨view.order.nodup _, view.order.mem _⟩

end Election

/-- Nobody votes as `not_an_account`, so its votes are not among those the node has generated. -/
def NodeView.Fair (notAnAccount : Account) (node : NodeView) : Prop :=
  ∀ hash, notAnAccount ∉ node.generatedVotes hash

namespace Election

variable {p : Params} {known : Block → Prop} {notAnAccount : Account} {root : QualifiedRoot}
  {node : NodeView} {e e' e'' : Election} {hash : BlockHash} {block : Block}

/-- An election that is registered under `root`. -/
structure Seated (p : Params) (known : Block → Prop) (notAnAccount : Account) (root : QualifiedRoot)
    (e : Election) : Prop where
  candidate : ∀ {hash block}, e.blocks.lookup hash = some block →
    known block ∧ p.hash block = hash ∧ block.hashables.qualifiedRoot = root
  winner : e.blocks.lookup (p.hash e.status.winner) = some e.status.winner
  first : ∃ info, e.lastVotes.lookup notAnAccount = some info ∧ info.hash ∈ e.blocks

theorem Seated.of_same (h : e.Seated p known notAnAccount root) (hbs : e'.blocks = e.blocks)
    (hwin : e'.status.winner = e.status.winner)
    (hvs : e'.lastVotes.lookup notAnAccount = e.lastVotes.lookup notAnAccount) :
    e'.Seated p known notAnAccount root where
  candidate := by
    rw [hbs]
    exact h.candidate
  winner := by
    rw [hbs, hwin]
    exact h.winner
  first := by
    rw [hbs, hvs]
    exact h.first

theorem seated_start (node : NodeView) (hkn : known block) :
    (start p node notAnAccount block).Seated p known notAnAccount block.hashables.qualifiedRoot where
  candidate := by
    intro hash b hget
    have hget' : ((∅ : Table BlockHash Block).insert (p.hash block) block).lookup hash = some b := hget
    rw [Finmap.lookup_insert_eq] at hget'
    split at hget'
    · next heq =>
      cases hget'
      exact ⟨hkn, heq.symm, rfl⟩
    · cases hget'
  winner := lookup_insert _
  first := ⟨_, lookup_insert _, mem_insert.2 (.inl rfl)⟩

/-! ## Calls that move an election on -/

theorem Moves.trans (h : Moves e e') (h' : Moves e' e'') : Moves e e'' :=
  ⟨h'.blocks.trans h.blocks, h'.winner.trans h.winner, h'.votes.trans h.votes⟩

theorem Seated.moves (h : e.Seated p known notAnAccount root) (hmvs : Moves e e') :
    e'.Seated p known notAnAccount root :=
  h.of_same hmvs.blocks hmvs.winner (by rw [hmvs.votes])

theorem stateChange_moves (expected desired : ElectionState) :
    Moves e (e.stateChange node expected desired) := by
  unfold stateChange
  split <;> exact ⟨rfl, rfl, rfl⟩

theorem sendConfirmReq_moves : Moves e (e.sendConfirmReq node) := by
  unfold sendConfirmReq
  split <;> exact ⟨rfl, rfl, rfl⟩

theorem broadcastBlock_moves : Moves e (e.broadcastBlock node) := by
  unfold broadcastBlock
  split <;> exact ⟨rfl, rfl, rfl⟩

theorem transitionState_moves : Moves e (e.transitionState node).2 := by
  unfold transitionState
  split
  case h_2 =>
    dsimp only
    split
    · exact stateChange_moves _ _
    · exact ⟨rfl, rfl, rfl⟩
  case h_3 =>
    dsimp only
    split
    · exact sendConfirmReq_moves.trans (stateChange_moves _ _)
    · exact sendConfirmReq_moves
  case h_4 =>
    have hsent : Moves e ((e.broadcastBlock node).sendConfirmReq node) :=
      broadcastBlock_moves.trans sendConfirmReq_moves
    dsimp only
    split
    · exact hsent.trans (stateChange_moves _ _)
    · exact hsent
  case h_5 => exact broadcastBlock_moves.trans sendConfirmReq_moves
  case h_6 =>
    split
    · exact stateChange_moves _ _
    · exact ⟨rfl, rfl, rfl⟩
  all_goals exact ⟨rfl, rfl, rfl⟩

theorem transitionTime_moves : Moves e (e.transitionTime node).2 := by
  have hfst : Moves e (e.transitionState node).2 := transitionState_moves
  unfold transitionTime
  dsimp only
  generalize (e.transitionState node).2 = moved at hfst
  split
  · have hexp : Moves moved (moved.stateChange node moved.state .expiredUnconfirmed) :=
      stateChange_moves _ _
    have hchg := hfst.trans hexp
    exact ⟨hchg.blocks, hchg.winner, hchg.votes⟩
  · exact hfst

theorem confirmBlock_moves (hash : BlockHash) : Moves e (e.confirmBlock p node hash) := by
  unfold confirmBlock
  split
  · exact confirmOnce_moves _
  · exact ⟨rfl, rfl, rfl⟩

/-! ## The tally -/

theorem Seated.tally (h : e.Seated p known notAnAccount root) (hord : e.Ordered node) :
    ∃ weight block rest, e.tally node = (weight, block) :: rest ∧
      e.blocks.lookup (p.hash block) = some block := by
  obtain ⟨info, hinfo, hmem⟩ := h.first
  have hvoted : info.hash ∈ e.votedFor := by
    rw [votedFor, Multiset.mem_toFinset]
    exact Multiset.mem_map.2 ⟨⟨notAnAccount, info⟩, Finmap.lookup_eq_some_iff.1 hinfo, rfl⟩
  have hspec := tally_spec node e
  have hwt := hspec.weight ((hord.2 _).2 hvoted) hmem
  cases htally : e.tally node with
  | nil =>
    rw [htally] at hwt
    exact absurd hwt not_mem_nil
  | cons x rest =>
    rw [htally] at hspec
    obtain ⟨hash, -, hget, -⟩ := hspec.entry mem_cons_self
    refine ⟨x.1, x.2, rest, rfl, ?_⟩
    rw [(h.candidate hget).2.1]
    exact hget

theorem removeVotes_lookup_of_notMem {rep : Account} (hrep : rep ∉ node.generatedVotes hash) :
    (e.removeVotes node hash).lastVotes.lookup rep = e.lastVotes.lookup rep := by
  have hfold : ∀ (reps : List Account) (votes : Table Account VoteInfo), rep ∉ reps →
      (reps.foldl (fun votes rep => votes.erase rep) votes).lookup rep = votes.lookup rep := by
    intro reps
    induction reps with
    | nil => exact fun _ _ => rfl
    | cons r reps ih =>
      intro votes hnot
      rw [mem_cons, not_or] at hnot
      rw [foldl_cons, ih _ hnot.2, Finmap.lookup_erase_eq, if_neg hnot.1]
  unfold removeVotes
  split
  · exact hfold _ _ hrep
  · rfl

theorem removeVotes_same (hash : BlockHash) :
    (e.removeVotes node hash).blocks = e.blocks ∧ (e.removeVotes node hash).status = e.status := by
  unfold removeVotes
  split <;> exact ⟨rfl, rfl⟩

theorem Seated.changeWinner (h : e.Seated p known notAnAccount root) (hfair : node.Fair notAnAccount)
    (hblk : e.blocks.lookup (p.hash block) = some block) (sum : Amount) :
    (e.changeWinner p node sum block).Seated p known notAnAccount root := by
  have hchosen : ({ e with status := { e.status with winner := block } } : Election).Seated p known
      notAnAccount root := ⟨h.candidate, hblk, h.first⟩
  unfold Election.changeWinner
  dsimp only
  split
  · obtain ⟨hbs, hstatus⟩ := removeVotes_same (p.hash e.status.winner)
    exact hchosen.of_same hbs (congrArg ElectionStatus.winner hstatus)
      (removeVotes_lookup_of_notMem (hfair _))
  · exact h

theorem Seated.confirmIfQuorum (h : e.Seated p known notAnAccount root) (hord : e.Ordered node)
    (hfair : node.Fair notAnAccount) : ∃ e', e.confirmIfQuorum p node = some e' ∧
      e'.Seated p known notAnAccount root ∧ e'.blocks = e.blocks := by
  obtain ⟨weight, block, rest, htally, hblk⟩ := h.tally hord
  have hcounted : ({ e with lastTally := e.blockWeight node
                            status := { e.status with tally := weight } } : Election).Seated p known
      notAnAccount root := ⟨h.candidate, h.winner, h.first⟩
  have hchanged := hcounted.changeWinner hfair hblk (((weight, block) :: rest).map (·.1)).sum
  obtain ⟨quorum, hquo⟩ : ∃ quorum, haveQuorum node ((weight, block) :: rest)
      (((weight, block) :: rest).map (·.1)).sum = some quorum := by
    unfold haveQuorum
    split <;> exact ⟨_, rfl⟩
  unfold Election.confirmIfQuorum
  simp only [htally, head?_cons, Option.bind_eq_bind, Option.bind_some, hquo]
  cases quorum with
  | true =>
    exact ⟨_, rfl, hchanged.moves (confirmOnce_moves _),
      (confirmOnce_moves _).blocks.trans (changeWinner_same _ _).2.2⟩
  | false => exact ⟨_, rfl, hchanged, (changeWinner_same _ _).2.2⟩

/-! ## Votes and blocks -/

theorem cached_lookup {rep : Account} (h : rep ∈ e.lastVotes) (hash : BlockHash) :
    (e.cached node hash).lastVotes.lookup rep = e.lastVotes.lookup rep :=
  (lookup_cached rep (node.voters hash) e.lastVotes ⟨none, 0, hash⟩).resolve_right fun hnone =>
    lookup_eq_none.1 hnone.1 h

section

variable (h : e.Seated p known notAnAccount root)

include h

theorem Seated.cached (hash : BlockHash) :
    (e.cached node hash).Seated p known notAnAccount root := by
  obtain ⟨info, hinfo, -⟩ := h.first
  exact h.of_same rfl rfl (cached_lookup (mem_iff.2 ⟨info, hinfo⟩) hash)

theorem Seated.vote {rep : Account} {sequence : Nat} (hrep : rep ≠ notAnAccount)
    (hfair : node.Fair notAnAccount)
    (hord : (e.counted p node (.vote rep sequence hash)).Ordered node) :
    ∃ e', e.vote p node rep sequence hash = some e' ∧ e'.Seated p known notAnAccount root ∧
      e'.blocks = e.blocks := by
  have hvoted : (e.counted p node (.vote rep sequence hash)).Seated p known notAnAccount root :=
    h.of_same rfl rfl (lookup_insert_of_ne _ (Ne.symm hrep))
  unfold Election.vote
  dsimp only
  split_ifs
  · exact ⟨_, rfl, hvoted, rfl⟩
  · exact hvoted.confirmIfQuorum hord hfair
  · exact ⟨e, rfl, h, rfl⟩
  · exact ⟨e, rfl, h, rfl⟩

theorem Seated.insertInactiveVotesCache (hash : BlockHash) (hfair : node.Fair notAnAccount)
    (hord : (e.cached node hash).Ordered node) :
    ∃ e', e.insertInactiveVotesCache p node hash = some e' ∧ e'.Seated p known notAnAccount root ∧
      e'.blocks = e.blocks := by
  have hcached : (e.cached node hash).Seated p known notAnAccount root := h.cached hash
  unfold Election.insertInactiveVotesCache
  dsimp only
  split
  · exact hcached.confirmIfQuorum hord hfair
  · exact ⟨_, rfl, hcached, rfl⟩

theorem Seated.insert (hkn : known block) (hroot : block.hashables.qualifiedRoot = root)
    (hbs : e'.blocks = e.blocks.insert (p.hash block) block) (hwin : e'.status.winner =
      if p.hash e.status.winner = p.hash block then block else e.status.winner)
    (hvs : e'.lastVotes = e.lastVotes) : e'.Seated p known notAnAccount root where
  candidate := by
    intro hash b hget
    rw [hbs, Finmap.lookup_insert_eq] at hget
    split at hget
    · next heq =>
      cases hget
      exact ⟨hkn, heq.symm, hroot⟩
    · exact h.candidate hget
  winner := by
    rw [hbs]
    by_cases heq : p.hash e.status.winner = p.hash block
    · rw [hwin, if_pos heq]
      exact lookup_insert _
    · rw [hwin, if_neg heq, lookup_insert_of_ne _ heq, h.winner]
  first := by
    obtain ⟨info, hinfo, hmem⟩ := h.first
    rw [hbs, hvs]
    exact ⟨info, hinfo, mem_insert.2 (.inr hmem)⟩

theorem Seated.publish (hkn : known block) (hroot : block.hashables.qualifiedRoot = root)
    (hfair : node.Fair notAnAccount) (hord : (e.cached node (p.hash block)).Ordered node) :
    ∃ e', e.publish p node block = some e' ∧ e'.Seated p known notAnAccount root ∧
      ∀ hash, hash ∈ e'.blocks ↔
        hash ∈ e.blocks ∨ e.publishResult p node block = false ∧ hash = p.hash block := by
  unfold Election.publish
  dsimp only
  split
  · next hfull =>
    have hres : e.publishResult p node block = true := by
      unfold publishResult
      dsimp only
      rw [hfull, Bool.true_or]
    refine ⟨e, rfl, h, fun hash => ?_⟩
    simp [hres]
  · next hfull =>
    have hres : e.publishResult p node block = decide (p.hash block ∈ e.blocks) := by
      unfold publishResult
      dsimp only
      rw [Bool.eq_false_of_not_eq_true hfull, Bool.false_or]
    split
    · next hnone =>
      have hnot := lookup_eq_none.1 hnone
      have hne : p.hash e.status.winner ≠ p.hash block := by
        intro heq
        rw [← heq, h.winner] at hnone
        cases hnone
      have hadded : ({ e with blocks := e.blocks.insert (p.hash block) block } : Election).Seated p
          known notAnAccount root := h.insert hkn hroot rfl (if_neg hne).symm rfl
      have hkeys (b' : Table BlockHash Block) (hb' : b' = e.blocks.insert (p.hash block) block) :
          ∀ hash, hash ∈ b' ↔
            hash ∈ e.blocks ∨ e.publishResult p node block = false ∧ hash = p.hash block := by
        intro hash
        rw [hb', mem_insert, hres, decide_eq_false hnot]
        tauto
      obtain ⟨e1, hins, hseated1, hbs1⟩ :=
        hadded.insertInactiveVotesCache (p.hash block) hfair hord
      simp only [hins, Option.bind_eq_bind, Option.bind_some]
      split
      · next hemp =>
        rw [insertInactiveVotesCache_of_isEmpty hemp] at hins
        cases hins
        have hsame : e.cached node (p.hash block) = e := by
          unfold Election.cached
          rw [List.isEmpty_iff.1 hemp]
          rfl
        rw [hsame] at hord
        obtain ⟨e', hrun, hseat, hbs⟩ := hadded.confirmIfQuorum hord hfair
        exact ⟨e', hrun, hseat, hkeys _ hbs⟩
      · exact ⟨e1, rfl, hseated1, hkeys _ hbs1⟩
    · next old hold =>
      have hmem : p.hash block ∈ e.blocks := mem_iff.2 ⟨old, hold⟩
      have hkeys : ∀ hash, hash ∈ e.blocks.insert (p.hash block) block ↔
          hash ∈ e.blocks ∨ e.publishResult p node block = false ∧ hash = p.hash block := by
        intro hash
        rw [mem_insert, hres, decide_eq_true hmem]
        constructor
        · rintro (rfl | hhash)
          · exact .inl hmem
          · exact .inl hhash
        · rintro (hhash | ⟨hfls, -⟩)
          · exact .inr hhash
          · cases hfls
      split
      · next heq => exact ⟨_, rfl, h.insert hkn hroot rfl (if_pos heq).symm rfl, hkeys⟩
      · next hne => exact ⟨_, rfl, h.insert hkn hroot rfl (if_neg hne).symm rfl, hkeys⟩

end

/-! ## Calls -/

/-- The calls that leave the candidates alone, with votes of others than `not_an_account`. -/
def Call.Counts (notAnAccount : Account) : Call → Prop
  | .vote rep _ _ => rep ≠ notAnAccount
  | .publish _ => False
  | .cleanup => False
  | _ => True

theorem Seated.call (h : e.Seated p known notAnAccount root) {view : ElectionView}
    (hfair : view.node.Fair notAnAccount) {call : Call} (hcall : call.Counts notAnAccount) :
    ∃ e', e.call p view call = some e' ∧ e'.Seated p known notAnAccount root ∧
      e'.blocks = e.blocks := by
  have hord := e.ordered_nodeOf p view call
  have hmv {e' : Election} (hmvs : Moves e e') :
      ∃ t, some e' = some t ∧ t.Seated p known notAnAccount root ∧ t.blocks = e.blocks :=
    ⟨e', rfl, h.moves hmvs, hmvs.blocks⟩
  cases call with
  | vote rep sequence hash => exact h.vote hcall hfair hord
  | publish block => exact hcall.elim
  | insertInactiveVotesCache hash => exact h.insertInactiveVotesCache hash hfair hord
  | transitionActive | transitionPassive => exact hmv (stateChange_moves _ _)
  | transitionTime => exact hmv transitionTime_moves
  | confirmBlock hash => exact hmv (confirmBlock_moves hash)
  | cleanup => exact hcall.elim

end Election

end Futurehead
