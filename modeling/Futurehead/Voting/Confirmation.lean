import Futurehead.Base.Run
import Futurehead.Voting.Election
import Futurehead.Wire.Block

/-!
# Confirmation is final

What one call can do to an election is said once, in `Election.Step`: a confirmed election keeps its
winner and its confirmations, and one that is not confirmed gains at most one confirmation, together
with the state `confirmed`. What holds along every sequence of calls follows
(`confirmation_irrevocable`).
-/

namespace Futurehead

open Option Bool

namespace Election

variable {p : Params} {node : NodeView} {e e' e'' : Election}

structure Step (p : Params) (e e' : Election) : Prop where
  final : e.confirmed → e'.confirmed ∧ p.hash e'.status.winner = p.hash e.status.winner ∧
    e'.confirmations = e.confirmations
  once : e.confirmed = false → e'.confirmations = e.confirmations ∨
    e'.confirmed ∧ ∃ status, e'.confirmations = e.confirmations ++ [status]
  expires : e'.state = .expiredConfirmed → e.state = .expiredConfirmed ∨ e.state = .confirmed

theorem Step.of_same (hsta : e'.state = e.state)
    (hwin : p.hash e'.status.winner = p.hash e.status.winner)
    (hconf : e'.confirmations = e.confirmations) : Step p e e' where
  final h := ⟨by unfold confirmed at h ⊢; rwa [hsta], hwin, hconf⟩
  once _ := .inl hconf
  expires h := .inl (hsta ▸ h)

theorem Step.of_unconfirmed (h : e.confirmed = false) (hsta : e'.state = e.state)
    (hconf : e'.confirmations = e.confirmations) : Step p e e' where
  final h' := absurd h' (by simp [h])
  once _ := .inl hconf
  expires h' := .inl (hsta ▸ h')

structure Moves (e e' : Election) : Prop where
  blocks : e'.blocks = e.blocks
  winner : e'.status.winner = e.status.winner
  votes : e'.lastVotes = e.lastVotes

theorem confirmOnce_moves (type : ElectionStatusType) : Moves e (e.confirmOnce p node type) := by
  unfold confirmOnce
  dsimp only
  split <;> exact ⟨rfl, rfl, rfl⟩

theorem confirmOnce_confirmed (type : ElectionStatusType) :
    (e.confirmOnce p node type).state = .confirmed := by
  unfold confirmOnce
  dsimp only
  split <;> rfl

theorem confirmOnce_confirmations (type : ElectionStatusType) :
    (e.confirmOnce p node type).confirmations = e.confirmations ∨
      ∃ status, (e.confirmOnce p node type).confirmations = e.confirmations ++ [status] := by
  unfold confirmOnce
  dsimp only
  split
  · exact .inr ⟨_, rfl⟩
  · exact .inl rfl

theorem Step.confirmOnce (h : e.confirmed = false) (type : ElectionStatusType) :
    Step p e (e.confirmOnce p node type) where
  final h' := absurd h' (by simp [h])
  once _ := (confirmOnce_confirmations type).imp_right fun hone =>
    ⟨by unfold confirmed; rw [confirmOnce_confirmed]; rfl, hone⟩
  expires h' := by rw [confirmOnce_confirmed] at h'; cases h'

theorem Step.after (h2 : Step p e' e'') (h : e.confirmed = false) (hsta : e'.state = e.state)
    (hconf : e'.confirmations = e.confirmations) : Step p e e'' where
  final h' := absurd h' (by simp [h])
  once _ := hconf ▸ h2.once (by unfold confirmed at h ⊢; rwa [hsta])
  expires h' := hsta ▸ h2.expires h'

theorem changeWinner_same (sum : Amount) (block : Block) :
    (e.changeWinner p node sum block).state = e.state ∧
      (e.changeWinner p node sum block).confirmations = e.confirmations ∧
      (e.changeWinner p node sum block).blocks = e.blocks := by
  unfold changeWinner removeVotes
  dsimp only
  split
  · split <;> exact ⟨rfl, rfl, rfl⟩
  · exact ⟨rfl, rfl, rfl⟩

theorem Step.confirmIfQuorum (hrun : e.confirmIfQuorum p node = some e')
    (h : e.confirmed = false) : Step p e e' := by
  unfold Election.confirmIfQuorum at hrun
  simp only [bind_eq_bind, bind_eq_some_iff] at hrun
  obtain ⟨⟨weight, block⟩, -, quorum, -, hrun⟩ := hrun
  split at hrun <;> cases hrun
  · -- the winner may change before the election is confirmed
    refine .after (.confirmOnce ?_ _) h (changeWinner_same _ _).1 (changeWinner_same _ _).2.1
    unfold confirmed at h ⊢
    rwa [(changeWinner_same _ _).1]
  · exact .of_unconfirmed h (changeWinner_same _ _).1 (changeWinner_same _ _).2.1

theorem Step.vote {rep : Account} {sequence : Nat} {hash : BlockHash}
    (hrun : e.vote p node rep sequence hash = some e') : Step p e e' := by
  unfold Election.vote at hrun
  dsimp only at hrun
  split_ifs at hrun with hwt hproc hconf
  · cases hrun
    exact .of_same rfl rfl rfl
  · have hfls : e.confirmed = false := by rwa [not_eq_true] at hconf
    exact .after (.confirmIfQuorum hrun hfls) hfls rfl rfl
  · cases hrun
    exact .of_same rfl rfl rfl
  · cases hrun
    exact .of_same rfl rfl rfl

theorem Step.insertInactiveVotesCache {hash : BlockHash}
    (hrun : e.insertInactiveVotesCache p node hash = some e') : Step p e e' := by
  unfold Election.insertInactiveVotesCache at hrun
  dsimp only at hrun
  split at hrun
  · next hcond =>
    simp only [and_eq_true, not_eq_true'] at hcond
    exact .after (.confirmIfQuorum hrun hcond.1) hcond.1 rfl rfl
  · cases hrun
    exact .of_same rfl rfl rfl

theorem insertInactiveVotesCache_of_isEmpty {hash : BlockHash} (h : (node.voters hash).isEmpty) :
    e.insertInactiveVotesCache p node hash = some e := by
  unfold Election.insertInactiveVotesCache
  rw [List.isEmpty_iff] at h
  simp [h]

theorem Step.publish {block : Block} (hrun : e.publish p node block = some e') : Step p e e' := by
  unfold Election.publish at hrun
  dsimp only at hrun
  split at hrun
  · cases hrun
    exact .of_same rfl rfl rfl
  · next hfull =>
    have hfls : e.confirmed = false := by
      cases hc : e.confirmed
      · rfl
      · simp [hc] at hfull
    split at hrun
    · obtain ⟨inserted, hins, hrun⟩ := bind_eq_some_iff.1 hrun
      split at hrun
      · next hemp =>
        rw [insertInactiveVotesCache_of_isEmpty hemp] at hins
        cases hins
        exact .after (.confirmIfQuorum hrun hfls) hfls rfl rfl
      · cases hrun
        exact .after (.insertInactiveVotesCache hins) hfls rfl rfl
    · next old hold =>
      cases hrun
      exact .of_unconfirmed hfls (by split <;> rfl) (by split <;> rfl)

/-! ## Transitions -/

theorem stateChange_confirmations (expected desired : ElectionState) :
    (e.stateChange node expected desired).confirmations = e.confirmations := by
  unfold stateChange
  split <;> rfl

theorem stateChange_status (expected desired : ElectionState) :
    (e.stateChange node expected desired).status = e.status := by
  unfold stateChange
  split <;> rfl

theorem stateChange_state (expected desired : ElectionState) :
    (e.stateChange node expected desired).state = e.state ∨
      e.state = expected ∧ (e.stateChange node expected desired).state = desired := by
  unfold stateChange
  split
  · next h => exact .inr ⟨h.2, rfl⟩
  · exact .inl rfl

theorem Step.stateChange {expected desired : ElectionState}
    (h : expected ≠ .confirmed ∧ expected ≠ .expiredConfirmed ∧ desired ≠ .expiredConfirmed) :
    Step p e (e.stateChange node expected desired) where
  final hconf := by
    refine ⟨?_, by rw [stateChange_status], stateChange_confirmations _ _⟩
    unfold confirmed at hconf ⊢
    rcases stateChange_state expected desired with hsta | ⟨hexp, -⟩
    · rwa [hsta]
    · simp [hexp, h.1, h.2.1] at hconf
  once _ := .inl (stateChange_confirmations _ _)
  expires h' := by
    rcases stateChange_state expected desired with hsta | ⟨-, hsta⟩
    · exact .inl (hsta ▸ h')
    · exact absurd (hsta ▸ h') h.2.2

theorem Step.expire (h : e.state = .confirmed) :
    Step p e (e.stateChange node .confirmed .expiredConfirmed) where
  final _ := by
    refine ⟨?_, by rw [stateChange_status], stateChange_confirmations _ _⟩
    unfold confirmed
    rcases stateChange_state .confirmed .expiredConfirmed with hsta | ⟨-, hsta⟩
    · rw [hsta, h]; rfl
    · rw [hsta]; rfl
  once _ := .inl (stateChange_confirmations _ _)
  expires _ := .inr h

theorem Step.sendConfirmReq : Step p e (e.sendConfirmReq node) := by
  unfold Election.sendConfirmReq
  split <;> exact .of_same rfl rfl rfl

theorem sendConfirmReq_state : (e.sendConfirmReq node).state = e.state ∧
    (e.sendConfirmReq node).confirmations = e.confirmations := by
  unfold Election.sendConfirmReq
  split <;> exact ⟨rfl, rfl⟩

theorem broadcastBlock_state : (e.broadcastBlock node).state = e.state ∧
    (e.broadcastBlock node).confirmations = e.confirmations := by
  unfold Election.broadcastBlock
  split <;> exact ⟨rfl, rfl⟩

theorem Step.transitionState : Step p e (e.transitionState node).2 := by
  unfold Election.transitionState
  split
  case h_2 hsta =>
    dsimp only
    split
    · exact .stateChange (by decide)
    · exact .of_same rfl rfl rfl
  case h_3 hsta =>
    have hfls : e.confirmed = false := by simp [confirmed, hsta]
    dsimp only
    split
    · exact .after (.stateChange (by decide)) hfls sendConfirmReq_state.1 sendConfirmReq_state.2
    · exact .sendConfirmReq
  case h_4 hsta =>
    have hfls : e.confirmed = false := by simp [confirmed, hsta]
    have hsame : ((e.broadcastBlock node).sendConfirmReq node).state = e.state ∧
        ((e.broadcastBlock node).sendConfirmReq node).confirmations = e.confirmations :=
      ⟨sendConfirmReq_state.1.trans broadcastBlock_state.1,
        sendConfirmReq_state.2.trans broadcastBlock_state.2⟩
    dsimp only
    split
    · exact .after (.stateChange (by decide)) hfls hsame.1 hsame.2
    · exact .of_unconfirmed hfls hsame.1 hsame.2
  case h_5 hsta =>
    have hfls : e.confirmed = false := by simp [confirmed, hsta]
    exact .after .sendConfirmReq hfls broadcastBlock_state.1 broadcastBlock_state.2
  case h_6 hsta =>
    split
    · exact .expire hsta
    · exact .of_same rfl rfl rfl
  all_goals exact .of_same rfl rfl rfl

theorem Step.transitionTime : Step p e (e.transitionTime node).2 := by
  have hfst : Step p e (e.transitionState node).2 := .transitionState
  unfold Election.transitionTime
  dsimp only
  generalize (e.transitionState node).2 = moved at hfst
  split
  · next hcond =>
    -- what is not confirmed now was not confirmed before, and nothing was confirmed in between
    simp only [and_eq_true, not_eq_true'] at hcond
    have hmv : ¬ moved.confirmed = true := by simp [hcond.1]
    have hfls : e.confirmed = false := by
      cases hc : e.confirmed
      · rfl
      · exact absurd (hfst.final hc).1 hmv
    have hconf : moved.confirmations = e.confirmations :=
      (hfst.once hfls).resolve_right fun h => hmv h.1
    refine ⟨fun h => absurd h (by simp [hfls]),
      fun _ => .inl ((stateChange_confirmations _ _).trans hconf), fun h => ?_⟩
    rcases stateChange_state moved.state .expiredUnconfirmed with hsta | ⟨-, hsta⟩
    · refine absurd ?_ hmv
      have hexpired : moved.state = .expiredConfirmed := hsta.symm.trans h
      simp [confirmed, hexpired]
    · exact absurd (hsta.symm.trans h) (by decide)
  · exact hfst

/-! ## Runs -/

theorem Step.exec {call : Call} (h : e.exec p node call = some e') : Step p e e' := by
  cases call with
  | vote rep sequence hash => exact .vote h
  | publish block => exact .publish h
  | insertInactiveVotesCache hash => exact .insertInactiveVotesCache h
  | transitionActive | transitionPassive => cases h; exact .stateChange (by decide)
  | transitionTime => cases h; exact .transitionTime
  | confirmBlock hash =>
    cases h
    unfold Election.confirmBlock
    split
    · next hcond => exact .confirmOnce hcond.2 _
    · exact .of_same rfl rfl rfl
  | cleanup =>
    cases h
    unfold Election.cleanup
    split <;> exact .of_same rfl rfl rfl

/-- Some sequence of calls leads from one election to another. -/
def Leads (p : Params) : Election → Election → Prop :=
  Reaches (fun e (call : NodeView × Call) e' => e.exec p call.1 call.2 = some e') fun _ _ => True

theorem Leads.final (h : Leads p e e') (hconf : e.confirmed) :
    e'.confirmed ∧ p.hash e'.status.winner = p.hash e.status.winner := by
  refine h.invariant (I := fun t => t.confirmed ∧ p.hash t.status.winner = p.hash e.status.winner)
    ⟨hconf, rfl⟩ fun t call t' ⟨ht, hw⟩ _ hstep => ?_
  obtain ⟨ht', hw', -⟩ := (Step.exec hstep).final ht
  exact ⟨ht', hw'.trans hw⟩

theorem Leads.once (h : Leads p e e') (hnone : e.confirmations = []) :
    e'.confirmations = [] ∨ e'.confirmed ∧ e'.confirmations.length = 1 := by
  refine h.invariant (I := fun t => t.confirmations = [] ∨ t.confirmed ∧ t.confirmations.length = 1)
    (.inl hnone) fun t call t' ht _ hstep => ?_
  have hs := Step.exec hstep
  cases hc : t.confirmed with
  | true =>
    obtain ⟨hc', -, hsame⟩ := hs.final hc
    rw [hsame]
    exact ht.imp_right fun h => ⟨hc', h.2⟩
  | false =>
    have hemp : t.confirmations = [] := ht.resolve_right fun h => by simp [hc] at h
    rcases hs.once hc with hsame | ⟨hc', status, happ⟩
    · exact .inl (hsame.trans hemp)
    · exact .inr ⟨hc', by rw [happ, hemp]; rfl⟩

theorem Leads.expired (h : Leads p e e') (hstart : e.state ≠ .expiredConfirmed)
    (hexpired : e'.state = .expiredConfirmed) :
    ∃ t, Leads p e t ∧ Leads p t e' ∧ t.state = .confirmed := by
  induction h with
  | refl => exact absurd hexpired hstart
  | @tail t t' call hrun hok hstep ih =>
    have hlast : Leads p t t' := .tail .refl hok hstep
    rcases (Step.exec hstep).expires hexpired with hbef | hconf
    · obtain ⟨u, hu, hut, hsta⟩ := ih hbef
      exact ⟨u, hu, hut.trans hlast, hsta⟩
    · exact ⟨t, hrun, hlast, hconf⟩

/-- In every sequence of calls the side effects of a confirmation happen at most once, a confirmed
election stays confirmed and keeps its winner, and only a confirmed election expires as one. -/
theorem confirmation_irrevocable {notAnAccount : Account} {block : Block}
    (h : Leads p (start p node notAnAccount block) e) :
    e.confirmations.length ≤ 1 ∧
    (e.confirmed → ∀ e', Leads p e e' →
      e'.confirmed ∧ p.hash e'.status.winner = p.hash e.status.winner) ∧
    (e.state = .expiredConfirmed → ∃ t, Leads p (start p node notAnAccount block) t ∧
      Leads p t e ∧ t.state = .confirmed) := by
  refine ⟨?_, fun hconf e' h' => h'.final hconf, fun hexpired => h.expired (by simp [start]) hexpired⟩
  rcases h.once rfl with hnone | ⟨-, hone⟩
  · rw [hnone]; exact Nat.zero_le 1
  · exact hone.le

end Election

namespace Sample

/-- Two representatives of weight 60; a stake of 100 is online and half of it decides. -/
def view : NodeView where
  now := fun _ => 0
  isTestNetwork := false
  weight := fun a => if a = 21 ∨ a = 22 then 60 else 0
  onlineStake := 100
  onlineWeightMinimum := 50
  onlineWeightQuorum := 50
  order := []
  voters := fun _ => []
  voting := false
  generatedVotes := fun _ => []
  winnerDetails := fun _ => false
  solicitorAdds := false
  solicitorBroadcasts := false

def election : Election := .start byteParams view 99 wordsSend

def cementedElection : Election := election.confirmBlock byteParams view (byteParams.hash wordsSend)

end Sample

open Sample

theorem confirmation_irrevocable_cemented :
    cementedElection.confirmed ∧ cementedElection.confirmations.length ≤ 1 ∧
      ∀ e', Election.Leads byteParams cementedElection e' →
        e'.confirmed ∧ byteParams.hash e'.status.winner =
          byteParams.hash cementedElection.status.winner := by
  have hleads : Election.Leads byteParams election cementedElection :=
    .tail (a := (view, .confirmBlock (byteParams.hash wordsSend))) .refl
      trivial rfl
  have hconf : cementedElection.confirmed := by decide +kernel
  obtain ⟨honce, hfinal, -⟩ := Election.confirmation_irrevocable hleads
  exact ⟨hconf, honce, hfinal hconf⟩

end Futurehead
