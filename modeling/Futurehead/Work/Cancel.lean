import Futurehead.Work.ExactlyOnce

/-!
# Cancelling work requests (`distributed_work_factory::cancel`)

The factory holds weak references to the attempts of its requests, by root. A cancel goes through
those of a root and cancels every attempt that still exists. A request that waits for its retry has
no attempt: only the closure of a timer knows it. An attempt that is still starting goes on, since
neither `start` nor `do_request` looks at `stopped`.

The call of `cancel` is one step here. The factory's mutex keeps `make` out while it runs, and what
the handlers of an attempt do meanwhile counts as done before or after it. A request whose answer has
been decided (`finished` is set and the callback comes next) is not answered by a cancel.
-/

namespace Futurehead

open List Bool

variable {node : WorkNode} {i : Nat} {request : WorkRequest}

/-! ## The code -/

/-- There is still a reference to the attempt, and it has not finished. -/
def WorkAttempt.Cancels (a : WorkAttempt) : Bool := decide (0 < a.tasks.card) && !a.work.finished

/-- `distributed_work::cancel`, for an attempt that still exists. -/
def WorkAttempt.cancel (a : WorkAttempt) : WorkAttempt :=
  if a.Cancels then { a with work := { a.work with finished := true, stopped := true } } else a

/-- A cancel goes through the attempts of the request. -/
def WorkState.cancel (s : WorkState) : WorkState :=
  { s with
    attempts := s.attempts.map WorkAttempt.cancel
    calls := s.calls ++ (s.attempts.filter WorkAttempt.Cancels).map fun _ => none }

/-- `distributed_work_factory`: the requests so far, with their states. -/
abbrev WorkFactory := List (WorkRequest × WorkState)

def WorkFactory.cancel (f : WorkFactory) (root : Root) : WorkFactory :=
  f.map fun entry => if entry.1.root = root then (entry.1, entry.2.cancel) else entry

namespace WorkFactory

inductive Action where
  | make (request : WorkRequest)
  | request (i : Nat) (action : WorkState.Action)
  | cancel (root : Root)

inductive Step (node : WorkNode) : WorkFactory → Action → WorkFactory → Prop
  | make {f : WorkFactory} (request : WorkRequest) : Step node f (.make request) (f ++ [(request, ({} : WorkState))])
  | request {f : WorkFactory} {i : Nat} {request : WorkRequest} {s t : WorkState}
      {action : WorkState.Action} (h : f[i]? = some (request, s))
      (hstep : WorkState.Step node request s action t) :
      Step node f (.request i action) (f.set i (request, t))
  | cancel {f : WorkFactory} (root : Root) : Step node f (.cancel root) (f.cancel root)

def Follows (node : WorkNode) : WorkFactory → WorkFactory → Prop :=
  Reaches (Step node) fun _ _ => True

end WorkFactory

namespace DistributedWork

/-- The task has not come to the end of the peers and their endpoints. -/
def Task.Starting : Task → Prop
  | .start | .starting (_ :: _) | .resolving | .resolved (_ + 1) | .counted _ => True
  | _ => False

end DistributedWork

namespace WorkState

open DistributedWork

/-- The step opens a connection to a peer (`do_request`) or starts the local generation. -/
def Action.Starts (node : WorkNode) (request : WorkRequest) : Action → Prop
  | .handle work task event => ∃ work' tasks effect,
      work.handle node request task event = some (work', tasks, effect) ∧
        (.connecting ∈ tasks ∨ .generating ∈ tasks)
  | _ => False

/-- The callback is not about to be called. -/
def Undecided (s : WorkState) : Prop :=
  ∀ a ∈ s.attempts, ∀ result stop, Task.callback result stop ∉ a.tasks

/-- The request does not wait for `make`, its attempt still exists, and none of its attempts is
starting. -/
structure Cancellable (s : WorkState) : Prop where
  makes : s.makes = 0
  alive : ∀ a ∈ s.attempts, a.work.finished = false → a.tasks ≠ 0
  started : ∀ a ∈ s.attempts, ∀ task ∈ a.tasks, ¬ task.Starting

/-- Nothing of the request can start anything. -/
structure Dead (s : WorkState) : Prop where
  makes : s.makes = 0
  finished : ∀ a ∈ s.attempts, a.work.finished = true
  started : ∀ a ∈ s.attempts, ∀ task ∈ a.tasks, ¬ task.Starting

end WorkState

/-! ## Nothing is started -/

section Dead

open DistributedWork

variable {d d' : DistributedWork} {task : Task}
  {event : Event} {tasks : List Task} {effect : Effect} {s t : WorkState} {a : WorkAttempt}

theorem DistributedWork.Handled.not_starting
    (h : Handled node request d task event d' tasks effect) (hd : d.finished = true)
    (htask : ¬ task.Starting) :
    (∀ t ∈ tasks, ¬ t.Starting) ∧ .connecting ∉ tasks ∧ .generating ∉ tasks ∧ effect ≠ .alarm := by
  cases h with
  | startLocal | startUnable | startPeers | connect | resolve | resolvedFirst | resolvedExtra
  | counted => exact absurd trivial htask
  | unfinished h | again h | finish h => exact absurd hd (by simp [h])
  | _ => simp [Task.Starting]

namespace WorkState

theorem Dead.step (h : s.Dead) {action : Action} (hstep : Step node request s action t) :
    t.Dead ∧ ¬ action.Starts node request := by
  obtain ⟨hmakes, hfin, hstd⟩ := h
  cases hstep with
  | @make makes stopped hm =>
    rw [hmakes] at hm
    cases hm
  | @handle before after work work' task event rest tasks effect hs hhd =>
    rw [hs] at hfin hstd
    simp only [forall_mem_append, forall_mem_cons] at hfin hstd
    have hhdd := handle_eq hhd
    obtain ⟨hnew, hconnect, hgenerate, halarm⟩ := hhdd.not_starting hfin.2.1
      (hstd.2.1 task (Multiset.mem_cons_self task rest))
    refine ⟨⟨?_, ?_, ?_⟩, ?_⟩
    · cases effect with
      | none | call result => exact hmakes
      | alarm => exact absurd rfl halarm
    · rw [attempts_apply]
      simp only [forall_mem_append, forall_mem_cons]
      exact ⟨hfin.1, hhdd.finished hfin.2.1, hfin.2.2⟩
    · rw [attempts_apply]
      simp only [forall_mem_append, forall_mem_cons]
      refine ⟨hstd.1, fun t ht => ?_, hstd.2.2⟩
      rcases Multiset.mem_add.1 ht with ht | ht
      · exact hnew t ht
      · exact hstd.2.1 t (Multiset.mem_cons_of_mem ht)
    · rintro ⟨work'', tasks', effect', heq, hstarts⟩
      cases hhd.symm.trans heq
      exact hstarts.elim hconnect hgenerate
  | @cancel before after work tasks hs halive =>
    rw [hs] at hfin hstd
    simp only [forall_mem_append, forall_mem_cons] at hfin hstd
    refine ⟨⟨hmakes, ?_, ?_⟩, id⟩
    · simp only [forall_mem_append, forall_mem_cons]
      exact hfin
    · simp only [forall_mem_append, forall_mem_cons]
      refine ⟨hstd.1, fun t ht => ?_, hstd.2.2⟩
      rcases Multiset.mem_cons.1 ht with rfl | ht
      · exact id
      · exact hstd.2.1 t ht

theorem tasks_cancel (a : WorkAttempt) : a.cancel.tasks = a.tasks := by
  unfold WorkAttempt.cancel
  split <;> rfl

theorem finished_cancel (h : a.work.finished = false → a.tasks ≠ 0) :
    a.cancel.work.finished = true := by
  unfold WorkAttempt.cancel
  split
  · rfl
  · next hcanc =>
    by_contra hfin
    rw [not_eq_true] at hfin
    refine hcanc ?_
    unfold WorkAttempt.Cancels
    rw [hfin]
    simpa using Multiset.card_pos.2 (h hfin)

theorem Cancellable.dead (h : s.Cancellable) : s.cancel.Dead where
  makes := h.makes
  finished := by
    intro a' ha'
    obtain ⟨a, ha, rfl⟩ := mem_map.1 ha'
    exact finished_cancel (h.alive a ha)
  started := by
    intro a' ha' task htask
    obtain ⟨a, ha, rfl⟩ := mem_map.1 ha'
    rw [tasks_cancel] at htask
    exact h.started a ha task htask

theorem Dead.cancel (h : s.Dead) : s.cancel.Dead := by
  refine Cancellable.dead ⟨h.makes, fun a ha hno => ?_, h.started⟩
  rw [h.finished a ha] at hno
  cases hno

/-! ## Tokens -/

theorem tokens_attempt_cancel (a : WorkAttempt) :
    a.cancel.work.tokens + (if a.Cancels then 1 else 0) = a.work.tokens := by
  unfold WorkAttempt.cancel
  split
  · next hcanc =>
    have hfin : a.work.finished = false := by
      simpa using (and_eq_true_iff.1 hcanc).2
    simp [DistributedWork.tokens, hfin]
  · rfl

theorem tokens_cancel (s : WorkState) : s.cancel.tokens = s.tokens := by
  unfold WorkState.tokens WorkState.cancel
  simp only [length_append, length_map, map_map]
  have hsum (attempts : List WorkAttempt) :
      (attempts.filter WorkAttempt.Cancels).length + (attempts.map ((fun a : WorkAttempt =>
        a.work.tokens + total Task.tokens a.tasks) ∘ WorkAttempt.cancel)).sum =
      (attempts.map fun a => a.work.tokens + total Task.tokens a.tasks).sum := by
    induction attempts with
    | nil => rfl
    | cons a attempts ih =>
      have ha := tokens_attempt_cancel a
      rw [map_cons, sum_cons, map_cons, sum_cons, ← ih, Function.comp_apply, tasks_cancel]
      cases hcanc : a.Cancels with
      | true =>
        rw [filter_cons_of_pos hcanc, length_cons]
        rw [hcanc, if_pos rfl] at ha
        omega
      | false =>
        rw [filter_cons_of_neg (by simp [hcanc])]
        rw [hcanc, if_neg Bool.false_ne_true] at ha
        omega
  have := hsum s.attempts
  omega

theorem Sound.cancel (h : Sound node request s) : Sound node request s.cancel where
  tokens := (tokens_cancel s).trans h.tokens
  enabled hne := h.enabled fun hnil => hne (by simp [WorkState.cancel, hnil])
  stops := by
    intro a' ha'
    obtain ⟨a, ha, rfl⟩ := mem_map.1 ha'
    unfold WorkAttempt.cancel
    split
    · exact ⟨fun _ => rfl, fun _ _ _ => rfl⟩
    · exact h.stops a ha
  tasks := by
    intro a' ha'
    obtain ⟨a, ha, rfl⟩ := mem_map.1 ha'
    rw [tasks_cancel]
    exact h.tasks a ha
  calls := by
    intro result hres
    rcases mem_append.1 hres with hres | hres
    · exact h.calls result hres
    · obtain ⟨a, -, rfl⟩ := mem_map.1 hres
      exact valid_none

/-- An unfinished attempt is the only way to an answer. -/
theorem Sound.unfinished (h : Sound node request s) (ha : a ∈ s.attempts)
    (hno : a.work.finished = false) : s.makes = 0 ∧ s.Undecided ∧
      ∀ b ∈ s.attempts, b.work.finished = false → b = a := by
  obtain ⟨before, after, hs⟩ := append_of_mem ha
  have htok := h.tokens
  have hone : a.work.tokens = 1 := by simp [DistributedWork.tokens, hno]
  simp only [WorkState.tokens, hs, map_append, map_cons, sum_append, sum_cons] at htok
  have hle (attempts : List WorkAttempt) (b : WorkAttempt) (hb : b ∈ attempts) :
      b.work.tokens + total Task.tokens b.tasks ≤
        (attempts.map fun a => a.work.tokens + total Task.tokens a.tasks).sum :=
    single_le_sum (fun _ _ => Nat.zero_le _) _ (mem_map_of_mem hb)
  refine ⟨by omega, fun b hb result stop htask => ?_, fun b hb hbno => ?_⟩
  · have hpos : 1 ≤ total Task.tokens b.tasks := by
      obtain ⟨rest, hrest⟩ := Multiset.exists_cons_of_mem htask
      rw [hrest, total_cons]
      exact Nat.le_add_right 1 _
    rw [hs] at hb
    rcases mem_append.1 hb with hb | hb
    · have := hle before b hb
      omega
    · rcases mem_cons.1 hb with rfl | hb
      · omega
      · have := hle after b hb
        omega
  · have hbone : b.work.tokens = 1 := by simp [DistributedWork.tokens, hbno]
    rw [hs] at hb
    rcases mem_append.1 hb with hb | hb
    · have := hle before b hb
      omega
    · rcases mem_cons.1 hb with rfl | hb
      · rfl
      · have := hle after b hb
        omega

theorem Sound.exists_unfinished (h : Sound node request s) (hun : s.calls = [])
    (hund : s.Undecided) (hmakes : s.makes = 0) : ∃ a ∈ s.attempts, a.work.finished = false := by
  by_contra hnone
  have hall (a : WorkAttempt) (ha : a ∈ s.attempts) : a.work.finished = true := by
    by_contra hno
    exact hnone ⟨a, ha, eq_false_of_not_eq_true hno⟩
  have hsum : (s.attempts.map fun a => a.work.tokens + total Task.tokens a.tasks).sum = 0 := by
    refine sum_eq_zero fun n hn => ?_
    obtain ⟨a, ha, rfl⟩ := mem_map.1 hn
    have htks : total Task.tokens a.tasks = 0 := by
      refine Multiset.sum_eq_zero fun n hn => ?_
      obtain ⟨task, htask, rfl⟩ := Multiset.mem_map.1 hn
      cases task with
      | callback result stop => exact absurd htask (hund a ha result stop)
      | _ => rfl
    simp [htks, DistributedWork.tokens, hall a ha]
  have htok := h.tokens
  unfold WorkState.tokens at htok
  rw [hsum, hmakes, hun] at htok
  cases htok

theorem Sound.calls_cancel (h : Sound node request s) (hun : s.calls = []) :
    s.cancel.calls = [none] ↔ ∃ a ∈ s.attempts, a.Cancels = true := by
  have hcs : s.cancel.calls = (s.attempts.filter WorkAttempt.Cancels).map fun _ => none := by
    unfold WorkState.cancel
    rw [hun, nil_append]
  rw [hcs]
  constructor
  · intro hnone
    have hne : s.attempts.filter WorkAttempt.Cancels ≠ [] := by
      intro hnil
      rw [hnil] at hnone
      cases hnone
    obtain ⟨a, ha⟩ := exists_mem_of_ne_nil _ hne
    exact ⟨a, mem_filter.1 ha⟩
  · rintro ⟨a, ha, hcanc⟩
    have hle := h.cancel.calls_length_le
    rw [hcs, length_map] at hle
    have hpos := length_pos_of_mem (mem_filter.2 ⟨ha, hcanc⟩)
    obtain ⟨b, hb⟩ := length_eq_one_iff.1 (Nat.le_antisymm hle hpos)
    rw [hb]
    rfl

theorem cancels_iff : a.Cancels = true ↔ a.tasks ≠ 0 ∧ a.work.finished = false := by
  unfold WorkAttempt.Cancels
  rw [and_eq_true_iff, decide_eq_true_iff, Multiset.card_pos, not_eq_true']

/-! ## Something is started -/

/-- Some run from here starts something. -/
def CanStart (node : WorkNode) (request : WorkRequest) (s : WorkState) : Prop :=
  ∃ t action u, Reaches (Step node request) (fun _ _ => True) s t ∧
    Step node request t action u ∧ action.Starts node request

theorem CanStart.of_step {action : Action} (hstep : Step node request s action t)
    (h : CanStart node request t) : CanStart node request s := by
  obtain ⟨u, action', v, hrun, hlast, hstarts⟩ := h
  exact ⟨u, action', v, Reaches.trans (.tail .refl trivial hstep) hrun, hlast, hstarts⟩

section

variable (ha : a ∈ s.attempts)

include ha

theorem exists_handle (htask : task ∈ a.tasks)
    (hhd : a.work.handle node request task event = some (d', tasks, effect)) :
    ∃ t, Step node request s (.handle a.work task event) t ∧
      ∃ b ∈ t.attempts, ∀ task' ∈ tasks, task' ∈ b.tasks := by
  obtain ⟨before, after, hs⟩ := append_of_mem ha
  obtain ⟨rest, hrest⟩ := Multiset.exists_cons_of_mem htask
  obtain ⟨work, atasks⟩ := a
  dsimp only at hrest hhd
  subst hrest
  refine ⟨_, .handle hs hhd, ⟨d', tasks + rest⟩, ?_, fun task' ht => ?_⟩
  · rw [attempts_apply]
    exact mem_append_right _ mem_cons_self
  · exact Multiset.mem_add.2 (.inl ht)

theorem CanStart.of_handle (htask : task ∈ a.tasks)
    (hhd : a.work.handle node request task event = some (d', tasks, effect))
    (hstarts : .connecting ∈ tasks ∨ .generating ∈ tasks) : CanStart node request s := by
  obtain ⟨t, hstep, -⟩ := exists_handle ha htask hhd
  exact ⟨s, _, t, .refl, hstep, d', tasks, effect, hhd, hstarts⟩

theorem canStart_resolving (htask : .resolving ∈ a.tasks) : CanStart node request s := by
  have hhd : a.work.handle node request .resolving (.resolved 1) =
      some (a.work, [.connecting, .resolved 0], .none) := rfl
  exact .of_handle ha htask hhd (.inl mem_cons_self)

theorem canStart_counted {eps : Nat} (htask : .counted eps ∈ a.tasks) :
    CanStart node request s := by
  have hhd : a.work.handle node request (.counted eps) .proceed =
      some (a.work, [.connecting, .resolved eps], .none) := rfl
  exact .of_handle ha htask hhd (.inl mem_cons_self)

theorem canStart_starting {peer : String × BitVec 16} {peers : List (String × BitVec 16)}
    (htask : .starting (peer :: peers) ∈ a.tasks) : CanStart node request s := by
  have hhd : a.work.handle node request (.starting (peer :: peers)) .proceed =
      some (a.work, [if node.isAddress peer.1 then .connecting else .resolving, .starting peers],
        .none) := rfl
  cases haddr : node.isAddress peer.1 with
  | true =>
    rw [haddr, if_pos rfl] at hhd
    exact .of_handle ha htask hhd (.inl mem_cons_self)
  | false =>
    rw [haddr, if_neg Bool.false_ne_true] at hhd
    obtain ⟨t, hstep, b, hb, htks⟩ := exists_handle ha htask hhd
    exact .of_step hstep (canStart_resolving hb (htks _ mem_cons_self))

end

theorem canStart_of_starting (hen : node.workGenerationEnabled request.peers)
    (ha : a ∈ s.attempts) (htask : task ∈ a.tasks) (hstarting : task.Starting) :
    CanStart node request s := by
  match task, htask, hstarting with
  | .resolving, htask, _ => exact canStart_resolving ha htask
  | .counted _, htask, _ => exact canStart_counted ha htask
  | .starting (_ :: _), htask, _ => exact canStart_starting ha htask
  | .resolved (eps + 1), htask, _ =>
    have hhd : a.work.handle node request (.resolved (eps + 1)) .proceed =
        some ({ a.work with resolvedExtra := a.work.resolvedExtra + 1 }, [.counted eps],
          .none) := rfl
    obtain ⟨t, hstep, b, hb, htks⟩ := exists_handle ha htask hhd
    exact .of_step hstep (canStart_counted hb (htks _ mem_cons_self))
  | .start, htask, _ =>
    cases hprs : request.peers with
    | nil =>
      -- without peers the generation is local
      have hloc : node.localWorkGenerationEnabled = true := by
        simpa [WorkNode.workGenerationEnabled, hprs] using hen
      have hhd : a.work.handle node request .start (.unresponsive false) =
          some ({ a.work with localGenerationStarted := true }, [.generating, .starting []],
            .none) := by
        simp [handle, hprs, hloc]
      exact .of_handle ha htask hhd (.inr mem_cons_self)
    | cons peer peers =>
      have hhd : a.work.handle node request .start (.unresponsive false) =
          some (a.work, [.starting (peer :: peers)], .none) := by
        simp [handle, hprs]
      obtain ⟨t, hstep, b, hb, htks⟩ := exists_handle ha htask hhd
      exact .of_step hstep (canStart_starting hb (htks _ mem_cons_self))

end WorkState

end Dead

/-! ## The factory -/

namespace WorkFactory

variable {f g : WorkFactory} {s t : WorkState}

theorem getElem?_cancel (h : f[i]? = some (request, s)) (root : Root) :
    (f.cancel root)[i]? = some (request, if request.root = root then s.cancel else s) := by
  unfold cancel
  rw [getElem?_map, h, Option.map_some]
  split <;> rfl

theorem Follows.invariant {I : WorkRequest → WorkState → Prop} (new : ∀ request, I request {})
    (step : ∀ {request s action t}, I request s → WorkState.Step node request s action t → I request t)
    (cancel : ∀ {request s}, I request s → I request s.cancel) (h : Follows node [] f) :
    ∀ entry ∈ f, I entry.1 entry.2 := by
  refine Reaches.invariant (I := fun f : WorkFactory => ∀ entry ∈ f, I entry.1 entry.2) h
    (fun entry hent => absurd hent not_mem_nil) fun f action g hf _ hstep => ?_
  cases hstep with
  | make request =>
    intro entry hent
    rcases mem_append.1 hent with hent | hent
    · exact hf entry hent
    · rw [mem_singleton.1 hent]
      exact new request
  | request hi hstep =>
    intro entry hent
    rcases mem_or_eq_of_mem_set hent with hent | rfl
    · exact hf entry hent
    · have hs := hf _ (mem_of_getElem? hi)
      exact step hs hstep
  | cancel root =>
    intro entry hent
    obtain ⟨entry', hent', rfl⟩ := mem_map.1 hent
    split
    · exact cancel (hf entry' hent')
    · exact hf entry' hent'

theorem Follows.sound (h : Follows node [] f) (hi : f[i]? = some (request, s)) :
    WorkState.Sound node request s :=
  h.invariant (I := fun request s => WorkState.Sound node request s) (fun _ => WorkState.sound_new)
    (fun hs hstep => hs.step hstep) (fun hs => hs.cancel) _ (mem_of_getElem? hi)

theorem Follows.dead (h : Follows node f g) (hi : f[i]? = some (request, s)) (hs : s.Dead) :
    ∃ t, g[i]? = some (request, t) ∧ t.Dead := by
  refine Reaches.invariant (I := fun g : WorkFactory => ∃ t, g[i]? = some (request, t) ∧ t.Dead) h
    ⟨s, hi, hs⟩ ?_
  rintro g action g' ⟨t, ht, hdead⟩ - hstep
  cases hstep with
  | make request' =>
    have hlt := (List.getElem?_eq_some_iff.1 ht).1
    exact ⟨t, (getElem?_append_left hlt).trans ht, hdead⟩
  | @request j request' s' t' action' hj hstep =>
    by_cases hij : j = i
    · subst hij
      cases ht.symm.trans hj
      exact ⟨t', getElem?_set_self (List.getElem?_eq_some_iff.1 hj).1, (hdead.step hstep).1⟩
    · exact ⟨t, (getElem?_set_ne hij).trans ht, hdead⟩
  | cancel root =>
    refine ⟨_, getElem?_cancel ht root, ?_⟩
    split
    · exact hdead.cancel
    · exact hdead

theorem follows_of_reaches {ok : WorkState → WorkState.Action → Prop}
    (h : Reaches (WorkState.Step node request) ok s t) (hi : f[i]? = some (request, s)) :
    ∃ g, Follows node f g ∧ g[i]? = some (request, t) := by
  induction h with
  | refl => exact ⟨f, .refl, hi⟩
  | tail _ _ hstep ih =>
    obtain ⟨g, hg, hgi⟩ := ih
    exact ⟨_, .tail hg trivial (.request hgi hstep),
      getElem?_set_self (List.getElem?_eq_some_iff.1 hgi).1⟩

end WorkFactory

/-- After a cancel of its root an unanswered request has been answered with none and nothing is
started for it any more, if and only if it was cancellable: it did not wait for its retry, its attempt
existed, and none of its attempts was starting. -/
theorem work_cancel_takes_effect {f : WorkFactory}
    {s : WorkState} (h : WorkFactory.Follows node [] f) (hi : f[i]? = some (request, s))
    (hun : s.calls = []) :
    ((∃ t, (f.cancel request.root)[i]? = some (request, t) ∧ t.calls = [none]) ∧
      ∀ g t action u, WorkFactory.Follows node (f.cancel request.root) g →
        g[i]? = some (request, t) → WorkState.Step node request t action u → ¬ action.Starts node request) ↔
    s.Undecided ∧ s.Cancellable := by
  have hs := h.sound hi
  have hcancel := WorkFactory.getElem?_cancel hi request.root
  rw [if_pos rfl] at hcancel
  constructor
  · rintro ⟨⟨t, ht, hcs⟩, hnever⟩
    cases hcancel.symm.trans ht
    obtain ⟨a, ha, hcanc⟩ := (hs.calls_cancel hun).1 hcs
    obtain ⟨halive, hno⟩ := WorkState.cancels_iff.1 hcanc
    obtain ⟨hmakes, hund, honly⟩ := hs.unfinished ha hno
    refine ⟨hund, hmakes, fun b hb hbno => honly b hb hbno ▸ halive, fun b hb task htask hstarting => ?_⟩
    -- a task that is starting goes on after the cancel
    have hb' : b.cancel ∈ s.cancel.attempts := mem_map_of_mem hb
    have htask' : task ∈ b.cancel.tasks := WorkState.tasks_cancel b ▸ htask
    obtain ⟨t, action, u, hrun, hstep, hstarts⟩ := WorkState.canStart_of_starting
      (hs.enabled (ne_nil_of_mem ha)) hb' htask' hstarting
    obtain ⟨g, hg, hgi⟩ := WorkFactory.follows_of_reaches hrun hcancel
    exact hnever g t action u hg hgi hstep hstarts
  · rintro ⟨hund, hcan⟩
    obtain ⟨a, ha, hno⟩ := hs.exists_unfinished hun hund hcan.makes
    have hcanc := WorkState.cancels_iff.2 ⟨hcan.alive a ha hno, hno⟩
    refine ⟨⟨_, hcancel, (hs.calls_cancel hun).2 ⟨a, ha, hcanc⟩⟩, fun g t action u hg hgi hstep => ?_⟩
    obtain ⟨t', ht', hdead⟩ := hg.dead hcancel hcan.dead
    cases ht'.symm.trans hgi
    exact (hdead.step hstep).2

namespace Sample

theorem follows_asks {ok : WorkState → WorkState.Action → Prop} {s : WorkState}
    (h : Reaches (WorkState.Step workNode workRequest) ok {} s) :
    ∃ f, WorkFactory.Follows workNode [] f ∧ f[0]? = some (workRequest, s) := by
  have hmake : WorkFactory.Follows workNode [] [(workRequest, ({} : WorkState))] :=
    .tail .refl trivial (.make workRequest)
  obtain ⟨f, hf, hi⟩ := WorkFactory.follows_of_reaches (i := 0) h
    (show [(workRequest, ({} : WorkState))][0]? = some (workRequest, {}) from rfl)
  exact ⟨f, hmake.trans hf, hi⟩

def waiting : WorkState := ⟨1, [⟨{ failures := 1, finished := true }, 0⟩], []⟩

theorem asks_waiting : Asks waiting := by
  have herr : Asks (asking {} [] (.doCancel ::ₘ .failure ::ₘ {.starting []})) :=
    asks_reading.step (.error .other) rfl id
  have hcancelled : Asks (asking {} [] (.failure ::ₘ {.starting []})) := herr.step .success rfl id
  have hcnt : Asks (asking { failures := 1 } [] (.failed 1 ::ₘ {.starting []})) :=
    hcancelled.step .proceed rfl id
  have hall : Asks (asking { failures := 1 } [] (.handleFailure ::ₘ {.starting []})) :=
    hcnt.step .proceed rfl id
  have hretry : Asks (asking { failures := 1 } [] (.retry ::ₘ {.starting []})) :=
    hall.step .proceed rfl id
  have hlist : Asks (asking { failures := 1 } [] (.starting [] ::ₘ {.retry})) := by
    rwa [show (.starting [] ::ₘ {.retry} : Multiset DistributedWork.Task) = .retry ::ₘ {.starting []}
      from Multiset.cons_swap ..]
  have hstd : Asks (asking { failures := 1 } [] {.retry}) := hlist.step .proceed rfl id
  exact Asks.step hstd .proceed rfl id

end Sample

open Sample

/-- The peer has the request when it is cancelled. -/
theorem work_cancel_takes_effect_reading :
    ∃ f s, WorkFactory.Follows workNode [] f ∧ f[0]? = some (workRequest, s) ∧
      s.calls = [] ∧ s.Undecided ∧ s.Cancellable ∧
      ∃ t, (WorkFactory.cancel f workRequest.root)[0]? = some (workRequest, t) ∧
        t.calls = [none] := by
  obtain ⟨f, hf, hi⟩ := follows_asks asks_reading
  have hund : (asking {} [] (.reading ::ₘ {.starting []})).Undecided := by
    simp [WorkState.Undecided, asking]
  have hcan : (asking {} [] (.reading ::ₘ {.starting []})).Cancellable :=
    ⟨rfl, by simp [asking], by simp [asking, DistributedWork.Task.Starting]⟩
  obtain ⟨hcs, -⟩ := (work_cancel_takes_effect hf hi rfl).2 ⟨hund, hcan⟩
  exact ⟨f, _, hf, hi, rfl, hund, hcan, hcs⟩

/-- The request waits for its retry when it is cancelled: it is not answered, and the peer is asked
again later. -/
theorem work_cancel_lost :
    ∃ f s t, WorkFactory.Follows workNode [] f ∧ f[0]? = some (workRequest, s) ∧
      s.calls = [] ∧ s.Undecided ∧
      (WorkFactory.cancel f workRequest.root)[0]? = some (workRequest, t) ∧
      t.calls = [] ∧ WorkState.CanStart workNode workRequest t := by
  obtain ⟨f, hf, hi⟩ := follows_asks asks_waiting
  have hcancel := WorkFactory.getElem?_cancel hi workRequest.root
  rw [if_pos rfl] at hcancel
  have hmake : WorkState.Step workNode workRequest waiting.cancel (.make false)
      ⟨0, [⟨{ failures := 1, finished := true }, 0⟩, {}], []⟩ := .make false rfl
  have hstart : WorkState.CanStart workNode workRequest
      ⟨0, [⟨{ failures := 1, finished := true }, 0⟩, {}], []⟩ :=
    WorkState.canStart_of_starting rfl (mem_cons_of_mem _ mem_cons_self)
      (Multiset.mem_singleton_self _) trivial
  exact ⟨f, _, _, hf, hi, rfl, by simp [WorkState.Undecided, waiting], hcancel, rfl,
    .of_step hmake hstart⟩

end Futurehead
