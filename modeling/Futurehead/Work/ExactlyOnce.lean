import Futurehead.Work.Distributed

/-!
# A work request answers once

The right to call the callback is a token: at first the call of `make` has it, then the attempt
until its `finished` is set, then the task that calls the callback or the alarm. No step creates a
token or loses one, so the callback is called at most once.

That it is called at all needs that an attempt which has not finished has a task that leads there
(`DistributedWork.Alive`). With local generation, this is the generation. Otherwise the branches are
counted: the failures and the branches that go on are together as many as the peers and the extra
endpoints, and the last failure finds this out. A response with another status than 200 breaks the
count: its branch ends and is not counted as a failure.
-/

namespace Futurehead

open List

namespace DistributedWork

/-! ## Sums over tasks -/

def total (f : Task → Nat) (tasks : Multiset Task) : Nat := (tasks.map f).sum

section

variable (f : Task → Nat)

include f

@[simp] theorem total_zero : total f 0 = 0 := rfl

@[simp] theorem total_cons (task : Task) (tasks : Multiset Task) :
    total f (task ::ₘ tasks) = f task + total f tasks := by
  rw [total, Multiset.map_cons, Multiset.sum_cons, total]

@[simp] theorem total_singleton (task : Task) : total f {task} = f task := total_cons f task 0

@[simp] theorem total_add (tasks tasks' : Multiset Task) :
    total f (tasks + tasks') = total f tasks + total f tasks' := by
  rw [total, Multiset.map_add, Multiset.sum_add, total, total]

@[simp] theorem total_coe_nil : total f ([] : List Task) = 0 := rfl

@[simp] theorem total_coe_cons (task : Task) (tasks : List Task) :
    total f ((task :: tasks : List Task) : Multiset Task) = f task + total f tasks := by
  rw [← Multiset.cons_coe, total_cons]

end

/-! ## Tokens -/

/-- The task has the right to call the callback. -/
def Task.tokens : Task → Nat
  | .callback _ _ => 1
  | _ => 0

def Effect.tokens : Effect → Nat
  | .none => 0
  | .call _ => 1
  | .alarm => 1

def tokens (d : DistributedWork) : Nat := if d.finished then 0 else 1

variable {node : WorkNode} {request : WorkRequest} {d d' : DistributedWork} {task : Task}
  {event : Event} {tasks : List Task} {effect : Effect}

theorem Handled.tokens (h : Handled node request d task event d' tasks effect)
    (henabled : node.workGenerationEnabled request.peers) :
    d'.tokens + total Task.tokens tasks + effect.tokens = d.tokens + task.tokens := by
  cases h with
  | startUnable value hprs hloc => simp [WorkNode.workGenerationEnabled, hprs, hloc] at henabled
  | finish h | again h => simp [DistributedWork.tokens, Task.tokens, Effect.tokens, h]
  | dropped h htask => rcases htask with rfl | rfl | rfl <;> rfl
  | failed htask => rcases htask with rfl | rfl | rfl | rfl <;> rfl
  | tooLate h htask => rcases htask with rfl | rfl <;> rfl
  | _ => rfl

/-! ## Results -/

/-- A result that the task carries may be given to the callback. -/
def Task.Valid (node : WorkNode) (request : WorkRequest) : Task → Prop
  | .finish result _ => request.Valid node result
  | .callback result _ => request.Valid node result
  | _ => True

def Effect.Valid (node : WorkNode) (request : WorkRequest) : Effect → Prop
  | .call result => request.Valid node result
  | _ => True

theorem valid_none : request.Valid node none := by simp [WorkRequest.Valid]

theorem Handled.valid (h : Handled node request d task event d' tasks effect)
    (htask : task.Valid node request) :
    (∀ t ∈ tasks, t.Valid node request) ∧ effect.Valid node request := by
  cases h with
  | startUnable => exact ⟨by simpa [Task.Valid] using valid_none, trivial⟩
  | succeeded hval | generated hval => exact ⟨by simpa [Task.Valid] using hval, trivial⟩
  | finish => exact ⟨by simpa [Task.Valid] using htask, trivial⟩
  | callbackStop => exact ⟨by simp [Task.Valid], htask⟩
  | callback => exact ⟨by simp, htask⟩
  | _ => exact ⟨by simp [Task.Valid], trivial⟩

/-! ## Stopping -/

/-- The task exists only once `finished` is set. -/
def Task.AfterFinish : Task → Prop
  | .callback _ true => True
  | .stopOnce => True
  | _ => False

/-- An attempt is stopped only after it has finished. -/
structure Stops (d : DistributedWork) (tasks : Multiset Task) : Prop where
  stopped : d.stopped → d.finished
  tasks : ∀ t ∈ tasks, t.AfterFinish → d.finished

theorem Handled.finished (h : Handled node request d task event d' tasks effect)
    (hd : d.finished) : d'.finished := by
  cases h with
  | finish | again => rfl
  | _ => exact hd

theorem Handled.stops {rest : Multiset Task}
    (h : Handled node request d task event d' tasks effect) (hs : Stops d (task ::ₘ rest)) :
    Stops d' (tasks + rest) := by
  have hrest : ∀ t ∈ rest, t.AfterFinish → d'.finished := fun t ht haft =>
    h.finished (hs.tasks t (Multiset.mem_cons_of_mem ht) haft)
  have hself : task.AfterFinish → d.finished := hs.tasks task (Multiset.mem_cons_self task rest)
  suffices hnew : (d'.stopped → d'.finished) ∧ ∀ t ∈ tasks, t.AfterFinish → d'.finished by
    refine ⟨hnew.1, fun t ht => ?_⟩
    rcases Multiset.mem_add.1 ht with ht | ht
    · exact hnew.2 t ht
    · exact hrest t ht
  cases h with
  | lateStop hfin => exact ⟨hs.stopped, fun _ _ _ => hfin⟩
  | finish | again => exact ⟨fun _ => rfl, fun _ _ _ => rfl⟩
  | callbackStop => exact ⟨hs.stopped, fun _ _ _ => hself trivial⟩
  | stopOnce => exact ⟨fun _ => hself trivial, fun _ _ _ => hself trivial⟩
  | _ => exact ⟨hs.stopped, by simp [Task.AfterFinish]⟩

/-! ## Branches -/

/-- The number of branches that the task stands for: each of them succeeds, fails or splits. -/
def Task.branches (request : WorkRequest) : Task → Nat
  | .start => request.peers.length
  | .starting peers => peers.length
  | .resolving | .counted _ | .connecting | .writing | .reading | .failure => 1
  | _ => 0

/-- With this number of failures, the task goes on to `handle_failure` or to more branches. -/
def Task.Drives (failures : Nat) : Task → Prop
  | .start | .resolved (_ + 1) | .handleFailure | .retry => True
  | .failed failures' => failures' = failures
  | _ => False

/-- Without local generation: every branch goes on or has failed, and once all have failed there is
a task that has seen the last failure. -/
structure Counts (request : WorkRequest) (d : DistributedWork) (tasks : Multiset Task) : Prop where
  notLocal : d.localGenerationStarted = false
  sum : d.failures + total (Task.branches request) tasks = request.peers.length + d.resolvedExtra
  driven : d.failures = request.peers.length + d.resolvedExtra → ∃ t ∈ tasks, t.Drives d.failures

/-- The attempt has finished, or has a task that leads there. -/
inductive Alive (request : WorkRequest) (d : DistributedWork) (tasks : Multiset Task) : Prop
  | finished (h : d.finished)
  | finish {result : Option (BitVec 64)} {stop : Bool} (h : .finish result stop ∈ tasks)
  | generating (h : .generating ∈ tasks)
  | counts (h : Counts request d tasks)

theorem Alive.of_finish {rest : Multiset Task} (result : Option (BitVec 64)) (stop : Bool) :
    Alive request d (([.finish result stop] : List Task) + rest) :=
  .finish (Multiset.mem_add.2 (.inl (mem_singleton_self _)))

section

variable {rest : Multiset Task}

theorem Counts.same (h : Counts request d (task ::ₘ rest))
    (hsum : total (Task.branches request) tasks = task.branches request)
    (hdrives : ¬ task.Drives d.failures) : Counts request d (tasks + rest) := by
  refine ⟨h.notLocal, ?_, fun hall => ?_⟩
  · rw [total_add, hsum, ← total_cons]
    exact h.sum
  · obtain ⟨t, ht, hdrive⟩ := h.driven hall
    rcases Multiset.mem_cons.1 ht with rfl | ht
    · exact absurd hdrive hdrives
    · exact ⟨t, Multiset.mem_add.2 (.inr ht), hdrive⟩

theorem Counts.of_pos {new : Multiset Task} (hloc : d.localGenerationStarted = false)
    (hsum : d.failures + total (Task.branches request) new = request.peers.length + d.resolvedExtra)
    (hpos : 0 < total (Task.branches request) new) : Counts request d new :=
  ⟨hloc, hsum, fun hall => by omega⟩

theorem Counts.handled (h : Handled node request d task event d' tasks effect)
    (hc : Counts request d (task ::ₘ rest)) (hs : Stops d (task ::ₘ rest))
    (henabled : node.workGenerationEnabled request.peers)
    (hdrops : Drops task event → d.finished ∨ d.localGenerationStarted) :
    Alive request d' (tasks + rest) := by
  have hsum := hc.sum
  rw [total_cons] at hsum
  cases h with
  | startLocal => exact .generating (by simp)
  | startUnable value hprs hloc =>
    simp [WorkNode.workGenerationEnabled, hprs, hloc] at henabled
  | startPeers value hprs =>
    have hpos : 0 < request.peers.length := length_pos_iff.2 hprs
    exact .counts (.of_pos hc.notLocal (by simpa [Task.branches] using hsum)
      (by simp [Task.branches]; omega))
  | started => exact .counts (hc.same rfl id)
  | connect peer peers
  | resolve peer peers => exact .counts (hc.same (by simp [Task.branches]; omega) id)
  | resolvedFirst eps | resolvedLast | counted eps | connected | written
  | readError | callbackStop | callback | doCancel => exact .counts (hc.same rfl id)
  | resolvedExtra eps =>
    refine .counts (.of_pos hc.notLocal ?_ ?_)
    · simp [Task.branches] at hsum ⊢
      omega
    · simp [Task.branches]
  | dropped hdrop htask =>
    have hend : d.finished ∨ d.localGenerationStarted := by
      rcases hdrop with hstopped | hdrop
      · exact .inl (hs.stopped hstopped)
      · exact hdrops hdrop
    rcases hend with hfin | hloc
    · exact .finished hfin
    · rw [hc.notLocal] at hloc
      cases hloc
  | succeeded => exact .of_finish _ _
  | failed htask =>
    rcases htask with rfl | rfl | rfl | rfl
    all_goals exact .counts (hc.same rfl id)
  | count =>
    refine .counts ⟨hc.notLocal, ?_, fun _ => ⟨.failed (d.failures + 1), by simp, rfl⟩⟩
    simp [Task.branches] at hsum ⊢
    omega
  | all =>
    refine .counts ⟨hc.notLocal, ?_, fun _ => ⟨.handleFailure, by simp, trivial⟩⟩
    simpa [Task.branches] using hsum
  | notAll failures hne =>
    refine .counts ⟨hc.notLocal, by simpa [Task.branches] using hsum, fun hall => ?_⟩
    obtain ⟨t, ht, hdrive⟩ := hc.driven hall
    rcases Multiset.mem_cons.1 ht with rfl | ht
    · exact absurd (hdrive.trans hall) hne
    · exact ⟨t, by simpa using ht, hdrive⟩
  | unfinished =>
    refine .counts ⟨hc.notLocal, ?_, fun _ => ⟨.retry, by simp, trivial⟩⟩
    simpa [Task.branches] using hsum
  | tooLate hfin | lateStop hfin | late hfin => exact .finished hfin
  | waitLocal hloc =>
    rw [hc.notLocal] at hloc
    cases hloc
  | again => exact .finished rfl
  | generated => exact .of_finish _ _
  | finish => exact .finished rfl
  | stopOnce => exact .counts ⟨hc.notLocal, (hc.same rfl id).sum, (hc.same rfl id).driven⟩

end

theorem Handled.alive_of_finish {result : Option (BitVec 64)} {stop : Bool}
    (h : Handled node request d (.finish result stop) event d' tasks effect) : d'.finished := by
  cases h with
  | finish => rfl
  | lateStop hfin | late hfin => exact hfin
  | dropped _ htask | failed htask => simp at htask
  | tooLate hfin _ => exact hfin

theorem Handled.alive {rest : Multiset Task}
    (h : Handled node request d task event d' tasks effect)
    (ha : Alive request d (task ::ₘ rest)) (hs : Stops d (task ::ₘ rest))
    (henabled : node.workGenerationEnabled request.peers)
    (hdrops : Drops task event → d.finished ∨ d.localGenerationStarted) :
    Alive request d' (tasks + rest) := by
  cases ha with
  | finished hfin => exact .finished (h.finished hfin)
  | finish hmem =>
    rcases Multiset.mem_cons.1 hmem with rfl | hmem
    · exact .finished h.alive_of_finish
    · exact .finish (Multiset.mem_add.2 (.inr hmem))
  | generating hmem =>
    rcases Multiset.mem_cons.1 hmem with rfl | hmem
    · cases h with
      | generated => exact .of_finish _ _
      | dropped _ htask | failed htask => simp at htask
      | tooLate hfin => exact .finished hfin
    · exact .generating (Multiset.mem_add.2 (.inr hmem))
  | counts hc => exact hc.handled h hs henabled hdrops

theorem Alive.finished_of_no_tasks (h : Alive request d 0) : d.finished := by
  cases h with
  | finished h => exact h
  | finish h | generating h => cases Multiset.notMem_zero _ h
  | counts h =>
    obtain ⟨t, ht, -⟩ := h.driven (by simpa using h.sum)
    cases Multiset.notMem_zero _ ht

theorem alive_new : Alive request {} {.start} :=
  .counts ⟨rfl, by simp [Task.branches], fun _ => ⟨.start, by simp, trivial⟩⟩

end DistributedWork

namespace WorkState

open DistributedWork

variable {node : WorkNode} {request : WorkRequest} {s t : WorkState} {action : Action}

/-! ## Runs -/

/-- The rights to call the callback, with the calls that were made. -/
def tokens (s : WorkState) : Nat :=
  s.calls.length + s.makes + (s.attempts.map fun a => a.work.tokens + total Task.tokens a.tasks).sum

structure Sound (node : WorkNode) (request : WorkRequest) (s : WorkState) : Prop where
  tokens : s.tokens = 1
  enabled : s.attempts ≠ [] → node.workGenerationEnabled request.peers
  stops : ∀ a ∈ s.attempts, Stops a.work a.tasks
  tasks : ∀ a ∈ s.attempts, ∀ task ∈ a.tasks, task.Valid node request
  calls : ∀ result ∈ s.calls, request.Valid node result

theorem tokens_apply (s : WorkState) (effect : Effect) :
    (s.apply effect).tokens = s.tokens + effect.tokens := by
  cases effect <;> simp [WorkState.tokens, WorkState.apply, Effect.tokens] <;> omega

theorem sound_new : Sound node request {} := ⟨rfl, fun h => absurd rfl h, by simp, by simp, by simp⟩

theorem attempts_apply (s : WorkState) (effect : Effect) :
    (s.apply effect).attempts = s.attempts := by
  cases effect <;> rfl

theorem calls_apply (s : WorkState) (effect : Effect)
    (h : ∀ result ∈ s.calls, request.Valid node result) (he : effect.Valid node request) :
    ∀ result ∈ (s.apply effect).calls, request.Valid node result := by
  intro result hres
  cases effect with
  | none | alarm => exact h result hres
  | call r =>
    rcases mem_append.1 hres with hres | hres
    · exact h result hres
    · rw [mem_singleton.1 hres]
      exact he

theorem Sound.step (h : Sound node request s) (hstep : Step node request s action t) :
    Sound node request t := by
  obtain ⟨htok, henabled, hstops, htks, hcs⟩ := h
  cases hstep with
  | @make makes stopped hmakes =>
    unfold WorkState.make
    split
    · rename_i hok
      refine ⟨?_, fun _ => hok.2, ?_, ?_, hcs⟩
      · have hnew : DistributedWork.tokens {} + total Task.tokens {.start} = 1 := by
          simp [DistributedWork.tokens, Task.tokens]
        simp only [WorkState.tokens, hmakes] at htok
        simp only [WorkState.tokens, map_append, sum_append, map_cons, map_nil, sum_cons, sum_nil]
        omega
      · refine forall_mem_append.2 ⟨hstops, ?_⟩
        rw [forall_mem_singleton]
        exact ⟨fun h => h, by simp [Task.AfterFinish]⟩
      · refine forall_mem_append.2 ⟨htks, ?_⟩
        rw [forall_mem_singleton]
        simp [Task.Valid]
    · refine ⟨?_, henabled, hstops, htks, calls_apply _ (.call none) hcs valid_none⟩
      rw [tokens_apply]
      simp only [WorkState.tokens, hmakes] at htok
      simp only [WorkState.tokens, Effect.tokens]
      omega
  | @handle before after work work' task event rest tasks effect hs hhd =>
    have hhdd := handle_eq hhd
    have hen : node.workGenerationEnabled request.peers := henabled (by simp [hs])
    rw [hs] at hstops htks
    simp only [forall_mem_append, forall_mem_cons] at hstops htks
    obtain ⟨hval, heffect⟩ := hhdd.valid (htks.2.1 task (Multiset.mem_cons_self task rest))
    refine ⟨?_, fun _ => hen, ?_, ?_, calls_apply _ effect hcs heffect⟩
    · have hmove := hhdd.tokens hen
      rw [tokens_apply]
      simp only [WorkState.tokens, hs, map_append, map_cons, sum_append,
        sum_cons, total_cons, total_add] at htok ⊢
      omega
    · rw [attempts_apply]
      simp only [forall_mem_append, forall_mem_cons]
      exact ⟨hstops.1, hhdd.stops hstops.2.1, hstops.2.2⟩
    · rw [attempts_apply]
      simp only [forall_mem_append, forall_mem_cons]
      refine ⟨htks.1, fun t ht => ?_, htks.2.2⟩
      rcases Multiset.mem_add.1 ht with ht | ht
      · exact hval t ht
      · exact htks.2.1 t (Multiset.mem_cons_of_mem ht)
  | @cancel before after work tasks hs halive =>
    have hen : node.workGenerationEnabled request.peers := henabled (by simp [hs])
    rw [hs] at hstops htks
    simp only [forall_mem_append, forall_mem_cons] at hstops htks
    refine ⟨?_, fun _ => hen, ?_, ?_, hcs⟩
    · simp only [WorkState.tokens, hs, map_append, map_cons, sum_append,
        sum_cons] at htok ⊢
      simpa [Task.tokens] using htok
    · simp only [forall_mem_append, forall_mem_cons]
      refine ⟨hstops.1, ⟨hstops.2.1.stopped, fun t ht haft => ?_⟩, hstops.2.2⟩
      rcases Multiset.mem_cons.1 ht with rfl | ht
      · cases haft
      · exact hstops.2.1.tasks t ht haft
    · simp only [forall_mem_append, forall_mem_cons]
      refine ⟨htks.1, fun t ht => ?_, htks.2.2⟩
      rcases Multiset.mem_cons.1 ht with rfl | ht
      · exact valid_none
      · exact htks.2.1 t ht

/-- The step does not drop a branch of an attempt that waits for it. -/
def Answered (_ : WorkState) : Action → Prop
  | .handle work task event => Drops task event → work.finished ∨ work.localGenerationStarted
  | _ => True

def AllAlive (request : WorkRequest) (s : WorkState) : Prop :=
  ∀ a ∈ s.attempts, Alive request a.work a.tasks

theorem AllAlive.step (h : AllAlive request s) (hsnd : Sound node request s)
    (hok : Answered s action) (hstep : Step node request s action t) : AllAlive request t := by
  cases hstep with
  | @make makes stopped hmakes =>
    unfold WorkState.make
    split
    · refine forall_mem_append.2 ⟨h, ?_⟩
      rw [forall_mem_singleton]
      exact alive_new
    · exact h
  | @handle before after work work' task event rest tasks effect hs hhd =>
    have hstops := hsnd.stops
    have hen := hsnd.enabled (by simp [hs])
    unfold AllAlive at h ⊢
    rw [attempts_apply]
    rw [hs] at h hstops
    simp only [forall_mem_append, forall_mem_cons] at h hstops ⊢
    exact ⟨h.1, (handle_eq hhd).alive h.2.1 hstops.2.1 hen hok, h.2.2⟩
  | @cancel before after work tasks hs halive =>
    unfold AllAlive at h ⊢
    rw [hs] at h
    simp only [forall_mem_append, forall_mem_cons] at h ⊢
    exact ⟨h.1, .finish (Multiset.mem_cons_self _ _), h.2.2⟩

theorem sound_of_reaches {ok : WorkState → Action → Prop}
    (h : Reaches (Step node request) ok {} s) : Sound node request s :=
  h.invariant sound_new fun _ _ _ hs _ hstep => hs.step hstep

theorem Sound.calls_length_le (h : Sound node request s) : s.calls.length ≤ 1 := by
  have := h.tokens
  unfold WorkState.tokens at this
  omega

theorem Sound.calls_length (h : Sound node request s) (halive : AllAlive request s)
    (hq : s.Quiescent) : s.calls.length = 1 := by
  obtain ⟨hmakes, htks⟩ := hq
  have hsum : (s.attempts.map fun a => a.work.tokens + total Task.tokens a.tasks).sum = 0 := by
    refine sum_eq_zero fun n hn => ?_
    obtain ⟨a, ha, rfl⟩ := mem_map.1 hn
    have hfin : a.work.finished := by
      have := halive a ha
      rw [htks a ha] at this
      exact this.finished_of_no_tasks
    simp [htks a ha, DistributedWork.tokens, hfin]
  have htok := h.tokens
  unfold WorkState.tokens at htok
  omega

end WorkState

/-- A work request calls its callback at most once, with valid work or none; and in every run in
which no branch is dropped, it has called it once nothing of the request is left. -/
theorem work_request_answers_once (node : WorkNode) (request : WorkRequest) (s : WorkState) :
    (∀ ok, Reaches (WorkState.Step node request) ok {} s →
      s.calls.length ≤ 1 ∧ ∀ result ∈ s.calls, request.Valid node result) ∧
    (Reaches (WorkState.Step node request) WorkState.Answered {} s → s.Quiescent →
      s.calls.length = 1) := by
  constructor
  · intro ok hrun
    have hsnd := WorkState.sound_of_reaches hrun
    exact ⟨hsnd.calls_length_le, hsnd.calls⟩
  · intro hrun hq
    have hboth : WorkState.Sound node request s ∧ WorkState.AllAlive request s := by
      refine hrun.invariant
        (I := fun s => WorkState.Sound node request s ∧ WorkState.AllAlive request s) ⟨WorkState.sound_new, by simp [WorkState.AllAlive]⟩ ?_
      rintro t action t' ⟨hsnd, halive⟩ hok hstep
      exact ⟨hsnd.step hstep, halive.step hsnd hok hstep⟩
    exact hboth.1.calls_length hboth.2 hq

namespace Sample

def workNode : WorkNode := ⟨false, fun _ => true, fun _ _ => 0⟩

def workRequest : WorkRequest := ⟨0, 0, [("::1", 7000)]⟩

def asking (work : DistributedWork) (calls : List (Option (BitVec 64)))
    (tasks : Multiset DistributedWork.Task) : WorkState := ⟨0, [⟨work, tasks⟩], calls⟩

variable {work work' : DistributedWork} {calls : List (Option (BitVec 64))}

theorem step_asking {task : DistributedWork.Task} {rest : Multiset DistributedWork.Task}
    {tasks : List DistributedWork.Task} {event : DistributedWork.Event}
    {effect : DistributedWork.Effect}
    (h : work.handle workNode workRequest task event = some (work', tasks, effect)) :
    WorkState.Step workNode workRequest (asking work calls (task ::ₘ rest)) (.handle work task event)
      ((asking work' calls (tasks + rest)).apply effect) :=
  @WorkState.Step.handle workNode workRequest (asking work calls (task ::ₘ rest)) [] [] work work'
    task event rest tasks effect rfl h

/-- A run of the request in which no branch is dropped. -/
def Asks (s : WorkState) : Prop := Reaches (WorkState.Step workNode workRequest) WorkState.Answered {} s

theorem Asks.step {task : DistributedWork.Task} {rest : Multiset DistributedWork.Task}
    {tasks : List DistributedWork.Task} {effect : DistributedWork.Effect}
    (h : Asks (asking work calls (task ::ₘ rest))) (event : DistributedWork.Event)
    (hhd : work.handle workNode workRequest task event = some (work', tasks, effect))
    (hdrops : ¬ DistributedWork.Drops task event) :
    Asks ((asking work' calls (tasks + rest)).apply effect) := by
  have hok : WorkState.Answered (asking work calls (task ::ₘ rest)) (.handle work task event) :=
    fun hdrop => absurd hdrop hdrops
  exact Reaches.tail h hok (step_asking hhd)

theorem asks_reading : Asks (asking {} [] (.reading ::ₘ {.starting []})) := by
  have hmake : WorkState.Step workNode workRequest {} (.make false) (asking {} [] {.start}) :=
    .make false rfl
  have hok : WorkState.Answered {} (.make false) := trivial
  have hstart : Asks (asking {} [] {.start}) := Reaches.tail .refl hok hmake
  have hprs : Asks (asking {} [] {.starting workRequest.peers}) :=
    Asks.step hstart (.unresponsive false) rfl id
  have hconnect : Asks (asking {} [] (.connecting ::ₘ {.starting []})) :=
    Asks.step hprs .proceed rfl id
  have hwrite : Asks (asking {} [] (.writing ::ₘ {.starting []})) := hconnect.step .success rfl id
  exact hwrite.step .success rfl id

theorem quiescent_asking (work : DistributedWork) (calls : List (Option (BitVec 64))) :
    (asking work calls 0).Quiescent := by
  refine ⟨rfl, fun attempt hatt => ?_⟩
  rw [mem_singleton.1 hatt]

end Sample

open Sample

/-- The only peer answers with work. -/
theorem work_request_answers_once_sample :
    ∃ s, Reaches (WorkState.Step workNode workRequest) WorkState.Answered {} s ∧
      s.Quiescent ∧ s.calls.length = 1 := by
  have hresp : Asks (asking {} [] (.finish (some 10) true ::ₘ {.starting []})) :=
    asks_reading.step (.response 200 (some [("work", ['a'])]) 0) rfl
      (by simp [DistributedWork.Drops])
  have hfinish : Asks (asking { finished := true } []
      (.callback (some 10) true ::ₘ {.starting []})) := hresp.step .proceed rfl id
  have hcall : Asks (asking { finished := true } [some 10]
      (.stopOnce ::ₘ {.starting []})) := hfinish.step .proceed rfl id
  have hstop : Asks (asking { finished := true, stopped := true } [some 10]
      {.starting []}) := hcall.step .proceed rfl id
  have hend : Asks (asking { finished := true, stopped := true } [some 10] 0) :=
    Asks.step hstop .proceed rfl id
  have hquiet := quiescent_asking { finished := true, stopped := true } [some 10]
  exact ⟨_, hend, hquiet, (work_request_answers_once _ _ _).2 hend hquiet⟩

/-- The only peer answers with status 500: nothing is left, and the callback was not called. -/
theorem work_request_unanswered :
    ∃ s, Reaches (WorkState.Step workNode workRequest) (fun _ _ => True) {} s ∧
      s.Quiescent ∧ s.calls = [] := by
  have hread : Reaches (WorkState.Step workNode workRequest) (fun _ _ => True) {}
      (asking {} [] (.reading ::ₘ {.starting []})) :=
    asks_reading.mono fun _ _ _ => trivial
  have hdropped : DistributedWork.handle workNode workRequest {} .reading
      (.response 500 none 0) = some ({}, [], .none) := rfl
  have hended : DistributedWork.handle workNode workRequest {} (.starting [])
      .proceed = some ({}, [], .none) := rfl
  have hresp := hread.tail trivial (step_asking hdropped)
  exact ⟨_, hresp.tail trivial (@step_asking _ _ [] _ 0 _ _ _ hended), quiescent_asking _ _, rfl⟩

end Futurehead
