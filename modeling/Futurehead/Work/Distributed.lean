import Futurehead.Base.Run
import Futurehead.Json.Block
import Mathlib.Algebra.BigOperators.Group.Multiset.Basic
import Mathlib.Algebra.Order.BigOperators.Group.List

/-!
# Distributed work generation (`futurehead/node/distributed_work`, `distributed_work_factory`)

A request for work asks every work peer, and the node itself if it has no peers or they have not
been responsive. All of this runs at the same time, on several threads: name resolution, the network
operations of each peer, the local generation, cancellation from outside, and a timer that starts
the request again when all peers have failed. Atomic flags and counters hold it together.

A `distributed_work` is modelled by these atomics and by the tasks that hold a reference to it: the
operations that are waiting, and for each handler that is running the point that it has reached. A
task goes on by one access of an atomic.
-/

namespace Futurehead

/-! ## The code -/

/-- A `work_request`. Its callback is the same in every attempt. -/
structure WorkRequest where
  root : Root
  difficulty : Nat
  peers : List (String × BitVec 16)

/-- What a request reads of its node. -/
structure WorkNode where
  localWorkGenerationEnabled : Bool
  /-- Whether `make_address_v6` takes the text as an address. -/
  isAddress : String → Bool
  workDifficulty : Root → BitVec 64 → Nat

def WorkNode.workGenerationEnabled (node : WorkNode) (peers : List (String × BitVec 16)) : Bool :=
  peers ≠ [] ∨ node.localWorkGenerationEnabled

/-- The callback may be called with this result: no work, or work of the requested difficulty. -/
def WorkRequest.Valid (request : WorkRequest) (node : WorkNode) (result : Option (BitVec 64)) :
    Prop :=
  ∀ work ∈ result, request.difficulty ≤ node.workDifficulty request.root work

instance (request : WorkRequest) (node : WorkNode) (result : Option (BitVec 64)) :
    Decidable (request.Valid node result) :=
  inferInstanceAs (Decidable (∀ work ∈ result, _))

/-- The atomics of a `distributed_work`. -/
structure DistributedWork where
  resolvedExtra : Nat := 0
  failures : Nat := 0
  finished : Bool := false
  stopped : Bool := false
  localGenerationStarted : Bool := false

namespace DistributedWork

/-- What holds a reference to a `distributed_work`. -/
inductive Task
  /-- `start`, and then its loop with the peers that it has not come to. -/
  | start
  | starting (peers : List (String × BitVec 16))
  | resolving
  /-- The handler of a resolution, with the number of endpoints that it has not come to; before
  `++extra`, and between that and `do_request`. -/
  | resolved (endpoints : Nat)
  | counted (endpoints : Nat)
  | connecting
  | writing
  | reading
  /-- `failure`, before `++failures` and with the value of it. -/
  | failure
  | failed (failures : Nat)
  /-- `handle_failure`, before and after its first look at `finished`. -/
  | handleFailure
  | retry
  | generating
  /-- `finished.exchange` with the result for the callback, and whether `stop_once` is called even if
  someone else has finished. -/
  | finish (result : Option (BitVec 64)) (stop : Bool)
  /-- The callback, and whether `stop_once` is called after it. -/
  | callback (result : Option (BitVec 64)) (stop : Bool)
  | stopOnce
  /-- The operations of `do_cancel`. -/
  | doCancel

inductive ErrorCode
  | operationCanceled
  | other
  deriving DecidableEq

/-- What the environment does for a task. -/
inductive Event
  | proceed
  /-- The value of `unresponsive_work_peers`. -/
  | unresponsive (value : Bool)
  | resolved (endpoints : Nat)
  | success
  | error (ec : ErrorCode)
  /-- An HTTP response: its status, its body if it is JSON, and what `from_string_hex` leaves in a
  number to which it assigns nothing. -/
  | response (status : Nat) (body : Option JsonTree) (unassigned : BitVec 64)
  | generated (result : Option (BitVec 64))

/-- What a task does outside of the `distributed_work`. -/
inductive Effect
  | none
  /-- The callback is called. -/
  | call (result : Option (BitVec 64))
  /-- The alarm is set for a new attempt. -/
  | alarm

def parseWork (body : Option JsonTree) (unassigned : BitVec 64) : Option (BitVec 64) :=
  match body with
  | none => none
  | some tree =>
    match tree.get "work" with
    | .error _ => none
    | .ok text =>
      match fromStringHex text with
      | .ok work => some work
      | .error .error => none
      | .error .exception => some unassigned

section

variable (node : WorkNode) (request : WorkRequest)

def success (body : Option JsonTree) (unassigned : BitVec 64) : List Task :=
  match parseWork body unassigned with
  | none => [.failure]
  | some work =>
    if request.difficulty ≤ node.workDifficulty request.root work then [.finish (some work) true]
    else [.failure]

/-- The handlers of connecting and writing, which go on with `next`. -/
def operated (d : DistributedWork) (next : Task) : Event → Option (List Task)
  | .success => some (if d.stopped then [] else [next])
  | .error ec => some (if ec = .operationCanceled then [] else [.failure])
  | _ => none

/-- One step of a task: the atomics after it, the tasks that take its place, and what it does
outside. -/
def handle (d : DistributedWork) : Task → Event → Option (DistributedWork × List Task × Effect)
  | .start, .unresponsive value =>
    if (request.peers = [] ∨ value) ∧ node.localWorkGenerationEnabled then
      some ({ d with localGenerationStarted := true }, [.generating, .starting request.peers], .none)
    else if request.peers = [] then some (d, [.callback none false], .none)
    else some (d, [.starting request.peers], .none)
  | .starting [], .proceed => some (d, [], .none)
  | .starting (peer :: peers), .proceed =>
    some (d, [if node.isAddress peer.1 then .connecting else .resolving, .starting peers], .none)
  | .resolving, .resolved (endpoints + 1) => some (d, [.connecting, .resolved endpoints], .none)
  | .resolving, .error _ => some (d, [.failure], .none)
  | .resolved 0, .proceed => some (d, [], .none)
  | .resolved (endpoints + 1), .proceed =>
    some ({ d with resolvedExtra := d.resolvedExtra + 1 }, [.counted endpoints], .none)
  | .counted endpoints, .proceed => some (d, [.connecting, .resolved endpoints], .none)
  | .connecting, event => (d.operated .writing event).map fun tasks => (d, tasks, .none)
  | .writing, event => (d.operated .reading event).map fun tasks => (d, tasks, .none)
  | .reading, .response status body unassigned =>
    -- the branch for other states of the response asks for an error code, and there is none
    some (d, if d.stopped = false ∧ status = 200 then success node request body unassigned else [],
      .none)
  | .reading, .error _ => some (d, [.doCancel, .failure], .none)
  | .failure, .proceed =>
    some ({ d with failures := d.failures + 1 }, [.failed (d.failures + 1)], .none)
  | .failed failures, .proceed =>
    -- the operands of the comparison are taken from left to right
    some (d, if failures = request.peers.length + d.resolvedExtra then [.handleFailure] else [],
      .none)
  | .handleFailure, .proceed => some (d, if d.finished then [] else [.retry], .none)
  | .retry, .proceed =>
    if d.localGenerationStarted then some (d, [], .none)
    else if d.finished then some (d, [], .none)
    else some ({ d with finished := true }, [], .alarm)
  | .generating, .generated result =>
    if request.Valid node result then some (d, [.finish result true], .none) else none
  | .finish result stop, .proceed =>
    if d.finished then some (d, if stop then [.stopOnce] else [], .none)
    else some ({ d with finished := true }, [.callback result true], .none)
  | .callback result stop, .proceed => some (d, if stop then [.stopOnce] else [], .call result)
  | .stopOnce, .proceed => some ({ d with stopped := true }, [], .none)
  | .doCancel, .success | .doCancel, .error _ => some (d, [], .none)
  | _, _ => none

end

end DistributedWork

/-- A `distributed_work` with its tasks; it is gone once it has none. -/
structure WorkAttempt where
  work : DistributedWork := {}
  tasks : Multiset DistributedWork.Task := {.start}

/-- A request, over all of its attempts. -/
structure WorkState where
  /-- The calls of `distributed_work_factory::make` that are waiting: the first, or an alarm. -/
  makes : Nat := 1
  attempts : List WorkAttempt := []
  /-- What the callback was called with. -/
  calls : List (Option (BitVec 64)) := []

namespace WorkState

open DistributedWork

def apply (s : WorkState) : Effect → WorkState
  | .none => s
  | .call result => { s with calls := s.calls ++ [result] }
  | .alarm => { s with makes := s.makes + 1 }

/-- `make`, and the callback with no work if it fails; `stopped` is that the factory has stopped or
the node is gone. -/
def make (node : WorkNode) (request : WorkRequest) (s : WorkState) (stopped : Bool) : WorkState :=
  if stopped = false ∧ node.workGenerationEnabled request.peers then
    { s with attempts := s.attempts ++ [{}] }
  else s.apply (.call none)

inductive Action
  | make (stopped : Bool)
  /-- A task of an attempt with the atomics `work` goes on. -/
  | handle (work : DistributedWork) (task : Task) (event : Event)
  /-- The factory cancels an attempt. -/
  | cancel

inductive Step (node : WorkNode) (request : WorkRequest) : WorkState → Action → WorkState → Prop
  | make {s : WorkState} {makes : Nat} (stopped : Bool) (h : s.makes = makes + 1) :
      Step node request s (.make stopped) (make node request { s with makes } stopped)
  | handle {s : WorkState} {before after : List WorkAttempt} {work work' : DistributedWork}
      {task : Task} {event : Event} {rest : Multiset Task} {tasks : List Task} {effect : Effect}
      (hs : s.attempts = before ++ ⟨work, task ::ₘ rest⟩ :: after)
      (h : work.handle node request task event = some (work', tasks, effect)) :
      Step node request s (.handle work task event)
        (WorkState.apply
          { s with attempts := before ++ ⟨work', (tasks : Multiset Task) + rest⟩ :: after } effect)
  | cancel {s : WorkState} {before after : List WorkAttempt} {work : DistributedWork}
      {tasks : Multiset Task} (hs : s.attempts = before ++ ⟨work, tasks⟩ :: after)
      (halive : tasks ≠ 0) :
      Step node request s .cancel
        { s with attempts := before ++ ⟨work, .finish none false ::ₘ tasks⟩ :: after }

/-- Nothing of the request is left: no operation, no generation, no timer and no handler. -/
def Quiescent (s : WorkState) : Prop := s.makes = 0 ∧ ∀ attempt ∈ s.attempts, attempt.tasks = 0

end WorkState

/-! ## What a step can do -/

namespace DistributedWork

variable (node : WorkNode) (request : WorkRequest)

/-- What makes a handler return without going on, succeeding or failing, although the request has not
been stopped. -/
def Drops : Task → Event → Prop
  | .connecting, .error .operationCanceled => True
  | .writing, .error .operationCanceled => True
  | .reading, .response status _ _ => status ≠ 200
  | _, _ => False

/-- The cases of `handle`. -/
inductive Handled (d : DistributedWork) :
    Task → Event → DistributedWork → List Task → Effect → Prop
  | startLocal (value : Bool) (h : node.localWorkGenerationEnabled) :
      Handled d .start (.unresponsive value) { d with localGenerationStarted := true }
        [.generating, .starting request.peers] .none
  | startUnable (value : Bool) (hprs : request.peers = [])
      (h : node.localWorkGenerationEnabled = false) :
      Handled d .start (.unresponsive value) d [.callback none false] .none
  | startPeers (value : Bool) (hprs : request.peers ≠ []) :
      Handled d .start (.unresponsive value) d [.starting request.peers] .none
  | started : Handled d (.starting []) .proceed d [] .none
  | connect (peer : String × BitVec 16) (peers : List (String × BitVec 16)) :
      Handled d (.starting (peer :: peers)) .proceed d [.connecting, .starting peers] .none
  | resolve (peer : String × BitVec 16) (peers : List (String × BitVec 16)) :
      Handled d (.starting (peer :: peers)) .proceed d [.resolving, .starting peers] .none
  | resolvedFirst (endpoints : Nat) :
      Handled d .resolving (.resolved (endpoints + 1)) d [.connecting, .resolved endpoints] .none
  | resolvedLast : Handled d (.resolved 0) .proceed d [] .none
  | resolvedExtra (endpoints : Nat) :
      Handled d (.resolved (endpoints + 1)) .proceed
        { d with resolvedExtra := d.resolvedExtra + 1 } [.counted endpoints] .none
  | counted (endpoints : Nat) :
      Handled d (.counted endpoints) .proceed d [.connecting, .resolved endpoints] .none
  | connected : Handled d .connecting .success d [.writing] .none
  | written : Handled d .writing .success d [.reading] .none
  /-- A branch that ends without success or failure. -/
  | dropped {task : Task} {event : Event} (h : d.stopped ∨ Drops task event)
      (htask : task = .connecting ∨ task = .writing ∨ task = .reading) :
      Handled d task event d [] .none
  | succeeded {body : Option JsonTree} {unassigned work : BitVec 64}
      (h : request.Valid node (some work)) :
      Handled d .reading (.response 200 body unassigned) d [.finish (some work) true] .none
  | failed {task : Task} {event : Event} (htask : task = .resolving ∨ task = .connecting ∨
      task = .writing ∨ task = .reading) : Handled d task event d [.failure] .none
  | readError (ec : ErrorCode) : Handled d .reading (.error ec) d [.doCancel, .failure] .none
  | count : Handled d .failure .proceed { d with failures := d.failures + 1 }
      [.failed (d.failures + 1)] .none
  | all : Handled d (.failed (request.peers.length + d.resolvedExtra)) .proceed d
      [.handleFailure] .none
  | notAll (failures : Nat) (h : failures ≠ request.peers.length + d.resolvedExtra) :
      Handled d (.failed failures) .proceed d [] .none
  | unfinished (h : d.finished = false) : Handled d .handleFailure .proceed d [.retry] .none
  | tooLate {task : Task} (h : d.finished) (htask : task = .handleFailure ∨ task = .retry) :
      Handled d task .proceed d [] .none
  | waitLocal (h : d.localGenerationStarted) : Handled d .retry .proceed d [] .none
  | again (h : d.finished = false) (hloc : d.localGenerationStarted = false) :
      Handled d .retry .proceed { d with finished := true } [] .alarm
  | generated {result : Option (BitVec 64)} (h : request.Valid node result) :
      Handled d .generating (.generated result) d [.finish result true] .none
  | finish {result : Option (BitVec 64)} {stop : Bool} (h : d.finished = false) :
      Handled d (.finish result stop) .proceed { d with finished := true }
        [.callback result true] .none
  | lateStop {result : Option (BitVec 64)} (h : d.finished) :
      Handled d (.finish result true) .proceed d [.stopOnce] .none
  | late {result : Option (BitVec 64)} (h : d.finished) :
      Handled d (.finish result false) .proceed d [] .none
  | callbackStop {result : Option (BitVec 64)} :
      Handled d (.callback result true) .proceed d [.stopOnce] (.call result)
  | callback {result : Option (BitVec 64)} :
      Handled d (.callback result false) .proceed d [] (.call result)
  | stopOnce : Handled d .stopOnce .proceed { d with stopped := true } [] .none
  | doCancel {event : Event} : Handled d .doCancel event d [] .none

variable {node request}

variable {d : DistributedWork} {task : Task} {event : Event} {tasks : List Task}

theorem operated_eq {next : Task} (h : d.operated next event = some tasks)
    (htask : task = .connecting ∨ task = .writing)
    (hnext : Handled node request d task .success d [next] .none) :
    Handled node request d task event d tasks .none := by
  have hdrop : task = .connecting ∨ task = .writing ∨ task = .reading := htask.imp_right .inl
  have hfail : task = .resolving ∨ task = .connecting ∨ task = .writing ∨ task = .reading :=
    .inr hdrop
  cases event with
  | success =>
    by_cases hstop : d.stopped
    · simp only [operated, hstop, ↓reduceIte, Option.some.injEq] at h
      subst h
      exact .dropped (.inl hstop) hdrop
    · simp only [operated, hstop, Bool.false_eq_true, ↓reduceIte, Option.some.injEq] at h
      subst h
      exact hnext
  | error ec =>
    cases ec with
    | operationCanceled =>
      obtain rfl : [] = tasks := by simpa [operated] using h
      have hdrops : Drops task (.error .operationCanceled) := by
        rcases htask with rfl | rfl <;> trivial
      exact .dropped (.inr hdrops) hdrop
    | other =>
      obtain rfl : [.failure] = tasks := by simpa [operated] using h
      exact .failed hfail
  | _ => cases h

theorem response_eq (status : Nat) (body : Option JsonTree) (unassigned : BitVec 64) :
    Handled node request d .reading (.response status body unassigned) d
      (if d.stopped = false ∧ status = 200 then success node request body unassigned else [])
      .none := by
  by_cases hstop : d.stopped
  · rw [if_neg (by simp [hstop])]
    exact .dropped (.inl hstop) (.inr (.inr rfl))
  · by_cases hstatus : status = 200
    · subst hstatus
      rw [if_pos ⟨by simpa using hstop, rfl⟩, success]
      cases parseWork body unassigned with
      | none => exact .failed (.inr (.inr (.inr rfl)))
      | some work =>
        by_cases hwork : request.difficulty ≤ node.workDifficulty request.root work
        · simp only [if_pos hwork]
          exact .succeeded (by simpa [WorkRequest.Valid] using hwork)
        · simp only [if_neg hwork]
          exact .failed (.inr (.inr (.inr rfl)))
    · rw [if_neg (fun h => hstatus h.2)]
      exact .dropped (.inr hstatus) (.inr (.inr rfl))

theorem handle_eq {d' : DistributedWork} {effect : Effect}
    (h : d.handle node request task event = some (d', tasks, effect)) :
    Handled node request d task event d' tasks effect := by
  cases task with
  | start =>
    cases event with
    | unresponsive value =>
      rw [handle] at h
      split at h
      · rename_i hloc
        cases h
        exact .startLocal value hloc.2
      · rename_i hloc
        split at h
        · rename_i hprs
          cases h
          exact .startUnable value hprs (by simpa [hprs] using hloc)
        · rename_i hprs
          cases h
          exact .startPeers value hprs
    | _ => cases h
  | starting peers =>
    cases event with
    | proceed =>
      cases peers with
      | nil => cases h; exact .started
      | cons peer peers =>
        cases haddr : node.isAddress peer.1 with
        | true => simp only [handle, haddr] at h; cases h; exact .connect peer peers
        | false => simp only [handle, haddr] at h; cases h; exact .resolve peer peers
    | _ => cases peers <;> cases h
  | resolving =>
    cases event with
    | resolved eps =>
      cases eps with
      | zero => cases h
      | succ eps => cases h; exact .resolvedFirst eps
    | error ec => cases h; exact .failed (.inl rfl)
    | _ => cases h
  | resolved eps =>
    cases event with
    | proceed =>
      cases eps with
      | zero => cases h; exact .resolvedLast
      | succ eps => cases h; exact .resolvedExtra eps
    | _ => cases eps <;> cases h
  | counted eps =>
    cases event with
    | proceed => cases h; exact .counted eps
    | _ => cases h
  | connecting =>
    obtain ⟨tasks, hop, heq⟩ := Option.map_eq_some_iff.1 h
    cases heq
    exact operated_eq hop (.inl rfl) .connected
  | writing =>
    obtain ⟨tasks, hop, heq⟩ := Option.map_eq_some_iff.1 h
    cases heq
    exact operated_eq hop (.inr rfl) .written
  | reading =>
    cases event with
    | response status body unassigned => cases h; exact response_eq status body unassigned
    | error ec => cases h; exact .readError ec
    | _ => cases h
  | failure =>
    cases event with
    | proceed => cases h; exact .count
    | _ => cases h
  | failed failures =>
    cases event with
    | proceed =>
      by_cases hall : failures = request.peers.length + d.resolvedExtra
      · subst hall
        rw [handle, if_pos rfl] at h
        cases h
        exact .all
      · rw [handle, if_neg hall] at h
        cases h
        exact .notAll failures hall
    | _ => cases h
  | handleFailure =>
    cases event with
    | proceed =>
      cases hfin : d.finished with
      | true => simp only [handle, hfin] at h; cases h; exact .tooLate hfin (.inl rfl)
      | false => simp only [handle, hfin] at h; cases h; exact .unfinished hfin
    | _ => cases h
  | retry =>
    cases event with
    | proceed =>
      rw [handle] at h
      split at h
      · rename_i hloc
        cases h
        exact .waitLocal hloc
      · rename_i hloc
        split at h
        · rename_i hfin
          cases h
          exact .tooLate hfin (.inr rfl)
        · rename_i hfin
          cases h
          exact .again (by simpa using hfin) (by simpa using hloc)
    | _ => cases h
  | generating =>
    cases event with
    | generated result =>
      rw [handle] at h
      split at h
      · rename_i hval
        cases h
        exact .generated hval
      · cases h
    | _ => cases h
  | finish result stop =>
    cases event with
    | proceed =>
      rw [handle] at h
      split at h
      · rename_i hfin
        cases stop with
        | true => cases h; exact .lateStop hfin
        | false => cases h; exact .late hfin
      · rename_i hfin
        cases h
        exact .finish (by simpa using hfin)
    | _ => cases h
  | callback result stop =>
    cases event with
    | proceed =>
      cases stop with
      | true => cases h; exact .callbackStop
      | false => cases h; exact .callback
    | _ => cases h
  | stopOnce =>
    cases event with
    | proceed => cases h; exact .stopOnce
    | _ => cases h
  | doCancel =>
    cases event with
    | success | error ec => cases h; exact .doCancel
    | _ => cases h

end DistributedWork

end Futurehead
