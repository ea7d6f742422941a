import Mathlib.Data.List.Nodup
import Mathlib.Logic.Function.Basic
import Futurehead.Base.Run
import Futurehead.Blocks

/-!
# The work pool (`futurehead/lib/work`)

Requests for work wait in a list. Every worker thread copies the first one and searches without the
lock; the one that finds work takes the lock again, removes the first request of the list and calls
its callback. Whether the first request is still the copied one is decided by a ticket, which every
removal of the first request changes.

A worker goes on by one critical section, one attempt or one read of the ticket at a time. The search
uses `work_v1::value`, which is a parameter. The observers, the rate limiter and the blocking
`generate` are left out.
-/

namespace Futurehead

open List BitVec Function

/-- `work_item`. Requests are numbered in the order of the calls of `generate`. -/
structure WorkItem where
  id : Nat
  item : Root
  difficulty : Nat
  /-- Whether there is a callback. -/
  callback : Bool
  deriving DecidableEq

/-- What does not change in a work pool. -/
structure WorkPoolConfig where
  threads : Nat
  /-- Whether thread 0 asks OpenCL first. -/
  opencl : Bool
  /-- `work_v1::value`. -/
  value : Root → BitVec 64 → Nat

/-- The local variables of a search. -/
structure WorkSearch where
  /-- `current_l`. -/
  current : WorkItem
  /-- `ticket_l`. -/
  ticket : BitVec 32
  output : Nat := 0
  iteration : Nat := 0
  deriving DecidableEq

/-- Where a worker is in `work_pool::loop`. -/
inductive WorkerPhase where
  /-- At the head of the loop. -/
  | head
  | opencl (search : WorkSearch)
  /-- In the loops of the search; with `iteration` zero at the condition of the outer one. -/
  | searching (search : WorkSearch)
  /-- After the search, before it takes the lock. -/
  | found (search : WorkSearch)
  /-- About to call the callback, without the lock. -/
  | calling (current : WorkItem)
  deriving DecidableEq

/-- `work_pool`. The last three fields record what has happened. -/
structure WorkPool where
  ticket : BitVec 32 := 0
  done : Bool := false
  pending : List WorkItem := []
  phase : Nat → WorkerPhase := fun _ => .head
  /-- The variable `work` of each worker, which has any value at first. -/
  work : Nat → BitVec 64
  added : Nat := 0
  /-- The callbacks that have been called, with their arguments. -/
  calls : List (WorkItem × Option (BitVec 64)) := []
  /-- The requests that were removed when work was found. -/
  solved : List WorkItem := []
  /-- The roots for which `cancel` was called. -/
  cancelled : List Root := []

namespace WorkPool

variable (cfg : WorkPoolConfig) (s : WorkPool)

def setPhase (i : Nat) (phase : WorkerPhase) : WorkPool :=
  { s with phase := Function.update s.phase i phase }

def setWork (i : Nat) (work : BitVec 64) : WorkPool :=
  { s with work := Function.update s.work i work }

def generate (item : Root) (difficulty : Nat) (callback : Bool) : WorkPool :=
  let request : WorkItem := ⟨s.added, item, difficulty, callback⟩
  let s := { s with added := s.added + 1 }
  if cfg.threads ≠ 0 then { s with pending := s.pending ++ [request] }
  else if callback then { s with calls := s.calls ++ [(request, none)] }
  else s

def cancel (root : Root) : WorkPool :=
  let s := { s with cancelled := root :: s.cancelled }
  if s.done then s
  else
    let first := s.pending.head?.any fun request => request.item == root
    { s with
      ticket := if first then s.ticket + 1 else s.ticket
      calls := s.calls ++ (s.pending.filter fun request =>
        request.item == root && request.callback).map fun request => (request, none)
      pending := s.pending.filter fun request => !(request.item == root) }

def stop : WorkPool := { s with done := true, ticket := s.ticket + 1 }

/-- A worker copies the first request and the ticket. It waits if there is no request, and ends if
`done` is set. -/
def take (i : Nat) : Option WorkPool :=
  match s.phase i, s.pending with
  | .head, current :: _ =>
    if i < cfg.threads ∧ s.done = false then
      let search : WorkSearch := { current, ticket := s.ticket }
      some (s.setPhase i (if i = 0 ∧ cfg.opencl then .opencl search else .searching search))
    else none
  | _, _ => none

def openclDone (i : Nat) (result : Option (BitVec 64)) : Option WorkPool :=
  match s.phase i, result with
  | .opencl search, some work =>
    let output := cfg.value search.current.item work
    some ((s.setWork i work).setPhase i (.found { search with output }))
  | .opencl search, none => some (s.setPhase i (.searching search))
  | _, _ => none

/-- The condition of the outer loop, which reads the ticket without the lock. -/
def check (i : Nat) : Option WorkPool :=
  match s.phase i with
  | .searching search =>
    if search.iteration = 0 ∨ search.current.difficulty ≤ search.output then
      if s.ticket = search.ticket ∧ search.output < search.current.difficulty then
        some (s.setPhase i (.searching { search with iteration := 256 }))
      else some (s.setPhase i (.found search))
    else none
  | _ => none

/-- A turn of the inner loop, with the next random number. -/
def attempt (i : Nat) (work : BitVec 64) : Option WorkPool :=
  match s.phase i with
  | .searching search =>
    if search.iteration ≠ 0 ∧ search.output < search.current.difficulty then
      let output := cfg.value search.current.item work
      let iteration := search.iteration - 1
      some ((s.setWork i work).setPhase i (.searching { search with output, iteration }))
    else none
  | _ => none

/-- The worker has the lock again. An empty list must not be popped. -/
def finish (i : Nat) : Option WorkPool :=
  match s.phase i with
  | .found search =>
    if s.ticket = search.ticket then
      match s.pending with
      | [] => none
      | front :: pending =>
        some ({ s with ticket := s.ticket + 1, pending, solved := s.solved ++ [front] }.setPhase i
          (.calling search.current))
    else some (s.setPhase i .head)
  | _ => none

/-- The callback is called with the work. A call of an empty function is an exception. -/
def call (i : Nat) : Option WorkPool :=
  match s.phase i with
  | .calling current =>
    if current.callback then
      some ({ s with calls := s.calls ++ [(current, some (s.work i))] }.setPhase i .head)
    else none
  | _ => none

inductive Action where
  | generate (item : Root) (difficulty : Nat) (callback : Bool)
  | cancel (root : Root)
  | stop
  | take (i : Nat)
  | opencl (i : Nat) (result : Option (BitVec 64))
  | check (i : Nat)
  | attempt (i : Nat) (work : BitVec 64)
  | finish (i : Nat)
  | call (i : Nat)
  deriving DecidableEq

def exec : Action → Option WorkPool
  | .generate item difficulty callback => some (s.generate cfg item difficulty callback)
  | .cancel root => some (s.cancel root)
  | .stop => some s.stop
  | .take i => s.take cfg i
  | .opencl i result => s.openclDone cfg i result
  | .check i => s.check i
  | .attempt i work => s.attempt cfg i work
  | .finish i => s.finish i
  | .call i => s.call i

/-- OpenCL gives right results, unless it was told to stop by the ticket. -/
def OpenclCorrect : Action → Prop
  | .opencl i (some work) => ∀ search, s.phase i = .opencl search → s.ticket = search.ticket →
      search.current.difficulty ≤ cfg.value search.current.item work
  | _ => True

instance decidableOpenclCorrect (action : Action) : Decidable (s.OpenclCorrect cfg action) :=
  match action with
  | .opencl i (some work) =>
    match h : s.phase i with
    | .opencl search =>
      decidable_of_iff (s.ticket = search.ticket →
          search.current.difficulty ≤ cfg.value search.current.item work)
        ⟨fun hright search' h' => by cases h.symm.trans h'; exact hright, fun hright => hright search h⟩
    | .head => .isTrue fun _ h' => nomatch h.symm.trans h'
    | .searching _ => .isTrue fun _ h' => nomatch h.symm.trans h'
    | .found _ => .isTrue fun _ h' => nomatch h.symm.trans h'
    | .calling _ => .isTrue fun _ h' => nomatch h.symm.trans h'
  | .opencl _ none => .isTrue trivial
  | .generate .. => .isTrue trivial
  | .cancel _ => .isTrue trivial
  | .stop => .isTrue trivial
  | .take _ => .isTrue trivial
  | .check _ => .isTrue trivial
  | .attempt .. => .isTrue trivial
  | .finish _ => .isTrue trivial
  | .call _ => .isTrue trivial

/-- What is assumed of a step: the number of tickets so far, and OpenCL. -/
def Assumed (action : Action) : Prop := s.ticket.toNat < 2 ^ 31 ∧ s.OpenclCorrect cfg action

instance decidableAssumed (action : Action) : Decidable (s.Assumed cfg action) :=
  inferInstanceAs (Decidable (_ ∧ _))

def Reached (s : WorkPool) : Prop :=
  ∃ work, Reaches (fun s action t => s.exec cfg action = some t) (fun s action => s.Assumed cfg action)
    { work } s

/-! ## The invariant -/

/-- A search with the current ticket is for the first request. -/
def Current (search : WorkSearch) : Prop :=
  search.ticket.toNat ≤ s.ticket.toNat ∧
    (s.ticket = search.ticket → s.pending.head? = some search.current)

/-- The request has left the list and its callback has not been called. -/
def Unanswered (request : WorkItem) : Prop :=
  request.id < s.added ∧ (∀ r ∈ s.pending, r.id ≠ request.id) ∧ ∀ c ∈ s.calls, c.1.id ≠ request.id

def WorkerSound (work : BitVec 64) : WorkerPhase → Prop
  | .head => True
  | .opencl search => s.Current search ∧ search.output = 0
  | .searching search =>
    s.Current search ∧ search.output ≤ cfg.value search.current.item work
  | .found search =>
    s.Current search ∧ search.output ≤ cfg.value search.current.item work ∧
      (s.ticket = search.ticket → search.current.difficulty ≤ search.output)
  | .calling current =>
    s.Unanswered current ∧ current.difficulty ≤ cfg.value current.item work

/-- The argument of a callback: enough work for the request, or nothing after a cancel. -/
def Answer (c : WorkItem × Option (BitVec 64)) : Prop :=
  match c.2 with
  | some work => c.1.difficulty ≤ cfg.value c.1.item work
  | none => c.1.item ∈ s.cancelled ∨ cfg.threads = 0

structure ListsSound : Prop where
  pending_lt : ∀ r ∈ s.pending, r.id < s.added
  sorted : s.pending.Pairwise fun r r' => r.id < r'.id
  calls_lt : ∀ c ∈ s.calls, c.1.id < s.added
  waiting : ∀ c ∈ s.calls, ∀ r ∈ s.pending, c.1.id ≠ r.id
  once : (s.calls.map (·.1.id)).Nodup
  answers : ∀ c ∈ s.calls, s.Answer cfg c
  solved : s.solved.Pairwise fun r r' => r.id < r'.id
  solved_lt : ∀ r ∈ s.solved, r.id < s.added
  solved_first : ∀ r ∈ s.solved, ∀ r' ∈ s.pending, r.id < r'.id

structure Sound : Prop where
  lists : s.ListsSound cfg
  worker : ∀ i, s.WorkerSound cfg (s.work i) (s.phase i)
  /-- No two workers call the same callback. -/
  distinct : ∀ i j current current', s.phase i = .calling current → s.phase j = .calling current' →
    current.id = current'.id → i = j

variable {cfg s} {t : WorkPool} {i : Nat}

theorem Current.mono {search : WorkSearch} (h : s.Current search)
    (hle : s.ticket.toNat ≤ t.ticket.toNat)
    (hhead : t.ticket = s.ticket → ∀ r, s.pending.head? = some r → t.pending.head? = some r) :
    t.Current search := by
  refine ⟨h.1.trans hle, fun heq => ?_⟩
  have hs : s.ticket = search.ticket := by
    have := h.1
    apply eq_of_toNat_eq
    rw [← heq] at this ⊢
    omega
  exact hhead (heq.trans hs.symm) _ (h.2 hs)

theorem WorkerSound.mono {work : BitVec 64} {phase : WorkerPhase} (h : s.WorkerSound cfg work phase)
    (hle : s.ticket.toNat ≤ t.ticket.toNat)
    (hhead : t.ticket = s.ticket → ∀ r, s.pending.head? = some r → t.pending.head? = some r)
    (hun : ∀ r, s.Unanswered r → phase = .calling r → t.Unanswered r) :
    t.WorkerSound cfg work phase := by
  cases phase with
  | head => trivial
  | opencl search | searching search => exact ⟨h.1.mono hle hhead, h.2⟩
  | found search =>
    obtain ⟨hcur, hval, hfound⟩ := h
    refine ⟨hcur.mono hle hhead, hval, fun heq => hfound ?_⟩
    have := hcur.1
    apply eq_of_toNat_eq
    rw [← heq] at this ⊢
    omega
  | calling current => exact ⟨hun current h.1 rfl, h.2⟩

theorem toNat_succ (h : s.ticket.toNat < 2 ^ 31) : (s.ticket + 1).toNat = s.ticket.toNat + 1 := by
  have hone : (1 : BitVec 32).toNat = 1 := rfl
  rw [toNat_add, hone]
  omega

theorem le_succ (h : s.ticket.toNat < 2 ^ 31) : s.ticket.toNat ≤ (s.ticket + 1).toNat := by
  rw [toNat_succ h]
  exact Nat.le_succ _

theorem succ_ne (h : s.ticket.toNat < 2 ^ 31) : s.ticket + 1 ≠ s.ticket := by
  intro heq
  have := toNat_succ h
  rw [heq] at this
  omega

/-! ## The lists -/

namespace ListsSound

variable (h : s.ListsSound cfg)

include h

theorem of_eq (hpnd : t.pending = s.pending) (hadded : t.added = s.added)
    (hcalls : t.calls = s.calls) (hsolved : t.solved = s.solved)
    (hcan : ∀ root ∈ s.cancelled, root ∈ t.cancelled) : t.ListsSound cfg where
  pending_lt := by rw [hpnd, hadded]; exact h.pending_lt
  sorted := by rw [hpnd]; exact h.sorted
  calls_lt := by rw [hcalls, hadded]; exact h.calls_lt
  waiting := by rw [hcalls, hpnd]; exact h.waiting
  once := by rw [hcalls]; exact h.once
  answers c hc := by
    have hanswer := h.answers c (hcalls ▸ hc)
    unfold Answer at hanswer ⊢
    split
    · next work hwork =>
      rw [hwork] at hanswer
      exact hanswer
    · next hnone =>
      rw [hnone] at hanswer
      exact hanswer.imp_left (hcan _)
  solved := by rw [hsolved]; exact h.solved
  solved_lt := by rw [hsolved, hadded]; exact h.solved_lt
  solved_first := by rw [hsolved, hpnd]; exact h.solved_first

theorem nodup_id : (s.pending.map (·.id)).Nodup :=
  pairwise_map.2 (h.sorted.imp fun hlt => hlt.ne)

theorem drop {pending : List WorkItem} (hsub : pending.Sublist s.pending) :
    ListsSound cfg { s with pending } where
  pending_lt r hr := h.pending_lt r (hsub.subset hr)
  sorted := h.sorted.sublist hsub
  calls_lt := h.calls_lt
  waiting c hc r hr := h.waiting c hc r (hsub.subset hr)
  once := h.once
  answers := h.answers
  solved := h.solved
  solved_lt := h.solved_lt
  solved_first r hr r' hr' := h.solved_first r hr r' (hsub.subset hr')

theorem solve {front : WorkItem} {pending : List WorkItem} (hpnd : s.pending = front :: pending) :
    ListsSound cfg { s with pending, solved := s.solved ++ [front] } := by
  have hmem : front ∈ s.pending := hpnd ▸ mem_cons_self
  have hrest (r : WorkItem) (hr : r ∈ pending) : r ∈ s.pending := hpnd ▸ mem_cons_of_mem _ hr
  obtain ⟨hfront, -⟩ := pairwise_cons.1 (hpnd ▸ h.sorted)
  have hdrop : ListsSound cfg { s with pending } := h.drop (hpnd ▸ sublist_cons_self _ _)
  have hsolved {r : WorkItem} : r ∈ s.solved ++ [front] ↔ r ∈ s.solved ∨ r = front := by
    rw [mem_append, mem_singleton]
  refine ⟨hdrop.pending_lt, hdrop.sorted, hdrop.calls_lt, hdrop.waiting, hdrop.once, hdrop.answers,
    ?_, fun r hr => ?_, fun r hr r' hr' => ?_⟩
  · refine pairwise_append.2 ⟨h.solved, pairwise_singleton _ _, fun r hr r' hr' => ?_⟩
    rw [mem_singleton.1 hr']
    exact h.solved_first r hr front hmem
  · rcases hsolved.1 hr with hr | rfl
    · exact h.solved_lt r hr
    · exact h.pending_lt _ hmem
  · rcases hsolved.1 hr with hr | rfl
    · exact h.solved_first r hr r' (hrest r' hr')
    · exact hfront r' hr'

theorem number : ListsSound cfg { s with added := s.added + 1 } where
  pending_lt r hr := Nat.lt_succ_of_lt (h.pending_lt r hr)
  sorted := h.sorted
  calls_lt c hc := Nat.lt_succ_of_lt (h.calls_lt c hc)
  waiting := h.waiting
  once := h.once
  answers := h.answers
  solved := h.solved
  solved_lt r hr := Nat.lt_succ_of_lt (h.solved_lt r hr)
  solved_first := h.solved_first

theorem add {request : WorkItem} (hid : request.id = s.added) :
    ListsSound cfg { s with added := s.added + 1, pending := s.pending ++ [request] } := by
  have hmem {r : WorkItem} : r ∈ s.pending ++ [request] ↔ r ∈ s.pending ∨ r = request := by
    rw [mem_append, mem_singleton]
  have hnum := h.number
  refine ⟨fun r hr => ?_, ?_, hnum.calls_lt, fun c hc r hr => ?_, h.once, hnum.answers, h.solved,
    hnum.solved_lt, fun r hr r' hr' => ?_⟩
  · rcases hmem.1 hr with hr | rfl
    · exact hnum.pending_lt r hr
    · exact hid ▸ Nat.lt_succ_self _
  · refine pairwise_append.2 ⟨h.sorted, pairwise_singleton _ _, fun r hr r' hr' => ?_⟩
    rw [mem_singleton.1 hr', hid]
    exact h.pending_lt r hr
  · rcases hmem.1 hr with hr | rfl
    · exact h.waiting c hc r hr
    · exact hid ▸ (h.calls_lt c hc).ne
  · rcases hmem.1 hr' with hr' | rfl
    · exact h.solved_first r hr r' hr'
    · exact hid ▸ h.solved_lt r hr

theorem answer (calls : List (WorkItem × Option (BitVec 64))) (hun : ∀ c ∈ calls, s.Unanswered c.1)
    (honce : (calls.map (·.1.id)).Nodup) (hanswers : ∀ c ∈ calls, s.Answer cfg c) :
    ListsSound cfg { s with calls := s.calls ++ calls } := by
  refine ⟨h.pending_lt, h.sorted, fun c hc => ?_, fun c hc r hr => ?_, ?_, fun c hc => ?_, h.solved,
    h.solved_lt, h.solved_first⟩
  · rcases mem_append.1 hc with hc | hc
    · exact h.calls_lt c hc
    · exact (hun c hc).1
  · rcases mem_append.1 hc with hc | hc
    · exact h.waiting c hc r hr
    · exact ((hun c hc).2.1 r hr).symm
  · rw [map_append]
    refine h.once.append honce fun id hid hid' => ?_
    obtain ⟨c, hc, rfl⟩ := mem_map.1 hid
    obtain ⟨c', hc', heq⟩ := mem_map.1 hid'
    exact (hun c' hc').2.2 c hc heq.symm
  · rcases mem_append.1 hc with hc | hc
    · exact h.answers c hc
    · exact hanswers c hc

end ListsSound

/-! ## Steps of a worker -/

theorem setPhase_phase {j : Nat} {phase : WorkerPhase} :
    (s.setPhase i phase).phase j = if j = i then phase else s.phase j :=
  update_apply s.phase i phase j

namespace Sound

variable {work : BitVec 64} {phase : WorkerPhase}

variable (h : s.Sound cfg)

include h

theorem setWorker (i : Nat) (hcall : ∀ current, phase ≠ .calling current)
    (hphase : s.WorkerSound cfg work phase) : ((s.setWork i work).setPhase i phase).Sound cfg where
  lists := h.lists.of_eq rfl rfl rfl rfl fun _ hroot => hroot
  worker j := by
    have hj : s.WorkerSound cfg (((s.setWork i work).setPhase i phase).work j)
        (((s.setWork i work).setPhase i phase).phase j) := by
      rw [setPhase_phase]
      split
      · next hji =>
        have hwork : ((s.setWork i work).setPhase i phase).work j = work := by
          rw [hji]
          exact update_self ..
        rw [hwork]
        exact hphase
      · next hji =>
        have hwork : ((s.setWork i work).setPhase i phase).work j = s.work j :=
          update_of_ne hji ..
        rw [hwork]
        exact h.worker j
    exact hj.mono (le_refl _) (fun _ _ hr => hr) fun _ hr _ => hr
  distinct j k current current' hj hk := by
    rw [setPhase_phase] at hj hk
    split at hj
    · exact absurd hj (hcall current)
    · split at hk
      · exact absurd hk (hcall current')
      · exact h.distinct j k current current' hj hk

theorem setPhase (i : Nat) (hcall : ∀ current, phase ≠ .calling current)
    (hphase : s.WorkerSound cfg (s.work i) phase) : (s.setPhase i phase).Sound cfg := by
  have hsame : s.setWork i (s.work i) = s := by
    unfold setWork
    rw [update_eq_self]
  have hset := h.setWorker i hcall hphase
  rwa [hsame] at hset

theorem take (hstep : s.take cfg i = some t) : t.Sound cfg := by
  unfold WorkPool.take at hstep
  split at hstep
  · next current pending _ hpnd =>
    have hcur : s.Current { current, ticket := s.ticket } :=
      ⟨le_refl _, fun _ => by rw [hpnd]; rfl⟩
    split at hstep
    · cases hstep
      apply h.setPhase
      · intro r
        split <;> nofun
      · split
        · exact ⟨hcur, rfl⟩
        · exact ⟨hcur, Nat.zero_le _⟩
    · cases hstep
  · cases hstep

theorem openclDone {result : Option (BitVec 64)} (hright : s.OpenclCorrect cfg (.opencl i result))
    (hstep : s.openclDone cfg i result = some t) : t.Sound cfg := by
  unfold WorkPool.openclDone at hstep
  have hwk := h.worker i
  split at hstep
  · next search work hphase =>
    cases hstep
    rw [hphase] at hwk
    exact h.setWorker i nofun ⟨hwk.1, le_refl _, hright search hphase⟩
  · next search hphase =>
    cases hstep
    rw [hphase] at hwk
    exact h.setPhase i nofun ⟨hwk.1, hwk.2 ▸ Nat.zero_le _⟩
  · cases hstep

theorem check (hstep : s.check i = some t) : t.Sound cfg := by
  unfold WorkPool.check at hstep
  have hwk := h.worker i
  split at hstep
  · next search hphase =>
    rw [hphase] at hwk
    split at hstep
    · split at hstep
      · cases hstep
        exact h.setPhase i nofun hwk
      · next hnot =>
        cases hstep
        refine h.setPhase i nofun ⟨hwk.1, hwk.2, fun heq => ?_⟩
        exact Nat.le_of_not_lt fun hlt => hnot ⟨heq, hlt⟩
    · cases hstep
  · cases hstep

theorem attempt (hstep : s.attempt cfg i work = some t) : t.Sound cfg := by
  unfold WorkPool.attempt at hstep
  have hwk := h.worker i
  split at hstep
  · next search hphase =>
    rw [hphase] at hwk
    split at hstep
    · cases hstep
      exact h.setWorker i nofun ⟨hwk.1, le_refl _⟩
    · cases hstep
  · cases hstep

theorem first {search : WorkSearch} (hphase : s.phase i = .found search)
    (htick : s.ticket = search.ticket) : s.pending.head? = some search.current := by
  have hwk := h.worker i
  rw [hphase] at hwk
  exact hwk.1.2 htick

theorem finish (htick : s.ticket.toNat < 2 ^ 31) (hstep : s.finish i = some t) : t.Sound cfg := by
  unfold WorkPool.finish at hstep
  split at hstep
  · next search hphase =>
    split at hstep
    · next heq =>
      have hfirst := h.first hphase heq
      split at hstep
      · cases hstep
      · next front pending hpnd =>
        rw [hpnd] at hfirst
        cases hfirst
        cases hstep
        have hwk := h.worker i
        rw [hphase] at hwk
        obtain ⟨-, hval, hfound⟩ := hwk
        have hmem : search.current ∈ s.pending := hpnd ▸ mem_cons_self
        have hrest (r : WorkItem) (hr : r ∈ pending) : r ∈ s.pending :=
          hpnd ▸ mem_cons_of_mem _ hr
        obtain ⟨hfront, -⟩ := pairwise_cons.1 (hpnd ▸ h.lists.sorted)
        -- a request whose callback is about to be called is not in the list
        have hother {k : Nat} {r : WorkItem} (hk : s.phase k = .calling r) :
            search.current.id ≠ r.id := by
          have hwk := h.worker k
          rw [hk] at hwk
          exact hwk.1.2.1 _ hmem
        refine ⟨(h.lists.solve hpnd).of_eq rfl rfl rfl rfl fun _ hroot => hroot, fun j => ?_,
          fun j k current current' hj hk hid => ?_⟩
        · rw [setPhase_phase]
          split
          · next hji =>
            subst hji
            exact ⟨⟨h.lists.pending_lt _ hmem, fun r hr => (hfront r hr).ne', fun c hc =>
              h.lists.waiting c hc _ hmem⟩, (hfound heq).trans hval⟩
          · exact (h.worker j).mono (le_succ htick) (fun heq => absurd heq (succ_ne htick))
              fun r hr _ => ⟨hr.1, fun r' hr' => hr.2.1 r' (hrest r' hr'), hr.2.2⟩
        · rw [setPhase_phase] at hj hk
          split at hj
          · next hji =>
            split at hk
            · next hki => exact hji.trans hki.symm
            · cases hj
              exact absurd hid (hother hk)
          · split at hk
            · cases hk
              exact absurd hid.symm (hother hj)
            · exact h.distinct j k current current' hj hk hid
    · cases hstep
      exact h.setPhase i nofun trivial
  · cases hstep

theorem call (hstep : s.call i = some t) : t.Sound cfg := by
  unfold WorkPool.call at hstep
  split at hstep
  · next current hphase =>
    have hwk := h.worker i
    rw [hphase] at hwk
    obtain ⟨hun, hval⟩ := hwk
    split at hstep
    · cases hstep
      have hlists := h.lists.answer [(current, some (s.work i))]
        (fun c hc => mem_singleton.1 hc ▸ hun) (nodup_singleton _)
        (fun c hc => mem_singleton.1 hc ▸ hval)
      refine ⟨hlists.of_eq rfl rfl rfl rfl fun _ hroot => hroot, fun j => ?_,
        fun j k r r' hj hk hid => ?_⟩
      · rw [setPhase_phase]
        split
        · trivial
        · next hji =>
          refine (h.worker j).mono (le_refl _) (fun _ _ hr => hr) fun r hr hj => ?_
          refine ⟨hr.1, hr.2.1, fun c hc hid => ?_⟩
          rcases mem_append.1 hc with hc | hc
          · exact hr.2.2 c hc hid
          · rw [mem_singleton.1 hc] at hid
            exact hji (h.distinct j i r current hj hphase hid.symm)
      · rw [setPhase_phase] at hj hk
        split at hj
        · cases hj
        · split at hk
          · cases hk
          · exact h.distinct j k r r' hj hk hid
    · cases hstep
  · cases hstep

/-! ## Steps of a caller -/

theorem of_lists (hlists : t.ListsSound cfg) (hphase : t.phase = s.phase) (hwork : t.work = s.work)
    (hle : s.ticket.toNat ≤ t.ticket.toNat)
    (hhead : t.ticket = s.ticket → ∀ r, s.pending.head? = some r → t.pending.head? = some r)
    (hun : ∀ r, s.Unanswered r → t.Unanswered r) : t.Sound cfg where
  lists := hlists
  worker j := by
    rw [hphase, hwork]
    exact (h.worker j).mono hle hhead fun r hr _ => hun r hr
  distinct := by
    rw [hphase]
    exact h.distinct

theorem stop (htick : s.ticket.toNat < 2 ^ 31) : s.stop.Sound cfg :=
  h.of_lists (h.lists.of_eq rfl rfl rfl rfl fun _ hroot => hroot) rfl rfl (le_succ htick)
    (fun heq => absurd heq (succ_ne htick)) fun _ hr => hr

theorem generate (item : Root) (difficulty : Nat) (callback : Bool) :
    (s.generate cfg item difficulty callback).Sound cfg := by
  unfold WorkPool.generate
  dsimp only
  split
  · refine h.of_lists (h.lists.add rfl) rfl rfl (le_refl _) (fun _ r hr => ?_) fun r hr =>
      ⟨Nat.lt_succ_of_lt hr.1, fun r' hr' => ?_, hr.2.2⟩
    · rw [head?_append, hr]
      rfl
    · rcases mem_append.1 hr' with hr' | hr'
      · exact hr.2.1 r' hr'
      · rw [mem_singleton.1 hr']
        exact hr.1.ne'
  · next hthreads =>
    split
    · have hun : WorkPool.Unanswered { s with added := s.added + 1 }
          ⟨s.added, item, difficulty, callback⟩ :=
        ⟨Nat.lt_succ_self _, fun r hr => (h.lists.pending_lt r hr).ne, fun c hc =>
          (h.lists.calls_lt c hc).ne⟩
      have hlists := h.lists.number.answer [(⟨s.added, item, difficulty, callback⟩, none)]
        (fun c hc => mem_singleton.1 hc ▸ hun) (nodup_singleton _)
        (fun c hc => mem_singleton.1 hc ▸ .inr (not_not.1 hthreads))
      refine h.of_lists hlists rfl rfl (le_refl _) (fun _ _ hr => hr) fun r hr =>
        ⟨Nat.lt_succ_of_lt hr.1, hr.2.1, fun c hc => ?_⟩
      rcases mem_append.1 hc with hc | hc
      · exact hr.2.2 c hc
      · rw [mem_singleton.1 hc]
        exact hr.1.ne'
    · exact h.of_lists h.lists.number rfl rfl (le_refl _) (fun _ _ hr => hr) fun r hr =>
        ⟨Nat.lt_succ_of_lt hr.1, hr.2⟩

theorem cancel (htick : s.ticket.toNat < 2 ^ 31) (root : Root) : (s.cancel root).Sound cfg := by
  have hlists : ListsSound cfg { s with cancelled := root :: s.cancelled } :=
    h.lists.of_eq rfl rfl rfl rfl fun _ hroot => mem_cons_of_mem _ hroot
  unfold WorkPool.cancel
  dsimp only
  split
  · exact h.of_lists hlists rfl rfl (le_refl _) (fun _ _ hr => hr) fun _ hr => hr
  · -- the callbacks that are called are those of requests of the list
    have hcalled {c : WorkItem × Option (BitVec 64)}
        (hc : c ∈ (s.pending.filter fun r => r.item == root && r.callback).map fun r => (r, none)) :
        c.1 ∈ s.pending ∧ c.1.item = root ∧ c.2 = none := by
      obtain ⟨r, hr, rfl⟩ := mem_map.1 hc
      obtain ⟨hr, hroot⟩ := mem_filter.1 hr
      exact ⟨hr, eq_of_beq (Bool.and_eq_true_iff.1 hroot).1, rfl⟩
    have hkept {r : WorkItem} (hr : r ∈ s.pending.filter fun r => !(r.item == root)) :
        r ∈ s.pending ∧ r.item ≠ root := by
      obtain ⟨hr, hroot⟩ := mem_filter.1 hr
      refine ⟨hr, fun heq => ?_⟩
      rw [heq, beq_self_eq_true] at hroot
      cases hroot
    have hanswered : ListsSound cfg { s with
        cancelled := root :: s.cancelled
        pending := s.pending.filter fun r => !(r.item == root)
        calls := s.calls ++ (s.pending.filter fun r => r.item == root && r.callback).map
          fun r => (r, none) } := by
      refine (hlists.drop filter_sublist).answer _ (fun c hc => ?_) ?_ fun c hc => ?_
      · obtain ⟨hmem, hroot, -⟩ := hcalled hc
        refine ⟨h.lists.pending_lt _ hmem, fun r hr hid => ?_, fun c' hc' => h.lists.waiting c' hc' _ hmem⟩
        obtain ⟨hr, hne⟩ := hkept hr
        exact hne (inj_on_of_nodup_map h.lists.nodup_id hr hmem hid ▸ hroot)
      · rw [map_map]
        exact h.lists.nodup_id.sublist (filter_sublist.map _)
      · obtain ⟨-, hroot, hnone⟩ := hcalled hc
        unfold Answer
        rw [hnone, hroot]
        exact .inl mem_cons_self
    refine h.of_lists (hanswered.of_eq rfl rfl rfl rfl fun _ hroot => hroot) rfl rfl ?_
      (fun heq r hr => ?_) fun r hr => ⟨hr.1, fun r' hr' => hr.2.1 r' (hkept hr').1, fun c hc => ?_⟩
    · dsimp only
      split
      · exact le_succ htick
      · exact le_refl _
    · -- the ticket is the same, so the first request is not for the root
      dsimp only at heq
      rw [hr, Option.any_some] at heq
      split at heq
      · exact absurd heq (succ_ne htick)
      · next hroot =>
        obtain ⟨rest, hpnd⟩ := head?_eq_some_iff.1 hr
        dsimp only
        rw [hpnd, filter_cons_of_pos (by simpa using hroot)]
        rfl
    · rcases mem_append.1 hc with hc | hc
      · exact hr.2.2 c hc
      · exact hr.2.1 _ (hcalled hc).1

theorem exec {action : Action} (hok : s.Assumed cfg action) (hstep : s.exec cfg action = some t) :
    t.Sound cfg := by
  cases action with
  | generate item difficulty callback =>
    cases hstep
    exact h.generate item difficulty callback
  | cancel root =>
    cases hstep
    exact h.cancel hok.1 root
  | stop =>
    cases hstep
    exact h.stop hok.1
  | take i => exact h.take hstep
  | opencl i result => exact h.openclDone hok.2 hstep
  | check i => exact h.check hstep
  | attempt i work => exact h.attempt hstep
  | finish i => exact h.finish hok.1 hstep
  | call i => exact h.call hstep

end Sound

theorem sound_new (work : Nat → BitVec 64) : Sound cfg { work } where
  lists := by constructor <;> simp
  worker _ := trivial
  distinct _ _ _ _ h := nomatch h

theorem Reached.sound (h : Reached cfg s) : s.Sound cfg := by
  obtain ⟨work, run⟩ := h
  exact run.invariant (I := fun s => s.Sound cfg) (sound_new work) fun _ _ _ hs hok hstep =>
    hs.exec hok hstep

/-! ## Callbacks -/

/-- Every callback is called at most once. With work it is called with enough of it for its own
request; otherwise `cancel` was called for its root, or there are no threads. A worker whose ticket is
current has copied the first request, and requests leave the list with work in the order in which they
were added. -/
theorem work_pool_callbacks (h : Reached cfg s) :
    (s.calls.map (·.1.id)).Nodup ∧
    (∀ c ∈ s.calls, ∀ work, c.2 = some work → c.1.difficulty ≤ cfg.value c.1.item work) ∧
    (∀ c ∈ s.calls, c.2 = none → c.1.item ∈ s.cancelled ∨ cfg.threads = 0) ∧
    (∀ i search, s.phase i = .found search → s.ticket = search.ticket →
      ∃ t, s.exec cfg (.finish i) = some t ∧ s.pending = search.current :: t.pending ∧
        t.phase i = .calling search.current) ∧ s.solved.Pairwise fun r r' => r.id < r'.id := by
  have hs := h.sound
  refine ⟨hs.lists.once, fun c hc work hwork => ?_, fun c hc hnone => ?_, fun i search hphase heq => ?_,
    hs.lists.solved⟩
  · have hanswer := hs.lists.answers c hc
    unfold Answer at hanswer
    rwa [hwork] at hanswer
  · have hanswer := hs.lists.answers c hc
    unfold Answer at hanswer
    rwa [hnone] at hanswer
  · obtain ⟨rest, hpnd⟩ := head?_eq_some_iff.1 (hs.first hphase heq)
    refine ⟨WorkPool.setPhase { s with
      ticket := s.ticket + 1
      pending := rest
      solved := s.solved ++ [search.current] } i (.calling search.current), ?_, hpnd,
      update_self ..⟩
    simp only [WorkPool.exec, WorkPool.finish, hphase, heq, hpnd, if_true]

namespace Sample

def pool : WorkPoolConfig := ⟨2, true, fun _ work => work.toNat⟩

/-- Two requests for a root and one for another. Thread 0 finds work for the first one, thread 1 comes
too late, the second one is cancelled, and thread 1 finds work for the third one. -/
def requests : List Action :=
  [.generate 1 5 true, .generate 1 7 true, .generate 2 6 true, .take 0, .take 1, .check 1,
    .opencl 0 (some 9), .finish 0, .attempt 1 3, .cancel 1, .attempt 1 8, .check 1, .finish 1, .call 0,
    .take 1, .check 1, .attempt 1 6, .check 1, .finish 1]

end Sample

/-- The callbacks of the first two requests have been called, and that of the third one is next. -/
theorem work_pool_callbacks_requests :
    ∃ s, Reached Sample.pool s ∧
      s.calls.map (fun c => (c.1.id, c.2)) = [(1, none), (0, some 9)] ∧
      (s.calls.map (·.1.id)).Nodup ∧ s.solved.map (·.id) = [0, 2] ∧
      s.solved.Pairwise fun r r' => r.id < r'.id := by
  have hrun : ((Sample.requests.foldlM (fun (s : WorkPool) action =>
      if s.Assumed Sample.pool action then exec Sample.pool s action else none)
      { work := fun _ => 0 }).map fun s =>
        (s.calls.map (fun c => (c.1.id, c.2)), s.solved.map (·.id))) =
      some ([(1, none), (0, some 9)], [0, 2]) := by decide +kernel
  obtain ⟨s, hs, hstate⟩ := Option.map_eq_some_iff.1 hrun
  obtain ⟨hcalls, hsolved⟩ := Prod.mk.inj hstate
  have hrch : Reached Sample.pool s := ⟨_, .of_foldlM hs⟩
  obtain ⟨honce, -, -, -, horder⟩ := work_pool_callbacks hrch
  exact ⟨s, hrch, hcalls, honce, hsolved, horder⟩

end WorkPool

end Futurehead
