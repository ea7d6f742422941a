import Mathlib.Data.List.Nodup
import Mathlib.Logic.Function.Basic
import Futurehead.Base.Run

/-!
# The queue of database writers (`futurehead/node/write_database_queue`)

A thread that wants to write to the database puts its kind at the end of a queue and waits until the
kind is at the front. It then has a guard, and the guard takes the front off the queue when it is
released or goes out of scope. Guards can be moved. Which thread a guard belongs to is recorded
nowhere: the queue compares kinds, and a guard only knows whether it owns the front.

Threads are named by the kind that they use. `contains`, which only reads, is left out.
-/

namespace Futurehead

inductive Writer where
  | confirmationHeight
  | processBatch
  | testing
  deriving DecidableEq

inductive WriterPhase where
  | idle
  /-- In `wait`, for a guard that will be called `guard`. -/
  | waiting (guard : Nat)
  /-- `process` has returned true, and `pop` comes next. -/
  | granted
  deriving DecidableEq

/-- `write_database_queue` with the guards of the threads. -/
structure WriteDatabaseQueue where
  queue : List Writer := []
  /-- `owns` of the guards of each thread. A guard that does not exist owns nothing. -/
  owns : Writer → Nat → Bool := fun _ _ => false
  phase : Writer → WriterPhase := fun _ => .idle

namespace WriteDatabaseQueue

variable (s : WriteDatabaseQueue)

def setOwns (writer : Writer) (guard : Nat) (owned : Bool) : WriteDatabaseQueue :=
  { s with owns := Function.update s.owns writer (Function.update (s.owns writer) guard owned) }

def setPhase (writer : Writer) (phase : WriterPhase) : WriteDatabaseQueue :=
  { s with phase := Function.update s.phase writer phase }

/-- The first lines of `wait` and `process`: the writer is added to the end of the queue if it is not
already waiting. -/
def enqueue (writer : Writer) : WriteDatabaseQueue :=
  if writer ∈ s.queue then s else { s with queue := s.queue ++ [writer] }

/-- The return from `wait` or `pop` with a new guard. -/
def newGuard (writer : Writer) (guard : Nat) : WriteDatabaseQueue :=
  (s.setOwns writer guard true).setPhase writer .idle

/-- `wait` up to the return or to the wait for the condition. -/
def wait (writer : Writer) (guard : Nat) : WriteDatabaseQueue :=
  let s := s.enqueue writer
  if s.queue.head? = some writer then s.newGuard writer guard
  else s.setPhase writer (.waiting guard)

def process (writer : Writer) : WriteDatabaseQueue :=
  let s := s.enqueue writer
  if s.queue.head? = some writer then s.setPhase writer .granted else s

/-- `guard_finish_callback`. A deque that is empty must not be popped. -/
def guardFinishCallback : Option WriteDatabaseQueue :=
  match s.queue with
  | [] => none
  | _ :: queue => some { s with queue }

def release (writer : Writer) (guard : Nat) : Option WriteDatabaseQueue :=
  if s.owns writer guard then s.guardFinishCallback.map (·.setOwns writer guard false) else some s

/-- `write_guard::~write_guard`. The guard is gone afterwards. -/
def destroy (writer : Writer) (guard : Nat) : Option WriteDatabaseQueue :=
  if s.owns writer guard then s.guardFinishCallback.map (·.setOwns writer guard false) else some s

/-- The move constructor and the move assignment: the target takes `owns` over, whatever it was. -/
def move (writer : Writer) (source target : Nat) : WriteDatabaseQueue :=
  (s.setOwns writer target (s.owns writer source)).setOwns writer source false

/-- What a thread can do. Each is one critical section, or touches the guards of the thread only. -/
inductive Call where
  | wait (writer : Writer) (guard : Nat)
  /-- A waiting thread finds its kind at the front. -/
  | wake (writer : Writer)
  | process (writer : Writer)
  | pop (writer : Writer) (guard : Nat)
  | move (writer : Writer) (source target : Nat)
  | release (writer : Writer) (guard : Nat)
  | destroy (writer : Writer) (guard : Nat)
  deriving DecidableEq

/-- The thread is at the call. A guard that is constructed did not exist before. -/
def Enabled : Call → Prop
  | .wait writer guard => s.phase writer = .idle ∧ s.owns writer guard = false
  | .wake writer =>
    (∃ guard, s.phase writer = .waiting guard) ∧ s.queue.head? = some writer
  | .pop writer guard => s.phase writer = .granted ∧ s.owns writer guard = false
  | .process writer | .move writer _ _ | .release writer _ | .destroy writer _ =>
    s.phase writer = .idle

instance decidableEnabled (call : Call) : Decidable (s.Enabled call) :=
  match call with
  | .wake writer =>
    match h : s.phase writer with
    | .waiting guard =>
      decidable_of_iff (s.queue.head? = some writer) ⟨fun hw => ⟨⟨guard, h⟩, hw⟩, fun hw => hw.2⟩
    | .idle => .isFalse fun hw => hw.1.elim fun _ hg => nomatch h.symm.trans hg
    | .granted => .isFalse fun hw => hw.1.elim fun _ hg => nomatch h.symm.trans hg
  | .wait _ _ => inferInstanceAs (Decidable (_ ∧ _))
  | .pop _ _ => inferInstanceAs (Decidable (_ ∧ _))
  | .process _ => inferInstanceAs (Decidable (_ = _))
  | .move _ _ _ => inferInstanceAs (Decidable (_ = _))
  | .release _ _ => inferInstanceAs (Decidable (_ = _))
  | .destroy _ _ => inferInstanceAs (Decidable (_ = _))

/-- Nothing is returned if an empty queue is popped. -/
def exec : Call → Option WriteDatabaseQueue
  | .wait writer guard => some (s.wait writer guard)
  | .wake writer =>
    match s.phase writer with
    | .waiting guard => some (s.newGuard writer guard)
    | _ => some s
  | .process writer => some (s.process writer)
  | .pop writer guard => some (s.newGuard writer guard)
  | .move writer source target => some (s.move writer source target)
  | .release writer guard => s.release writer guard
  | .destroy writer guard => s.destroy writer guard

/-- The thread has an owned guard. -/
def Holds (writer : Writer) : Prop := ∃ guard, s.owns writer guard = true

/-- The thread that asks for a guard has none. -/
def Asks : Call → Prop
  | .wait writer _ | .process writer => ¬ s.Holds writer
  | _ => True

/-- What is reached from the empty queue by calls that meet a condition. -/
def Reached (ok : WriteDatabaseQueue → Call → Prop) (s : WriteDatabaseQueue) : Prop :=
  Reaches (fun s call t => s.exec call = some t) (fun s call => s.Enabled call ∧ ok s call) {} s

/-- What ties the guards and the waiting threads to the queue. -/
structure Guarded : Prop where
  nodup : s.queue.Nodup
  single : ∀ {writer guard guard'}, s.owns writer guard = true → s.owns writer guard' = true →
    guard = guard'
  front : ∀ {writer guard}, s.owns writer guard = true → s.queue.head? = some writer
  granted : ∀ {writer}, s.phase writer = .granted → s.queue.head? = some writer ∧ ¬ s.Holds writer
  waiting : ∀ {writer guard}, s.phase writer = .waiting guard → writer ∈ s.queue ∧ ¬ s.Holds writer

variable {s} {writer : Writer} {guard : Nat}

/-! ## Updates -/

variable {w : Writer} {phase : WriterPhase}

@[simp] theorem setOwns_owns {g : Nat} {owned : Bool} : (s.setOwns writer guard owned).owns w g =
      if w = writer ∧ g = guard then owned else s.owns w g := by
  unfold setOwns
  by_cases hw : w = writer
  · subst hw
    by_cases hg : g = guard <;> simp [hg]
  · simp [hw]

@[simp] theorem setPhase_phase :
    (s.setPhase writer phase).phase w = if w = writer then phase else s.phase w := by
  unfold setPhase
  exact Function.update_apply s.phase writer phase w

@[simp] theorem setPhase_owns : (s.setPhase writer phase).owns = s.owns := rfl

@[simp] theorem enqueue_owns : (s.enqueue writer).owns = s.owns := by
  unfold enqueue
  split <;> rfl

@[simp] theorem enqueue_phase : (s.enqueue writer).phase = s.phase := by
  unfold enqueue
  split <;> rfl

theorem mem_enqueue : w ∈ (s.enqueue writer).queue ↔ w ∈ s.queue ∨ w = writer := by
  unfold enqueue
  split
  · next hmem =>
    constructor
    · exact .inl
    · rintro (h | rfl)
      · exact h
      · exact hmem
  · simp

theorem nodup_enqueue (h : s.queue.Nodup) : (s.enqueue writer).queue.Nodup := by
  unfold enqueue
  split
  · exact h
  · next hmem => exact List.nodup_append_comm.1 (List.nodup_cons.2 ⟨hmem, h⟩)

theorem head?_enqueue (h : s.queue.head? = some w) : (s.enqueue writer).queue.head? = some w := by
  unfold enqueue
  split
  · exact h
  · rw [List.head?_append, h]
    rfl

/-! ## The invariant is kept -/

namespace Guarded

section

variable (h : s.Guarded)

include h

theorem enqueue (writer : Writer) : (s.enqueue writer).Guarded where
  nodup := nodup_enqueue h.nodup
  single ha hb := by
    rw [enqueue_owns] at ha hb
    exact h.single ha hb
  front ha := by
    rw [enqueue_owns] at ha
    exact head?_enqueue (h.front ha)
  granted ha := by
    rw [enqueue_phase] at ha
    unfold Holds
    rw [enqueue_owns]
    exact ⟨head?_enqueue (h.granted ha).1, (h.granted ha).2⟩
  waiting ha := by
    rw [enqueue_phase] at ha
    unfold Holds
    rw [enqueue_owns]
    exact ⟨mem_enqueue.2 (.inl (h.waiting ha).1), (h.waiting ha).2⟩

theorem setPhase {phase : WriterPhase} (hnone : ¬ s.Holds writer)
    (hgranted : phase = .granted → s.queue.head? = some writer) (hmem : writer ∈ s.queue) :
    (s.setPhase writer phase).Guarded where
  nodup := h.nodup
  single := h.single
  front := h.front
  granted {w} ha := by
    rw [setPhase_phase] at ha
    split at ha
    · next hw =>
      subst hw
      exact ⟨hgranted ha, hnone⟩
    · exact h.granted ha
  waiting {w g} ha := by
    rw [setPhase_phase] at ha
    split at ha
    · next hw =>
      subst hw
      exact ⟨hmem, hnone⟩
    · exact h.waiting ha

theorem newGuard (hfro : s.queue.head? = some writer) (hnone : ¬ s.Holds writer) (guard : Nat) :
    (s.newGuard writer guard).Guarded where
  nodup := h.nodup
  single {w g g'} ha hb := by
    unfold WriteDatabaseQueue.newGuard at ha hb
    rw [setPhase_owns, setOwns_owns] at ha hb
    split at ha <;> split at hb
    · next hg hg' => exact hg.2.trans hg'.2.symm
    · next hg _ => exact absurd ⟨g', hg.1 ▸ hb⟩ hnone
    · next hg => exact absurd ⟨g, hg.1 ▸ ha⟩ hnone
    · exact h.single ha hb
  front {w g} ha := by
    unfold WriteDatabaseQueue.newGuard at ha ⊢
    rw [setPhase_owns, setOwns_owns] at ha
    split at ha
    · next hg => exact hg.1 ▸ hfro
    · exact h.front ha
  granted {w} ha := by
    unfold WriteDatabaseQueue.newGuard at ha ⊢
    rw [setPhase_phase] at ha
    split at ha
    · cases ha
    · next hw =>
      obtain ⟨hhead, -⟩ := h.granted ha
      exact absurd (Option.some.inj (hhead.symm.trans hfro)) hw
  waiting {w g} ha := by
    unfold WriteDatabaseQueue.newGuard at ha ⊢
    rw [setPhase_phase] at ha
    split at ha
    · cases ha
    · next hw =>
      obtain ⟨hmem, hno⟩ := h.waiting ha
      refine ⟨hmem, fun ⟨g', hg'⟩ => hno ⟨g', ?_⟩⟩
      rwa [setPhase_owns, setOwns_owns, if_neg (fun hand => hw hand.1)] at hg'

theorem wait (hnone : ¬ s.Holds writer) (guard : Nat) : (s.wait writer guard).Guarded := by
  have hnone' : ¬ (s.enqueue writer).Holds writer := by
    unfold Holds
    rw [enqueue_owns]
    exact hnone
  unfold WriteDatabaseQueue.wait
  dsimp only
  split
  · next hfro => exact (h.enqueue writer).newGuard hfro hnone' guard
  · exact (h.enqueue writer).setPhase hnone' (fun hph => nomatch hph) (mem_enqueue.2 (.inr rfl))

theorem process (hnone : ¬ s.Holds writer) : (s.process writer).Guarded := by
  have hnone' : ¬ (s.enqueue writer).Holds writer := by
    unfold Holds
    rw [enqueue_owns]
    exact hnone
  unfold WriteDatabaseQueue.process
  dsimp only
  split
  · next hfro =>
    exact (h.enqueue writer).setPhase hnone' (fun _ => hfro) (mem_enqueue.2 (.inr rfl))
  · exact h.enqueue writer

theorem move (source target : Nat) : (s.move writer source target).Guarded := by
  have howns {w : Writer} {g : Nat} (ha : (s.move writer source target).owns w g = true) :
      s.owns w g = true ∧ ¬ (w = writer ∧ (g = source ∨ g = target)) ∨
        w = writer ∧ g = target ∧ s.owns writer source = true := by
    unfold WriteDatabaseQueue.move at ha
    rw [setOwns_owns, setOwns_owns] at ha
    split at ha
    · cases ha
    · split at ha
      · next hg => exact .inr ⟨hg.1, hg.2, ha⟩
      · exact .inl ⟨ha, by tauto⟩
  have hholds {w : Writer} (ha : (s.move writer source target).Holds w) : s.Holds w := by
    obtain ⟨g, hg⟩ := ha
    rcases howns hg with ⟨hg, -⟩ | ⟨rfl, -, hg⟩
    · exact ⟨g, hg⟩
    · exact ⟨source, hg⟩
  refine ⟨h.nodup, fun {w g g'} ha hb => ?_, fun {w g} ha => ?_, fun {w} ha => ?_, fun {w g} ha => ?_⟩
  · rcases howns ha with ⟨hg, hno⟩ | ⟨rfl, rfl, hg⟩
    · rcases howns hb with ⟨hg', -⟩ | ⟨rfl, rfl, hg'⟩
      · exact h.single hg hg'
      · exact absurd ⟨rfl, .inl (h.single hg hg')⟩ hno
    · rcases howns hb with ⟨hg', hno⟩ | ⟨-, rfl, -⟩
      · exact absurd ⟨rfl, .inl (h.single hg' hg)⟩ hno
      · rfl
  · obtain ⟨g', hg'⟩ := hholds ⟨g, ha⟩
    exact h.front hg'
  · exact ⟨(h.granted ha).1, fun hw => (h.granted ha).2 (hholds hw)⟩
  · exact ⟨(h.waiting ha).1, fun hw => (h.waiting ha).2 (hholds hw)⟩

theorem finish (howns : s.owns writer guard = true) :
    ∃ t, s.guardFinishCallback.map (·.setOwns writer guard false) = some t ∧
      s.queue = writer :: t.queue ∧ t.Guarded := by
  obtain ⟨queue, hqueue⟩ : ∃ queue, s.queue = writer :: queue := List.head?_eq_some_iff.1 (h.front howns)
  have hfinish : s.guardFinishCallback = some { s with queue } := by
    unfold guardFinishCallback
    rw [hqueue]
  have hnd : queue.Nodup := (List.nodup_cons.1 (hqueue ▸ h.nodup)).2
  -- nobody else is at the front
  have hoth {w : Writer} (hw : s.queue.head? = some w) : w = writer :=
    Option.some.inj (hw.symm.trans (h.front howns))
  have hnone {w : Writer} {g : Nat} :
      (WriteDatabaseQueue.setOwns { s with queue } writer guard false).owns w g ≠ true := by
    intro ha
    rw [setOwns_owns] at ha
    split at ha
    · cases ha
    · next hne =>
      obtain rfl := hoth (h.front ha)
      exact hne ⟨rfl, h.single ha howns⟩
  rw [hfinish, Option.map_some]
  refine ⟨_, rfl, hqueue, hnd, fun ha => absurd ha hnone, fun ha => absurd ha hnone,
    fun {w} ha => ?_, fun {w g} ha => ⟨?_, fun hw => ?_⟩⟩
  · obtain ⟨hfro, hno⟩ := h.granted ha
    obtain rfl := hoth hfro
    exact absurd ⟨guard, howns⟩ hno
  · obtain ⟨hmem, hno⟩ := h.waiting ha
    rw [hqueue] at hmem
    rcases List.mem_cons.1 hmem with rfl | hmem
    · exact absurd ⟨guard, howns⟩ hno
    · exact hmem
  · obtain ⟨g', hg'⟩ := hw
    exact hnone hg'

theorem release : ∃ t, s.release writer guard = some t ∧ t.Guarded := by
  by_cases howns : s.owns writer guard = true
  · obtain ⟨t, hfinish, -, ht⟩ := h.finish howns
    exact ⟨t, (if_pos howns).trans hfinish, ht⟩
  · exact ⟨s, if_neg howns, h⟩

theorem exec {call : Call} (hen : s.Enabled call) (hasks : s.Asks call) :
    ∃ t, s.exec call = some t ∧ t.Guarded := by
  cases call with
  | wait writer guard => exact ⟨_, rfl, h.wait hasks guard⟩
  | wake writer =>
    obtain ⟨⟨guard, hph⟩, hfro⟩ := hen
    refine ⟨s.newGuard writer guard, ?_, h.newGuard hfro (h.waiting hph).2 guard⟩
    simp only [WriteDatabaseQueue.exec, hph]
  | process writer => exact ⟨_, rfl, h.process hasks⟩
  | pop writer guard =>
    obtain ⟨hfro, hnone⟩ := h.granted hen.1
    exact ⟨_, rfl, h.newGuard hfro hnone guard⟩
  | move writer source target => exact ⟨_, rfl, h.move source target⟩
  | release writer guard | destroy writer guard => exact h.release

end

end Guarded

theorem guarded_empty : Guarded {} where
  nodup := List.nodup_nil
  single ha := nomatch ha
  front ha := nomatch ha
  granted ha := nomatch ha
  waiting ha := nomatch ha

theorem Reached.guarded (h : Reached Asks s) : s.Guarded := by
  refine h.invariant (I := Guarded) guarded_empty fun s call t hs hok hstep => ?_
  obtain ⟨t', ht', hguarded⟩ := hs.exec hok.1 hok.2
  cases ht'.symm.trans hstep
  exact hguarded

/-- If no thread asks for a guard while it has an owned one, then one thread at most has an owned
guard, its kind is at the front, giving the guard back removes that entry only, an empty queue is
never popped, and no kind is in the queue twice. -/
theorem write_queue_exclusive (h : Reached Asks s) :
    (∀ w w' g g', s.owns w g = true → s.owns w' g' = true → w = w') ∧
    (∀ w g, s.owns w g = true → s.queue.head? = some w) ∧
    (∀ w g, s.owns w g = true →
      (∃ t, s.exec (.release w g) = some t ∧ s.queue = w :: t.queue) ∧
      ∃ t, s.exec (.destroy w g) = some t ∧ s.queue = w :: t.queue) ∧
    (∀ call, s.Enabled call → s.Asks call → (s.exec call).isSome) ∧ s.queue.Nodup := by
  have hs := h.guarded
  refine ⟨fun w w' g g' ha hb => ?_, fun w g ha => hs.front ha, fun w g ha => ?_,
    fun call hen hasks => ?_, hs.nodup⟩
  · exact Option.some.inj ((hs.front ha).symm.trans (hs.front hb))
  · obtain ⟨t, hfinish, hqueue, -⟩ := hs.finish ha
    exact ⟨⟨t, (if_pos ha).trans hfinish, hqueue⟩, ⟨t, (if_pos ha).trans hfinish, hqueue⟩⟩
  · obtain ⟨t, hexec, -⟩ := hs.exec hen hasks
    exact Option.isSome_of_eq_some hexec

/-- The block processor has the guard while the confirmation height processor waits. -/
theorem write_queue_exclusive_waiting :
    ∃ s, Reached Asks s ∧ s.queue = [.processBatch, .confirmationHeight] ∧
      s.owns .processBatch 0 = true ∧ s.phase .confirmationHeight = .waiting 0 ∧
      ∃ t, s.exec (.release .processBatch 0) = some t ∧ t.queue = [.confirmationHeight] := by
  have hfst : Reached Asks (wait {} .processBatch 0) :=
    .tail (a := .wait .processBatch 0) .refl ⟨by decide, fun ⟨_, hg⟩ => nomatch hg⟩ rfl
  have hnone : ¬ (wait {} .processBatch 0).Holds .confirmationHeight := fun ⟨_, hg⟩ => nomatch hg
  have hsec : Reached Asks ((wait {} .processBatch 0).wait .confirmationHeight 0) :=
    .tail (a := .wait .confirmationHeight 0) hfst ⟨by decide, hnone⟩ rfl
  obtain ⟨-, -, hrelease, -⟩ := write_queue_exclusive hsec
  obtain ⟨⟨t, hexec, hqueue⟩, -⟩ := hrelease .processBatch 0 (by decide)
  exact ⟨_, hsec, by decide, by decide, by decide, t, hexec, (List.cons.inj hqueue).2.symm⟩

/-- The block processor asks twice and gets two guards. When it releases one of them the confirmation
height processor gets a guard too, and both write. -/
theorem write_queue_asked_twice :
    ∃ s, Reached (fun _ _ => True) s ∧ s.queue = [.confirmationHeight] ∧
      s.owns .processBatch 1 = true ∧ s.owns .confirmationHeight 0 = true := by
  let calls : List Call := [.wait .processBatch 0, .wait .processBatch 1, .wait .confirmationHeight 0,
    .release .processBatch 0, .wake .confirmationHeight]
  have hrun : ((calls.foldlM (fun s call => if s.Enabled call ∧ True then exec s call else none)
      {}).map fun s => (s.queue, s.owns .processBatch 1, s.owns .confirmationHeight 0)) =
        some ([.confirmationHeight], true, true) := by decide
  obtain ⟨s, hs, hsta⟩ := Option.map_eq_some_iff.1 hrun
  obtain ⟨hqueue, howns⟩ := Prod.mk.inj hsta
  obtain ⟨hfst, hsec⟩ := Prod.mk.inj howns
  exact ⟨s, .of_foldlM hs, hqueue, hfst, hsec⟩

end WriteDatabaseQueue

end Futurehead
