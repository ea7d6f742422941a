import Mathlib.Data.Multiset.Range
import Mathlib.Algebra.Order.Group.Multiset
import Futurehead.Base.Run

/-!
# Message buffers (`message_buffer_manager`)

A fixed number of buffers goes around between two circular queues and the threads that fill and
service them. Each call holds the mutex; a call that has to wait does its work once the condition
holds, so a waiting call is one that has no step yet. The holders are recorded next to the queues.
-/

namespace Futurehead

open Multiset

/-- `boost::circular_buffer`: at its capacity, `push_back` overwrites the element at the front. -/
def circularPush {α : Type} (capacity : Nat) (queue : List α) (x : α) : List α :=
  if queue.length = capacity then queue.tail ++ [x] else queue ++ [x]

/-- A buffer is its index in `entries`. -/
structure MessageBufferManager where
  count : Nat
  free : List Nat
  full : List Nat
  stopped : Bool := false
  /-- The buffers that were returned by `allocate` or `dequeue` and not handed back. -/
  held : Multiset Nat := 0

namespace MessageBufferManager

def new (count : Nat) : MessageBufferManager where
  count := count
  free := (List.range count).foldl (circularPush count) []
  full := []

/-- `allocate`, from where it does not wait any more: the buffer, or null. -/
def allocate (s : MessageBufferManager) : Option (Option Nat × MessageBufferManager) :=
  if ¬ s.stopped ∧ s.free = [] ∧ s.full = [] then none
  else
    match s.free with
    | b :: free => some (some b, { s with free := free, held := b ::ₘ s.held })
    | [] =>
      match s.full with
      | b :: full => some (some b, { s with full := full, held := b ::ₘ s.held })
      | [] => some (none, s)

/-- `dequeue`, from where it does not wait any more. -/
def dequeue (s : MessageBufferManager) : Option (Option Nat × MessageBufferManager) :=
  if ¬ s.stopped ∧ s.full = [] then none
  else
    match s.full with
    | b :: full => some (some b, { s with full := full, held := b ::ₘ s.held })
    | [] => some (none, s)

/-- `enqueue` of a buffer by its holder. -/
def enqueue (s : MessageBufferManager) (b : Nat) : MessageBufferManager :=
  { s with full := circularPush s.count s.full b, held := s.held.erase b }

/-- `release` of a buffer by its holder. -/
def release (s : MessageBufferManager) (b : Nat) : MessageBufferManager :=
  { s with free := circularPush s.count s.free b, held := s.held.erase b }

/-- A call, with what `allocate` and `dequeue` return. -/
inductive Call where
  | allocate (result : Option Nat)
  | dequeue (result : Option Nat)
  | enqueue (b : Nat)
  | release (b : Nat)
  | stop

inductive Step (s : MessageBufferManager) : Call → MessageBufferManager → Prop
  | allocate {result : Option Nat} {t : MessageBufferManager} :
      s.allocate = some (result, t) → Step s (.allocate result) t
  | dequeue {result : Option Nat} {t : MessageBufferManager} :
      s.dequeue = some (result, t) → Step s (.dequeue result) t
  | enqueue (b : Nat) : Step s (.enqueue b) (s.enqueue b)
  | release (b : Nat) : Step s (.release b) (s.release b)
  | stop : Step s .stop { s with stopped := true }

/-- Only a holder hands a buffer back. -/
def Ok (s : MessageBufferManager) : Call → Prop
  | .enqueue b => b ∈ s.held
  | .release b => b ∈ s.held
  | _ => True

/-- Every buffer is in exactly one of the queues or with one holder. -/
def Partitioned (s : MessageBufferManager) : Prop :=
  (s.free : Multiset Nat) + s.full + s.held = Multiset.range s.count

/-- No call overwrites an element of a queue: what it pushes finds room. -/
def Call.Fits (s : MessageBufferManager) : Call → Prop
  | .enqueue b => s.full.length < s.count ∧ (s.enqueue b).full = s.full ++ [b]
  | .release b => s.free.length < s.count ∧ (s.release b).free = s.free ++ [b]
  | _ => True

variable {s s' : MessageBufferManager} {call : Call}

theorem circularPush_of_lt {α : Type} {capacity : Nat} {queue : List α} (h : queue.length < capacity)
    (x : α) : circularPush capacity queue x = queue ++ [x] := by
  rw [circularPush, if_neg (by omega)]

theorem free_new (count : Nat) : (new count).free = List.range count := by
  have hfill : ∀ n ≤ count, (List.range n).foldl (circularPush count) [] = List.range n := by
    intro n hn
    induction n with
    | zero => rfl
    | succ n ih =>
      rw [List.range_succ, List.foldl_append, ih (by omega), List.foldl_cons, List.foldl_nil,
        circularPush_of_lt (by rw [List.length_range]; omega)]
  exact hfill count (Nat.le_refl _)

theorem partitioned_new (count : Nat) : (new count).Partitioned := by
  unfold Partitioned
  rw [free_new]
  simp [new, Multiset.range]

theorem Partitioned.room (h : s.Partitioned) {b : Nat} (hb : b ∈ s.held) :
    s.free.length < s.count ∧ s.full.length < s.count := by
  have hcard := congrArg Multiset.card h
  have hpos := card_pos_iff_exists_mem.2 ⟨b, hb⟩
  simp only [card_add, coe_card, card_range] at hcard
  omega

theorem Partitioned.fits (h : s.Partitioned) (hok : Ok s call) : call.Fits s := by
  cases call with
  | enqueue b =>
    have hroom := (h.room hok).2
    exact ⟨hroom, circularPush_of_lt hroom b⟩
  | release b =>
    have hroom := (h.room hok).1
    exact ⟨hroom, circularPush_of_lt hroom b⟩
  | _ => trivial

theorem Partitioned.pop {free full : List Nat} {b : Nat} (h : s.Partitioned)
    (hpop : (s.free : Multiset Nat) + s.full = b ::ₘ ((free : Multiset Nat) + full)) :
    Partitioned { s with free := free, full := full, held := b ::ₘ s.held } := by
  unfold Partitioned at h ⊢
  rw [← h, hpop, cons_add, add_cons]

theorem Partitioned.allocate {result : Option Nat} (h : s.Partitioned)
    (hcall : s.allocate = some (result, s')) : s'.Partitioned := by
  unfold MessageBufferManager.allocate at hcall
  split at hcall
  · cases hcall
  · cases hfree : s.free with
    | cons b free =>
      simp only [hfree] at hcall
      cases hcall
      exact h.pop (by simp [hfree])
    | nil =>
      cases hfull : s.full with
      | cons b full =>
        simp only [hfree, hfull] at hcall
        cases hcall
        exact h.pop (by simp [hfree, hfull])
      | nil =>
        simp only [hfree, hfull] at hcall
        cases hcall
        exact h

theorem Partitioned.dequeue {result : Option Nat} (h : s.Partitioned)
    (hcall : s.dequeue = some (result, s')) : s'.Partitioned := by
  unfold MessageBufferManager.dequeue at hcall
  split at hcall
  · cases hcall
  · cases hfull : s.full with
    | cons b full =>
      simp only [hfull] at hcall
      cases hcall
      exact h.pop (by simp [hfull])
    | nil =>
      simp only [hfull] at hcall
      cases hcall
      exact h

theorem add_held {b : Nat} {held : Multiset Nat} (hb : b ∈ held) (x y : Multiset Nat) :
    x + (y + ([b] : List Nat)) + held.erase b = x + y + held := by
  conv_rhs => rw [← cons_erase hb]
  rw [coe_singleton, ← singleton_add, ← add_assoc, ← add_assoc]

theorem Partitioned.step (h : s.Partitioned) (hok : Ok s call) (hstep : Step s call s') :
    s'.Partitioned := by
  have hfits := h.fits hok
  cases hstep with
  | allocate hcall => exact h.allocate hcall
  | dequeue hcall => exact h.dequeue hcall
  | stop => exact h
  | enqueue b =>
    refine Eq.trans ?_ h
    rw [hfits.2, ← coe_add]
    exact add_held hok _ _
  | release b =>
    refine Eq.trans ?_ h
    have hadd := add_held hok (s.full : Multiset Nat) s.free
    rw [add_comm (s.full : Multiset Nat), add_comm (s.full : Multiset Nat)] at hadd
    rw [hfits.2, ← coe_add]
    exact hadd

theorem Step.count_eq (hstep : Step s call s') : s'.count = s.count := by
  cases hstep with
  | allocate hcall =>
    unfold MessageBufferManager.allocate at hcall
    split at hcall
    · cases hcall
    · split at hcall
      · cases hcall
        rfl
      · split at hcall <;> cases hcall <;> rfl
  | dequeue hcall =>
    unfold MessageBufferManager.dequeue at hcall
    split at hcall
    · cases hcall
    · split at hcall <;> cases hcall <;> rfl
  | _ => rfl

theorem stopped_of_null (hcall : s.allocate = some (none, s')) : s.stopped = true := by
  unfold MessageBufferManager.allocate at hcall
  split at hcall
  · cases hcall
  · rename_i hwait
    by_contra hstop
    split at hcall
    · cases hcall
    · split at hcall
      · cases hcall
      · rename_i hfree _ hfull
        exact hwait ⟨hstop, hfree, hfull⟩

/-- In every run in which buffers are handed back by their holders, each buffer is at one place, the
pushes find room, no buffer has two holders, and `allocate` returns null only after `stop`. -/
theorem buffers_partitioned (count : Nat)
    (h : Reaches (fun s call s' => Step s call s') Ok (new count) s) :
    s.count = count ∧ s.Partitioned ∧ s.held.Nodup ∧ (∀ call, Ok s call → call.Fits s) ∧
      ∀ s', s.allocate = some (none, s') → s.stopped = true := by
  have hpart : s.Partitioned := h.invariant (partitioned_new count) fun _ _ _ => Partitioned.step
  have hcnt : s.count = count :=
    h.invariant (I := fun s => s.count = count) rfl fun _ _ _ hs _ hstep => hstep.count_eq.trans hs
  refine ⟨hcnt, hpart, ?_, fun call => hpart.fits, fun s' => stopped_of_null⟩
  have hnd := nodup_range s.count
  rw [← hpart] at hnd
  exact (nodup_add.1 hnd).2.1

/-- Both buffers are filled. The first is serviced and still held when `allocate` takes the second from
the full queue. -/
theorem buffers_partitioned_round :
    ∃ s, Reaches (fun s call s' => Step s call s') Ok (new 2) s ∧ s.free = [] ∧ s.full = [] ∧
      s.held = {1, 0} ∧ s.held.Nodup := by
  have hrun : Reaches (fun s call s' => Step s call s') Ok (new 2) ⟨2, [], [], false, {1, 0}⟩ := by
    refine .tail (a := .allocate (some 1)) (t := ⟨2, [], [1], false, {0}⟩)
      (.tail (a := .dequeue (some 0)) (t := ⟨2, [], [0, 1], false, 0⟩)
        (.tail (a := .enqueue 1) (t := ⟨2, [], [0], false, {1}⟩)
          (.tail (a := .allocate (some 1)) (t := ⟨2, [1], [0], false, 0⟩)
            (.tail (a := .enqueue 0) (t := ⟨2, [1], [], false, {0}⟩)
              (.tail (a := .allocate (some 0)) .refl trivial (.allocate rfl))
              (mem_singleton_self 0) ?_) trivial (.allocate rfl))
          (mem_singleton_self 1) ?_) trivial (.dequeue rfl)) trivial (.allocate rfl)
    · exact .enqueue 0
    · exact .enqueue 1
  exact ⟨_, hrun, rfl, rfl, rfl, (buffers_partitioned 2 hrun).2.2.1⟩

end MessageBufferManager

end Futurehead
