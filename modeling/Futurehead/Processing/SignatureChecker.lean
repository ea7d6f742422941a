import Mathlib.Data.List.Range
import Mathlib.Data.List.Perm.Basic
import Mathlib.Tactic.Ring
import Futurehead.Base.Run

/-!
# The signature checker (`futurehead/node/signatures`)

`verify` posts full batches from the front of a set of signatures to a pool of threads and checks the
rest on the calling thread, which then waits for a promise. The task that ends last fulfils it.
-/

namespace Futurehead

open List Option

/-- `signature_checker`. The threads of its pool and the calling one run, so there are not too many to
be counted. -/
structure SignatureChecker where
  numThreads : Nat
  threads_lt : numThreads + 1 < 2 ^ 32

def SignatureChecker.batchSize : Nat := 256

/-- How a set of signatures is divided, after the assertion on the sizes. -/
structure CheckPlan where
  size : Nat
  numBatches : Nat
  sizeCallingThread : Nat
  /-- Whether `verify_async` is called. -/
  async : Bool
  size_eq : size = numBatches * SignatureChecker.batchSize + sizeCallingThread

namespace SignatureChecker

variable (checker : SignatureChecker) (size : Nat)

/-- The number of batches for the pool, and of signatures for the calling thread. -/
def split : Nat × Nat :=
  let overflowSize := size % batchSize
  let numFullBatches := size / batchSize
  let totalThreadsToSplitOver := (checker.numThreads + 1) % 2 ^ 32
  let numBaseBatchesEach := numFullBatches / totalThreadsToSplitOver
  let numFullOverflowBatches := numFullBatches % totalThreadsToSplitOver
  let sizeCallingThread := numBaseBatchesEach * batchSize + overflowSize
  let numFullBatchesThread := numBaseBatchesEach * checker.numThreads
  if 0 < numFullOverflowBatches then
    if overflowSize = 0 then
      -- Give the calling thread priority over any batches when there is no excess remainder.
      (numFullBatchesThread + (numFullOverflowBatches - 1), sizeCallingThread + batchSize)
    else (numFullBatchesThread + numFullOverflowBatches, sizeCallingThread)
  else (numFullBatchesThread, sizeCallingThread)

/-- The calling thread checks the set on its own. -/
def Alone : Prop := size ≤ batchSize ∨ checker.numThreads = 0

instance : Decidable (checker.Alone size) := inferInstanceAs (Decidable (_ ∨ _))

/-- The first half of `verify`. There is no result if the assertion on the sizes fails. -/
def verify : Option CheckPlan :=
  if checker.Alone size then some ⟨size, 0, size, false, by simp⟩
  else
    let (numBatches, sizeCallingThread) := checker.split size
    if h : size = numBatches * batchSize + sizeCallingThread then
      some ⟨size, numBatches, sizeCallingThread, true, h⟩
    else none

variable {checker size}

theorem split_spec (h : ¬ checker.Alone size) :
    0 < (checker.split size).1 ∧
      size = (checker.split size).1 * batchSize + (checker.split size).2 := by
  obtain ⟨hlg, hthreads⟩ := not_or.1 h
  have htotal : (checker.numThreads + 1) % 2 ^ 32 = checker.numThreads + 1 :=
    Nat.mod_eq_of_lt checker.threads_lt
  have hsize := Nat.div_add_mod size batchSize
  have hfull := Nat.div_add_mod (size / batchSize) (checker.numThreads + 1)
  unfold split
  simp only [htotal]
  unfold batchSize at *
  generalize size / 256 = full at *
  generalize full % (checker.numThreads + 1) = more at *
  generalize full / (checker.numThreads + 1) = each at *
  have hpos : 0 < each → 0 < each * checker.numThreads :=
    fun heach => Nat.mul_pos heach (Nat.pos_of_ne_zero hthreads)
  rw [Nat.add_mul, Nat.one_mul, Nat.mul_comm checker.numThreads] at hfull
  generalize each * checker.numThreads = pool at *
  split
  · split
    · constructor <;> dsimp only <;> omega
    · constructor <;> dsimp only <;> omega
  · constructor <;> dsimp only <;> omega

theorem exists_verify (checker : SignatureChecker) (size : Nat) :
    ∃ plan, checker.verify size = some plan ∧ plan.size = size ∧
      (plan.async = true ↔ ¬ checker.Alone size) ∧ (plan.async = true ↔ 0 < plan.numBatches) := by
  by_cases halone : checker.Alone size
  · exact ⟨_, if_pos halone, rfl, by simp [halone], by simp⟩
  · obtain ⟨hpos, hsize⟩ := split_spec halone
    refine ⟨⟨size, (checker.split size).1, (checker.split size).2, true, hsize⟩, ?_, rfl,
      by simp [halone], by simp [hpos]⟩
    unfold verify
    rw [if_neg halone]
    exact dif_pos hsize

end SignatureChecker

/-! ## The threads -/

/-- Where the calling thread is in the second half of `verify`. -/
inductive CallerPhase where
  | verifying
  | waiting
  | returned
  deriving DecidableEq

/-- A call of `verify` after all batches have been posted, on which the tasks have no influence. The
last two fields record what has happened. -/
structure Verification where
  caller : CallerPhase := .verifying
  /-- `task->pending`. -/
  pending : Nat
  /-- The first indices of the batches that no thread has checked yet. -/
  posted : List Nat
  /-- The number of tasks that have checked their batch but not counted down. -/
  checked : Nat := 0
  fulfilled : Nat := 0
  verified : List Nat := []

namespace Verification

open SignatureChecker (batchSize)

inductive Event where
  /-- The calling thread goes on. -/
  | call
  /-- A thread of the pool checks a posted batch, given by its place. -/
  | check (i : Nat)
  /-- A task counts down, and fulfils the promise if it is the last one. -/
  | countDown

variable (plan : CheckPlan) (v : Verification)

/-- `verify_async`, if it is called. -/
def start : Verification where
  pending := plan.numBatches
  posted := (List.range plan.numBatches).map (· * batchSize)

def verifyBatch (start size : Nat) : Verification :=
  { v with verified := v.verified ++ List.range' start size }

def exec : Event → Option Verification
  | .call =>
    match v.caller with
    | .verifying =>
      some { v.verifyBatch (plan.size - plan.sizeCallingThread) plan.sizeCallingThread with
        caller := .waiting }
    | .waiting =>
      if plan.async = false ∨ 0 < v.fulfilled then some { v with caller := .returned } else none
    | .returned => none
  | .check i => do
    let start ← v.posted[i]?
    some { v.verifyBatch start batchSize with
      posted := v.posted.eraseIdx i, checked := v.checked + 1 }
  | .countDown =>
    if 0 < v.checked then
      some { v with
        checked := v.checked - 1
        pending := v.pending - 1
        fulfilled := if v.pending - 1 = 0 then v.fulfilled + 1 else v.fulfilled }
    else none

def left : List Nat :=
  v.posted.flatMap (List.range' · batchSize) ++
    if v.caller = .verifying then
      List.range' (plan.size - plan.sizeCallingThread) plan.sizeCallingThread
    else []

/-- The number of steps that are left at most. -/
def work : Nat :=
  2 * v.posted.length + v.checked + match v.caller with
    | .verifying => 2
    | .waiting => 1
    | .returned => 0

structure Sound : Prop where
  perm : (v.verified ++ v.left plan).Perm (List.range plan.size)
  pending : v.pending = v.posted.length + v.checked
  fulfilled : v.fulfilled = if plan.async ∧ v.pending = 0 then 1 else 0
  alone : plan.async = false → v.pending = 0
  returned : v.caller = .returned → v.pending = 0

variable {plan v} {v' : Verification} {event : Event}

theorem range_plan : List.range (plan.numBatches * batchSize) ++
    List.range' (plan.size - plan.sizeCallingThread) plan.sizeCallingThread =
      List.range plan.size := by
  have hsize := plan.size_eq
  have hstart : plan.size - plan.sizeCallingThread = 0 + plan.numBatches * batchSize := by omega
  rw [hstart, range_eq_range', range'_append_1, ← hsize, range_eq_range']

theorem flatMap_batches (n : Nat) :
    ((List.range n).map (· * batchSize)).flatMap (List.range' · batchSize) =
      List.range (n * batchSize) := by
  induction n with
  | zero => simp
  | succ n ih =>
    have hlast : List.range' (n * batchSize) batchSize = List.range' (0 + n * batchSize) batchSize := by
      rw [Nat.zero_add]
    rw [range_succ, map_append, flatMap_append, ih, range_eq_range',
      map_singleton, flatMap_singleton, hlast, range'_append_1, ← Nat.succ_mul, range_eq_range']

theorem sound_start (hasync : plan.async = true ↔ 0 < plan.numBatches) :
    (start plan).Sound plan := by
  refine ⟨?_, by simp [start], ?_, fun halone => ?_, by simp [start]⟩
  · simp only [left, start, flatMap_batches, if_true, nil_append, range_plan]
    exact .refl _
  · rw [if_neg (by simp only [start, hasync]; omega)]
    rfl
  · simp only [halone, Bool.false_eq_true, false_iff] at hasync
    exact Nat.eq_zero_of_not_pos hasync

theorem Sound.exec (h : v.Sound plan) (hstep : v.exec plan event = some v') : v'.Sound plan := by
  obtain ⟨hperm, hpnd, hful, halone, hreturned⟩ := h
  cases event with
  | call =>
    unfold Verification.exec at hstep
    unfold left at hperm
    cases hcaller : v.caller with
    | verifying =>
      simp only [hcaller] at hstep hperm
      cases hstep
      refine ⟨?_, hpnd, hful, halone, by simp⟩
      refine List.Perm.trans ?_ hperm
      simp only [left, verifyBatch, append_assoc, reduceCtorEq, if_false, if_true, append_nil]
      exact perm_append_comm.append_left _
    | waiting =>
      simp only [hcaller] at hstep hperm
      split at hstep
      · rename_i hready
        cases hstep
        refine ⟨hperm, hpnd, hful, halone, fun _ => ?_⟩
        rcases hready with hasync | hset
        · exact halone hasync
        · by_contra hne
          simp [hful, hne] at hset
      · cases hstep
    | returned => simp [hcaller] at hstep
  | check i =>
    obtain ⟨start, hi, hstep⟩ := bind_eq_some_iff.1 hstep
    cases hstep
    obtain ⟨hlt, rfl⟩ := List.getElem?_eq_some_iff.1 hi
    have hlen := length_eraseIdx_of_lt hlt
    refine ⟨?_, ?_, hful, halone, hreturned⟩
    · refine List.Perm.trans ?_ hperm
      have hpost := (getElem_cons_eraseIdx_perm hlt).flatMap_right (List.range' · batchSize)
      rw [flatMap_cons] at hpost
      simp only [left, verifyBatch]
      rw [append_assoc, ← append_assoc (List.range' ..)]
      exact (hpost.append_right _).append_left _
    · simp only [verifyBatch]
      omega
  | countDown =>
    unfold Verification.exec at hstep
    dsimp only at hstep
    split at hstep <;> cases hstep
    have hne : v.pending ≠ 0 := by omega
    have hasync : plan.async = true := by
      by_contra hasync
      exact hne (halone (by simpa using hasync))
    refine ⟨hperm, by dsimp only; omega, ?_, fun h => absurd (halone h) hne,
      fun h => absurd (hreturned h) hne⟩
    simp [hful, hne, hasync]

theorem work_lt (hstep : v.exec plan event = some v') : v'.work < v.work := by
  cases event with
  | call =>
    unfold exec at hstep
    cases hcaller : v.caller <;> simp only [hcaller] at hstep
    · cases hstep
      simp [work, hcaller, verifyBatch]
    · split at hstep <;> cases hstep
      simp [work, hcaller]
    · cases hstep
  | check i =>
    obtain ⟨start, hi, hstep⟩ := bind_eq_some_iff.1 hstep
    cases hstep
    have hlen := length_eraseIdx_of_lt (List.getElem?_eq_some_iff.1 hi).1
    have hpos := (List.getElem?_eq_some_iff.1 hi).1
    simp only [work, verifyBatch, hlen]
    omega
  | countDown =>
    unfold exec at hstep
    dsimp only at hstep
    split at hstep <;> cases hstep
    simp only [work]
    omega

theorem Sound.progress (h : v.Sound plan) (hcaller : v.caller ≠ .returned) :
    ∃ event v', v.exec plan event = some v' := by
  by_cases hpost : v.posted = []
  · by_cases hchecked : 0 < v.checked
    · exact ⟨.countDown, _, if_pos hchecked⟩
    · -- all tasks have counted down
      have hzero : v.pending = 0 := by
        rw [h.pending, hpost, length_nil]
        omega
      have hready : plan.async = false ∨ 0 < v.fulfilled := by
        rw [h.fulfilled]
        cases plan.async <;> simp [hzero]
      refine ⟨.call, ?_⟩
      cases hph : v.caller with
      | verifying => exact ⟨_, by rw [Verification.exec, hph]⟩
      | waiting => exact ⟨_, by rw [Verification.exec, hph]; exact if_pos hready⟩
      | returned => exact absurd hph hcaller
  · obtain ⟨start, hstart⟩ := exists_mem_of_ne_nil _ hpost
    obtain ⟨i, hi⟩ := mem_iff_getElem?.1 hstart
    exact ⟨.check i, _, bind_eq_some_iff.2 ⟨start, hi, rfl⟩⟩

theorem Sound.complete (h : v.Sound plan) (hcaller : v.caller = .returned) :
    v.verified.Perm (List.range plan.size) ∧ v.fulfilled = if plan.async then 1 else 0 := by
  have hzero := h.returned hcaller
  have hpnd := h.pending
  have hpost : v.posted = [] := length_eq_zero_iff.1 (by omega)
  have hperm := h.perm
  simp only [left, hcaller, hpost, reduceCtorEq, if_false, flatMap_nil, append_nil] at hperm
  exact ⟨hperm, by simp [h.fulfilled, hzero]⟩

end Verification

open SignatureChecker Verification in
/-- For every number of signatures and of threads: the assertion on the sizes holds, the batches for the
pool and the part for the calling thread make up the set, and the calling thread waits for the pool
exactly if it has posted a batch. In whatever order the threads go on, no signature is checked twice and
the promise is fulfilled once at most; the call does not stop before the calling thread returns, and
then every signature was checked and the promise was fulfilled if something was posted. -/
theorem verify_checks_each_once (checker : SignatureChecker) (size : Nat) :
    ∃ plan, checker.verify size = some plan ∧
      List.range (plan.numBatches * batchSize) ++
        List.range' (size - plan.sizeCallingThread) plan.sizeCallingThread = List.range size ∧
      (plan.async = true ↔ ¬ checker.Alone size) ∧ (plan.async = true ↔ 0 < plan.numBatches) ∧
      ∀ v, Reaches (fun v event v' => v.exec plan event = some v') (fun _ _ => True) (start plan) v →
        v.verified.Nodup ∧ (∀ i ∈ v.verified, i < size) ∧ v.fulfilled ≤ 1 ∧
        (v.caller ≠ .returned → ∃ event v', v.exec plan event = some v') ∧
        (∀ event v', v.exec plan event = some v' → v'.work < v.work) ∧
        (v.caller = .returned → v.verified.Perm (List.range size) ∧
          v.fulfilled = if plan.async then 1 else 0) := by
  obtain ⟨plan, hver, rfl, halone, hasync⟩ := exists_verify checker size
  refine ⟨plan, hver, range_plan, halone, hasync, fun v hrun => ?_⟩
  have h := hrun.invariant (I := (Sound plan ·)) (sound_start hasync) fun _ _ _ h _ hstep =>
    h.exec hstep
  have hnd := h.perm.nodup_iff.2 nodup_range
  refine ⟨(nodup_append.1 hnd).1, fun i hi => ?_, ?_, h.progress, fun _ _ => work_lt, h.complete⟩
  · exact mem_range.1 (h.perm.subset (mem_append_left _ hi))
  · rw [h.fulfilled]
    split <;> omega

/-- Three threads and the calling one: a full batch each, and the rest for the calling thread. -/
example : ((⟨3, by decide⟩ : SignatureChecker).verify (4 * 256 + 5)).map
    (fun plan => (plan.numBatches, plan.sizeCallingThread, plan.async)) = some (3, 261, true) := by
  decide

end Futurehead
