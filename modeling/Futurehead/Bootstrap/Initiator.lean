import Mathlib.Data.List.Nodup
import Mathlib.Logic.Function.Basic

/-!
# Bootstrap attempts (`bootstrap_initiator`)

The initiator keeps a list of attempts and a map of them by number, both guarded by one mutex. A call
takes the mutex several times, and other threads come in between. `bootstrap` and `bootstrap_lazy`
look for an attempt of their mode in the section that inserts one. `bootstrap` with an endpoint
and `bootstrap_wallet` do not: the first relies on having stopped all attempts before, the second on
having found none.
-/

namespace Futurehead

open List

inductive BootstrapMode where
  | legacy
  | lazy
  | walletLazy
  deriving DecidableEq

structure BootstrapAttempt where
  incrementalId : Nat
  mode : BootstrapMode
  started : Bool := false
  deriving DecidableEq

/-- What a caller does when it takes the mutex again. -/
inductive Continuation where
  /-- `stop_attempts`, then `insertNew`. -/
  | stopFirst (mode : BootstrapMode)
  /-- Insert an attempt if there is none of the mode. -/
  | insertNew (mode : BootstrapMode)
  | insert (mode : BootstrapMode)
  deriving DecidableEq

structure BootstrapInitiator where
  attemptsList : List BootstrapAttempt := []
  /-- `attempts`, without the state of an attempt, which it shares with the list. -/
  attempts : Nat → Option BootstrapMode := fun _ => none
  incremental : Nat := 0
  stopped : Bool := false
  /-- The calls that are between two sections. -/
  callers : List Continuation := []
  /-- Ghost: the attempts that were run, the last one first. -/
  runs : List Nat := []

namespace BootstrapInitiator

variable (s : BootstrapInitiator)

def findAttempt (mode : BootstrapMode) : Option BootstrapAttempt :=
  s.attemptsList.find? (·.mode = mode)

/-- A new attempt in the list and in the map. -/
def add (mode : BootstrapMode) : BootstrapInitiator :=
  { s with
    attemptsList := s.attemptsList ++ [⟨s.incremental, mode, false⟩]
    attempts := Function.update s.attempts s.incremental (some mode)
    incremental := s.incremental + 1 }

/-- The section of `stop_attempts`. -/
def stopAttempts : BootstrapInitiator := { s with attemptsList := [], attempts := fun _ => none }

def removeAttempt (id : Nat) : BootstrapInitiator :=
  if s.attemptsList.any (·.incrementalId = id) then
    { s with
      attemptsList := s.attemptsList.eraseP (·.incrementalId = id)
      attempts := Function.update s.attempts id none }
  else s

/-- `new_attempt`: the first attempt that has not been started, which is started. -/
def startFirst : List BootstrapAttempt → Option (Nat × List BootstrapAttempt)
  | [] => none
  | a :: attempts =>
    if a.started then (startFirst attempts).map fun x => (x.1, a :: x.2)
    else some (a.incrementalId, { a with started := true } :: attempts)

/-- A section of an initiator thread, which then runs the attempt. -/
def newAttempt : BootstrapInitiator :=
  if s.stopped then s
  else
    match startFirst s.attemptsList with
    | none => s
    | some x => { s with attemptsList := x.2, runs := x.1 :: s.runs }

def goOn : Continuation → BootstrapInitiator
  | .stopFirst mode =>
    { s.stopAttempts with callers := .insertNew mode :: s.callers }
  | .insertNew mode => if ¬ s.stopped ∧ s.findAttempt mode = none then s.add mode else s
  | .insert mode => s.add mode

/-- The section that a thread executes. -/
inductive Section where
  /-- `bootstrap (force)` up to its last section. -/
  | bootstrap (force : Bool)
  /-- `bootstrap (endpoint)` up to its last section. -/
  | bootstrapEndpoint
  /-- `bootstrap_lazy`: `current_lazy_attempt`. -/
  | bootstrapLazy (force : Bool)
  /-- `bootstrap_wallet`: `current_wallet_attempt`. -/
  | bootstrapWallet
  /-- The call number `i` goes on. -/
  | resume (i : Nat)
  | newAttempt
  | removeAttempt (id : Nat)
  | stop

def exec : Section → BootstrapInitiator
  | .bootstrap force =>
    let s := if force then s.stopAttempts else s
    { s with callers := .insertNew .legacy :: s.callers }
  | .bootstrapEndpoint =>
    if s.stopped then s
    else { s.stopAttempts with callers := .insert .legacy :: s.callers }
  | .bootstrapLazy force =>
    if s.findAttempt .lazy = none ∨ force then
      { s with callers := (if force then .stopFirst .lazy else .insertNew .lazy) :: s.callers }
    else s
  | .bootstrapWallet =>
    if s.findAttempt .walletLazy = none then { s with callers := .insert .walletLazy :: s.callers }
    else s
  | .resume i =>
    match s.callers[i]? with
    | none => s
    | some c => { s with callers := s.callers.eraseIdx i }.goOn c
  | .newAttempt => s.newAttempt
  | .removeAttempt id => s.removeAttempt id
  | .stop => { s.stopAttempts with stopped := true }

/-! ## The map and the runs -/

/-- The map holds the attempts of the list, and no attempt was run twice. -/
structure Exact : Prop where
  ids : (s.attemptsList.map (·.incrementalId)).Nodup
  fresh : ∀ a ∈ s.attemptsList, a.incrementalId < s.incremental
  map : ∀ id mode, s.attempts id = some mode ↔
    ∃ a ∈ s.attemptsList, a.incrementalId = id ∧ a.mode = mode
  runs : s.runs.Nodup
  past : ∀ id ∈ s.runs, id < s.incremental
  started : ∀ a ∈ s.attemptsList, a.incrementalId ∈ s.runs → a.started

variable {s} {attempts : List BootstrapAttempt} {x : Nat × List BootstrapAttempt}

theorem Exact.stopAttempts (h : s.Exact) : s.stopAttempts.Exact where
  ids := nodup_nil
  fresh := fun _ ha => absurd ha not_mem_nil
  map := by simp [BootstrapInitiator.stopAttempts]
  runs := h.runs
  past := h.past
  started := fun _ ha => absurd ha not_mem_nil

theorem Exact.add (h : s.Exact) (mode : BootstrapMode) : (s.add mode).Exact where
  ids := by
    simp only [BootstrapInitiator.add, map_append, map_cons, map_nil]
    refine h.ids.append (nodup_singleton _) fun id hid hlast => ?_
    obtain ⟨a, ha, rfl⟩ := mem_map.1 hid
    exact absurd (mem_singleton.1 hlast) (Nat.ne_of_lt (h.fresh a ha))
  fresh := fun a ha => by
    rcases mem_append.1 ha with ha | ha
    · exact Nat.lt_succ_of_lt (h.fresh a ha)
    · rw [mem_singleton.1 ha]
      exact Nat.lt_succ_self _
  map := fun id m => by
    simp only [BootstrapInitiator.add, Function.update_apply, mem_append, mem_singleton]
    by_cases hid : id = s.incremental
    · subst hid
      simp only [if_true, Option.some.injEq]
      constructor
      · rintro rfl
        exact ⟨_, .inr rfl, rfl, rfl⟩
      · rintro ⟨a, ha | rfl, hid, hm⟩
        · exact absurd hid (Nat.ne_of_lt (h.fresh a ha))
        · exact hm
    · rw [if_neg hid, h.map]
      constructor
      · rintro ⟨a, ha, hrest⟩
        exact ⟨a, .inl ha, hrest⟩
      · rintro ⟨a, ha | rfl, rfl, hm⟩
        · exact ⟨a, ha, rfl, hm⟩
        · exact absurd rfl hid
  runs := h.runs
  past := fun id hid => Nat.lt_succ_of_lt (h.past id hid)
  started := fun a ha hrun => by
    rcases mem_append.1 ha with ha | ha
    · exact h.started a ha hrun
    · rw [mem_singleton.1 ha] at hrun
      exact absurd (h.past _ hrun) (Nat.lt_irrefl _)

theorem mem_eraseP_iff (h : (attempts.map (·.incrementalId)).Nodup) {id : Nat}
    {a : BootstrapAttempt} :
    a ∈ attempts.eraseP (·.incrementalId = id) ↔ a ∈ attempts ∧ a.incrementalId ≠ id := by
  induction attempts with
  | nil => simp
  | cons b attempts ih =>
    obtain ⟨hb, hrest⟩ := nodup_cons.1 h
    rw [eraseP_cons, mem_cons]
    by_cases hid : b.incrementalId = id
    · subst hid
      simp only [decide_true, cond_true]
      constructor
      · intro ha
        exact ⟨.inr ha, fun heq => hb (mem_map.2 ⟨a, ha, heq⟩)⟩
      · rintro ⟨rfl | ha, hne⟩
        · exact absurd rfl hne
        · exact ha
    · simp only [hid, decide_false, cond_false, mem_cons, ih hrest]
      constructor
      · rintro (rfl | ⟨ha, hne⟩)
        · exact ⟨.inl rfl, hid⟩
        · exact ⟨.inr ha, hne⟩
      · rintro ⟨rfl | ha, hne⟩
        · exact .inl rfl
        · exact .inr ⟨ha, hne⟩

theorem Exact.removeAttempt (h : s.Exact) (id : Nat) : (s.removeAttempt id).Exact := by
  unfold BootstrapInitiator.removeAttempt
  split
  · have hsub : (s.attemptsList.eraseP (·.incrementalId = id)).Sublist s.attemptsList :=
      eraseP_sublist
    refine ⟨h.ids.sublist (hsub.map _), fun a ha => h.fresh a (hsub.subset ha), fun id' mode => ?_,
      h.runs, h.past, fun a ha => h.started a (hsub.subset ha)⟩
    simp only [Function.update_apply, mem_eraseP_iff h.ids]
    split
    · rename_i heq
      subst heq
      simp only [reduceCtorEq, false_iff]
      rintro ⟨a, ⟨-, hne⟩, heq, -⟩
      exact hne heq
    · rename_i hne
      rw [h.map]
      constructor
      · rintro ⟨a, ha, rfl, hm⟩
        exact ⟨a, ⟨ha, hne⟩, rfl, hm⟩
      · rintro ⟨a, ⟨ha, -⟩, hrest⟩
        exact ⟨a, ha, hrest⟩
  · exact h

theorem startFirst_split (h : startFirst attempts = some x) : ∃ before a rest,
    attempts = before ++ a :: rest ∧ a.started = false ∧
      x = (a.incrementalId, before ++ { a with started := true } :: rest) := by
  induction attempts generalizing x with
  | nil => cases h
  | cons b attempts ih =>
    rw [startFirst] at h
    split at h
    · obtain ⟨y, hy, rfl⟩ := Option.map_eq_some_iff.1 h
      obtain ⟨before, a, rest, rfl, ha, rfl⟩ := ih hy
      exact ⟨b :: before, a, rest, rfl, ha, rfl⟩
    · rename_i hb
      obtain rfl := Option.some.inj h
      exact ⟨[], b, attempts, rfl, by simpa using hb, rfl⟩

theorem Exact.newAttempt (h : s.Exact) : s.newAttempt.Exact := by
  unfold BootstrapInitiator.newAttempt
  split
  · exact h
  · split
    · exact h
    · rename_i x hx
      obtain ⟨before, a, rest, hlist, ha, rfl⟩ := startFirst_split hx
      obtain ⟨hids, hfresh, hmap, hruns, hpast, hstd⟩ := h
      rw [hlist] at hids hfresh hmap hstd
      have hnew : a.incrementalId ∉ s.runs := fun hrun => by
        rw [hstd a (by simp) hrun] at ha
        cases ha
      refine ⟨by simpa using hids, fun b hb => ?_, fun id mode => ?_,
        nodup_cons.2 ⟨hnew, hruns⟩, fun id hid => ?_, fun b hb hrun => ?_⟩
      · simp only [mem_append, mem_cons] at hb hfresh
        rcases hb with hb | rfl | hb
        · exact hfresh b (.inl hb)
        · exact hfresh a (.inr (.inl rfl))
        · exact hfresh b (.inr (.inr hb))
      · rw [hmap]
        simp [or_and_right, exists_or]
      · rcases mem_cons.1 hid with rfl | hid
        · exact hfresh a (by simp)
        · exact hpast id hid
      · -- another attempt has another number
        rw [map_append, map_cons, nodup_middle, nodup_cons] at hids
        have hoth : ∀ b, b ∈ before ∨ b ∈ rest → b.incrementalId ∈ a.incrementalId :: s.runs →
            b.started := fun b hb hrun => by
          rcases mem_cons.1 hrun with heq | hrun
          · refine absurd ?_ hids.1
            rw [← heq, ← map_append]
            exact mem_map_of_mem (mem_append.2 hb)
          · exact hstd b (by simp only [mem_append, mem_cons]; tauto) hrun
        simp only [mem_append, mem_cons] at hb
        rcases hb with hb | rfl | hb
        · exact hoth b (.inl hb) hrun
        · rfl
        · exact hoth b (.inr hb) hrun

theorem Exact.withCallers (h : s.Exact) (callers : List Continuation) (stopped : Bool) :
    { s with callers, stopped }.Exact :=
  ⟨h.ids, h.fresh, h.map, h.runs, h.past, h.started⟩

theorem Exact.goOn (h : s.Exact) (c : Continuation) : (s.goOn c).Exact := by
  cases c with
  | stopFirst mode => exact h.stopAttempts.withCallers _ _
  | insertNew mode =>
    rw [BootstrapInitiator.goOn]
    split
    · exact h.add mode
    · exact h
  | insert mode => exact h.add mode

theorem Exact.exec (h : s.Exact) (e : Section) : (s.exec e).Exact := by
  cases e with
  | bootstrap force =>
    cases force with
    | false => exact h.withCallers _ _
    | true => exact h.stopAttempts.withCallers _ _
  | bootstrapEndpoint =>
    rw [BootstrapInitiator.exec]
    split
    · exact h
    · exact h.stopAttempts.withCallers _ _
  | bootstrapLazy force | bootstrapWallet =>
    rw [BootstrapInitiator.exec]
    split
    · exact h.withCallers _ _
    · exact h
  | resume i =>
    rw [BootstrapInitiator.exec]
    split
    · exact h
    · exact (h.withCallers _ _).goOn _
  | newAttempt => exact h.newAttempt
  | removeAttempt id => exact h.removeAttempt id
  | stop => exact h.stopAttempts.withCallers _ _

/-! ## One attempt of each mode -/

variable (s)

def OnePerMode : Prop := (s.attemptsList.map (·.mode)).Nodup

/-- A caller that does not look inserts an attempt of a mode that there is one of. -/
def Clash : Section → Prop
  | .resume i => ∃ mode, s.callers[i]? = some (.insert mode) ∧ s.findAttempt mode ≠ none
  | _ => False

variable {s}

theorem findAttempt_eq_none {mode : BootstrapMode} :
    s.findAttempt mode = none ↔ mode ∉ s.attemptsList.map (·.mode) := by
  simp [findAttempt]

theorem onePerMode_add {mode : BootstrapMode} (h : s.OnePerMode) :
    (s.add mode).OnePerMode ↔ s.findAttempt mode = none := by
  rw [findAttempt_eq_none, OnePerMode, BootstrapInitiator.add, map_append, map_cons,
    map_nil, ← concat_eq_append, nodup_concat]
  exact and_iff_left h

theorem onePerMode_newAttempt (h : s.OnePerMode) : s.newAttempt.OnePerMode := by
  unfold BootstrapInitiator.newAttempt
  split
  · exact h
  · split
    · exact h
    · rename_i x hx
      obtain ⟨before, a, rest, hlist, -, rfl⟩ := startFirst_split hx
      rw [OnePerMode, hlist] at h
      rw [OnePerMode]
      simpa using h

theorem onePerMode_removeAttempt (h : s.OnePerMode) (id : Nat) : (s.removeAttempt id).OnePerMode := by
  unfold BootstrapInitiator.removeAttempt
  split
  · exact List.Nodup.sublist (eraseP_sublist.map _) h
  · exact h

theorem onePerMode_goOn (h : s.OnePerMode) (c : Continuation) :
    (s.goOn c).OnePerMode ↔ ∀ mode, c = .insert mode → s.findAttempt mode = none := by
  cases c with
  | stopFirst mode => exact iff_of_true nodup_nil fun _ h => by cases h
  | insertNew mode =>
    refine iff_of_true ?_ fun _ h => by cases h
    rw [BootstrapInitiator.goOn]
    split
    · rename_i hnone
      exact (onePerMode_add h).2 hnone.2
    · exact h
  | insert mode =>
    rw [BootstrapInitiator.goOn, onePerMode_add h]
    simp

theorem onePerMode_exec (h : s.OnePerMode) (e : Section) : (s.exec e).OnePerMode ↔ ¬ s.Clash e := by
  cases e with
  | bootstrap force =>
    refine iff_of_true ?_ id
    cases force with
    | false => exact h
    | true => exact nodup_nil
  | bootstrapEndpoint =>
    refine iff_of_true ?_ id
    rw [BootstrapInitiator.exec]
    split
    · exact h
    · exact nodup_nil
  | bootstrapLazy force | bootstrapWallet =>
    refine iff_of_true ?_ id
    rw [BootstrapInitiator.exec]
    split <;> exact h
  | resume i =>
    rw [BootstrapInitiator.exec, Clash]
    split
    · rename_i hnone
      refine iff_of_true h ?_
      rintro ⟨mode, hsome, -⟩
      rw [hnone] at hsome
      cases hsome
    · rename_i c hc
      rw [onePerMode_goOn (s := { s with callers := s.callers.eraseIdx i }) h, hc, not_exists]
      refine forall_congr' fun mode => ?_
      rw [Option.some.injEq, not_and, not_not]
      exact Iff.rfl
  | newAttempt => exact iff_of_true (onePerMode_newAttempt h) id
  | removeAttempt id => exact iff_of_true (onePerMode_removeAttempt h id) fun hf => hf
  | stop => exact iff_of_true nodup_nil id

/-- In every interleaving the map is exact and no attempt is run twice; and there is one attempt of
each mode at most at every moment exactly if no caller that does not look inserts a second one. -/
theorem attempts_exact_iff (sections : List Section) :
    (sections.foldl exec {}).Exact ∧
      ((∀ n, ((sections.take n).foldl exec {}).OnePerMode) ↔
        ∀ n e, sections[n]? = some e → ¬ ((sections.take n).foldl exec {}).Clash e) := by
  have hnext : ∀ {n e}, sections[n]? = some e → (sections.take (n + 1)).foldl exec {} =
      ((sections.take n).foldl exec {}).exec e := fun he => by
    rw [take_add_one, he, Option.toList_some, foldl_append, foldl_cons, foldl_nil]
  refine ⟨?_, fun hone n e he => ?_, fun hclash n => ?_⟩
  · have hstart : ({} : BootstrapInitiator).Exact :=
      ⟨nodup_nil, by simp, by simp, nodup_nil, by simp, by simp⟩
    exact List.foldlRecOn sections exec hstart fun s hs e _ => hs.exec e
  · have haft := hone (n + 1)
    rw [hnext he] at haft
    exact (onePerMode_exec (hone n) e).1 haft
  · induction n with
    | zero => exact nodup_nil
    | succ n ih =>
      cases he : sections[n]? with
      | none =>
        rw [take_add_one, he, Option.toList_none, append_nil]
        exact ih
      | some e =>
        rw [hnext he]
        exact (onePerMode_exec ih e).2 (hclash n e he)

/-- Two callers find no wallet attempt, and both insert one. -/
theorem attempts_exact_fails :
    ¬ (([.bootstrapWallet, .bootstrapWallet, .resume 0, .resume 0] : List Section).foldl exec
      {}).OnePerMode := by
  unfold OnePerMode
  decide

end BootstrapInitiator

end Futurehead
