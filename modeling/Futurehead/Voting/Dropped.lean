import Futurehead.Base.UniqueQueue
import Futurehead.Blocks

/-!
# Recently dropped elections (`dropped_elections`, `active_transactions::restart`)

The roots of dropped elections are kept with the time of the drop, so that an election can be
restarted within two minutes. The container is a sequence with a unique index on the root: adding a
root that is there changes neither its time nor its place.
-/

namespace Futurehead

open List Option

/-- `dropped_elections`. Times are in nanoseconds since the epoch of the clock. -/
structure DroppedElections where
  items : UniqueQueue QualifiedRoot Nat := .empty

namespace DroppedElections

def capacity : Nat := 16 * 1024

def add (root : QualifiedRoot) (now : Nat) (d : DroppedElections) : DroppedElections :=
  ⟨(d.items.emplaceBack root now).bound capacity⟩

def erase (root : QualifiedRoot) (d : DroppedElections) : DroppedElections := ⟨d.items.erase root⟩

/-- `dropped_elections::find`: the epoch of the clock for a root that is not there. -/
def find (root : QualifiedRoot) (d : DroppedElections) : Nat := (d.items.find? root).getD 0

/-- `recently_dropped_cutoff` of `active_transactions::restart`, two minutes. -/
def cutoff : Nat := 2 * 60 * 1000000000

/-- The condition of `active_transactions::restart` on the time of the drop. -/
def restartable (root : QualifiedRoot) (now : Nat) (d : DroppedElections) : Bool :=
  decide ((now : Int) - cutoff < d.find root)

inductive Call where
  | add (root : QualifiedRoot) (now : Nat)
  | erase (root : QualifiedRoot)

namespace Call

def root : Call → QualifiedRoot
  | add root _ => root
  | erase root => root

def time? : Call → Option Nat
  | add _ now => some now
  | erase _ => none

def added? : Call → Option QualifiedRoot
  | add root _ => some root
  | erase _ => none

end Call

def exec (d : DroppedElections) : Call → DroppedElections
  | .add root now => d.add root now
  | .erase root => d.erase root

def run (calls : List Call) : DroppedElections := calls.foldl exec {}

def Clocked (calls : List Call) : Prop := (calls.filterMap Call.time?).Pairwise (· ≤ ·)

instance decidableClocked (calls : List Call) : Decidable (Clocked calls) :=
  inferInstanceAs (Decidable (List.Pairwise _ _))

def added (calls : List Call) : Finset QualifiedRoot := (calls.filterMap Call.added?).toFinset

variable {d : DroppedElections} {root : QualifiedRoot} {t : Nat} {calls : List Call}

theorem behind_foldl {s : Finset QualifiedRoot} (h : d.items.Behind root t s)
    (hroot : ∀ call ∈ calls, call.root ≠ root) (hadded : added calls ⊆ s)
    (hs : s.card < capacity) : (calls.foldl exec d).items.Behind root t s := by
  induction calls generalizing d with
  | nil => exact h
  | cons call calls ih =>
    have hne := hroot call mem_cons_self
    have hrest (call' : Call) (hc : call' ∈ calls) := hroot call' (mem_cons_of_mem call hc)
    cases call with
    | add root' now =>
      have hsub : insert root' (added calls) ⊆ s := by
        simpa [added, Call.added?] using hadded
      have hmem := hsub (Finset.mem_insert_self root' _)
      exact ih ((h.emplaceBack hmem now).bound hs) hrest ((Finset.subset_insert root' _).trans hsub)
    | erase root' => exact ih (h.erase (Ne.symm hne)) hrest hadded

theorem find?_foldl (h : d.items.find? root = some t ∨ d.items.find? root = none)
    (hroot : ∀ call ∈ calls, call.root ≠ root) :
    (calls.foldl exec d).items.find? root = some t ∨ (calls.foldl exec d).items.find? root = none := by
  induction calls generalizing d with
  | nil => exact h
  | cons call calls ih =>
    refine ih ?_ fun call' hc => hroot call' (mem_cons_of_mem call hc)
    have hself := hroot call mem_cons_self
    cases call with
    | add root' now =>
      have hne : root ≠ root' := Ne.symm hself
      rcases UniqueQueue.find?_bound (n := capacity) (q := d.items.emplaceBack root' now) (k := root)
        with hsame | hnone
      · have hfind : (d.add root' now).items.find? root = d.items.find? root := by
          rw [add, hsame, UniqueQueue.find?_emplaceBack_ne hne]
        exact hfind ▸ h
      · exact .inr hnone
    | erase root' =>
      have hfind : (d.erase root').items.find? root = d.items.find? root :=
        UniqueQueue.find?_erase_ne (Ne.symm hself)
      exact hfind ▸ h

theorem time_mem_run {e : QualifiedRoot × Nat} (h : e ∈ (run calls).items.entries) :
    e.2 ∈ calls.filterMap Call.time? := by
  induction calls using List.reverseRecOn generalizing e with
  | nil => cases h
  | append_singleton calls call ih =>
    rw [run, foldl_concat] at h
    rw [filterMap_append, mem_append]
    cases call with
    | add root now =>
      rcases UniqueQueue.mem_emplaceBack (UniqueQueue.mem_bound h) with h | rfl
      · exact .inl (ih h)
      · exact .inr (mem_singleton.2 rfl)
    | erase root => exact .inl (ih (UniqueQueue.mem_erase h))

theorem length_run_le (calls : List Call) : (run calls).items.entries.length ≤ capacity := by
  induction calls using List.reverseRecOn with
  | nil => exact Nat.zero_le _
  | append_singleton calls call ih =>
    rw [run, foldl_concat]
    cases call with
    | add root now => exact UniqueQueue.length_bound_emplaceBack ih now
    | erase root => exact UniqueQueue.length_erase_le.trans ih

theorem add_of_find? {t' : Nat} (h : (run calls).items.find? root = some t') (t : Nat) :
    (run calls).add root t = run calls := by
  have hmem : root ∈ (run calls).items.keys := by
    by_contra hnot
    rw [UniqueQueue.find?_eq_none.2 hnot] at h
    cases h
  rw [add, UniqueQueue.emplaceBack_of_mem hmem, UniqueQueue.bound_of_length_le (length_run_le calls)]

theorem restartable_of_find (h : d.find root = t) {now : Nat} (hnow : now < t + cutoff) :
    d.restartable root now = true := by
  rw [restartable, h, decide_eq_true_eq]
  omega

end DroppedElections

open DroppedElections in
/-- After the last drop of a root, which fewer than `capacity` other roots follow, its time is found
and the election can be restarted for two minutes, if the root was not in the container when it was
dropped. It is not so if the root was there with another time. -/
theorem dropped_elections_find (before after : List Call) (root : QualifiedRoot) (t : Nat)
    (hclock : Clocked (before ++ .add root t :: after)) (hlast : ∀ call ∈ after, call.root ≠ root)
    (hfew : (added after).card < capacity) :
    (root ∉ (run before).items.keys →
      (run (before ++ .add root t :: after)).find root = t ∧ ∀ now, now < t + cutoff →
        (run (before ++ .add root t :: after)).restartable root now = true) ∧
    (∀ t', (run before).items.find? root = some t' → t' ≠ t →
      (run (before ++ .add root t :: after)).find root ≠ t) := by
  have hrun : run (before ++ .add root t :: after) = after.foldl exec ((run before).add root t) := by
    rw [run, foldl_append, foldl_cons]
    rfl
  rw [hrun]
  refine ⟨fun hnew => ?_, fun t' hold hne => ?_⟩
  · have hbehind := (UniqueQueue.behind_emplaceBack hnew t (added after)).bound hfew
    have hfind := (behind_foldl (d := (run before).add root t) hbehind hlast subset_rfl hfew).find?
    have htime : (after.foldl exec ((run before).add root t)).find root = t := by
      rw [find, hfind, getD_some]
    exact ⟨htime, fun now hnow => restartable_of_find htime hnow⟩
  · rw [add_of_find? hold]
    have hle : t' ≤ t := by
      have hread := time_mem_run (UniqueQueue.mem_of_find? hold)
      unfold Clocked at hclock
      rw [filterMap_append, pairwise_append] at hclock
      exact hclock.2.2 t' hread t mem_cons_self
    rcases find?_foldl (.inl hold) hlast with hkeep | hgone
    · rwa [find, hkeep, getD_some]
    · rw [find, hgone, getD_none]
      omega

namespace DroppedElections

/-- A root that is dropped, restarted and dropped again. -/
def redropped : List Call :=
  [.add ⟨1, 1⟩ 1000000000, .add ⟨2, 2⟩ 2000000000, .erase ⟨1, 1⟩, .add ⟨1, 1⟩ 100000000000]

end DroppedElections

open DroppedElections in
theorem dropped_elections_find_redropped :
    (run redropped).find ⟨1, 1⟩ = 100000000000 ∧ (run redropped).restartable ⟨1, 1⟩ 150000000000 := by
  have h := (dropped_elections_find (redropped.take 3) [] ⟨1, 1⟩ 100000000000 (by decide) nofun
    (by decide)).1 (by decide)
  exact ⟨h.1, h.2 150000000000 (by decide)⟩

open DroppedElections in
/-- A root that is dropped after one second and again after a hundred. The first time is found, and
fifty seconds after the last drop the election cannot be restarted. -/
theorem dropped_elections_stale :
    Clocked [.add ⟨1, 1⟩ 1000000000, .add ⟨1, 1⟩ 100000000000] ∧
    (run [.add ⟨1, 1⟩ 1000000000, .add ⟨1, 1⟩ 100000000000]).find ⟨1, 1⟩ = 1000000000 ∧
    (run [.add ⟨1, 1⟩ 1000000000, .add ⟨1, 1⟩ 100000000000]).restartable ⟨1, 1⟩ 150000000000 =
      false := by
  decide

end Futurehead
