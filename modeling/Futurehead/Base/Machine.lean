import Mathlib.Logic.Relation

/-!
# Machines

A machine is a partial step function on states. A state without a step is one where the machine has
stopped, well or badly; the loop that drives the machine knows when it is done.
-/

universe u

namespace Machine

variable {State : Type u} {step : State → Option State} {s t t' : State}

/-- The machine goes from `s` to `t` in some number of steps. -/
def Steps (step : State → Option State) : State → State → Prop :=
  Relation.ReflTransGen fun s t => step s = some t

/-- Takes steps until the state is done. -/
def run (step : State → Option State) (done : State → Bool) : Nat → State → Option State
  | 0, _ => none
  | fuel + 1, s => if done s then some s else (step s).bind (run step done fuel)

namespace Steps

theorem refl (s : State) : Steps step s s := Relation.ReflTransGen.refl

theorem trans (h : Steps step s t) (h' : Steps step t t') : Steps step s t' :=
  Relation.ReflTransGen.trans h h'

theorem head (h : step s = some t) (h' : Steps step t t') : Steps step s t' :=
  Relation.ReflTransGen.head h h'

end Steps

theorem run_of_imp {step' : State → Option State} {done : State → Bool}
    (hstep : ∀ s t, step s = some t → step' s = some t) {n m : Nat} (hnm : n ≤ m)
    (h : run step done n s = some t) : run step' done m s = some t := by
  induction n generalizing m s with
  | zero => cases h
  | succ n ih =>
    cases m with
    | zero => omega
    | succ m =>
      rw [run] at h ⊢
      split
      · rename_i hs
        rwa [if_pos hs] at h
      · rename_i hs
        rw [if_neg hs] at h
        obtain ⟨s', hs', hrun⟩ := Option.bind_eq_some_iff.1 h
        rw [hstep s s' hs', Option.bind_some]
        exact ih (by omega) hrun

theorem run_mono {done : State → Bool} {n m : Nat} (h : run step done n s = some t) (hnm : n ≤ m) :
    run step done m s = some t :=
  run_of_imp (fun _ _ hs => hs) hnm h

theorem run_of_steps (done : State → Bool) (hstop : ∀ s, done s → step s = none)
    (h : Steps step s t) (ht : done t) : ∃ n, ∀ fuel, n ≤ fuel → run step done fuel s = some t := by
  induction h using Relation.ReflTransGen.head_induction_on with
  | refl =>
    refine ⟨1, fun fuel hfuel => ?_⟩
    obtain ⟨fuel, rfl⟩ := Nat.exists_eq_add_of_le hfuel
    rw [Nat.add_comm, run, if_pos ht]
  | @head s s' hstep _ ih =>
    obtain ⟨n, hn⟩ := ih
    refine ⟨n + 1, fun fuel hfuel => ?_⟩
    cases fuel with
    | zero => omega
    | succ fuel =>
      have hs : ¬ done s := by
        intro hs
        rw [hstop s hs] at hstep
        cases hstep
      rw [run, if_neg hs, hstep, Option.bind_some]
      exact hn fuel (by omega)

end Machine
