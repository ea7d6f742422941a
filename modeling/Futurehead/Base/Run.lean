/-!
# Runs of a labelled transition system

A system is a step relation `step s a t`: the action `a` can take state `s` to state `t`. A run is
a sequence of steps whose actions are all allowed in the state they are taken from.
-/

universe u v

variable {State : Type u} {Action : Type v}

/-- A run from `s`, each of whose actions is allowed in the state it is taken from. -/
inductive Reaches (step : State → Action → State → Prop) (ok : State → Action → Prop) (s : State) :
    State → Prop
  | refl : Reaches step ok s s
  | tail {t t' : State} {a : Action} :
      Reaches step ok s t → ok t a → step t a t' → Reaches step ok s t'

namespace Reaches

variable {step : State → Action → State → Prop} {ok ok' : State → Action → Prop} {s t t' : State}

theorem invariant {I : State → Prop} (h : Reaches step ok s t) (start : I s)
    (keep : ∀ t a t', I t → ok t a → step t a t' → I t') : I t := by
  induction h with
  | refl => exact start
  | tail _ hok hstep ih => exact keep _ _ _ ih hok hstep

theorem mono (h : Reaches step ok s t) (weaker : ∀ t a, ok t a → ok' t a) :
    Reaches step ok' s t := by
  induction h with
  | refl => exact .refl
  | tail _ hok hstep ih => exact .tail ih (weaker _ _ hok) hstep

theorem trans (h : Reaches step ok s t) (h' : Reaches step ok t t') : Reaches step ok s t' := by
  induction h' with
  | refl => exact h
  | tail _ hok hstep ih => exact .tail ih hok hstep

theorem of_foldlM {exec : State → Action → Option State} [∀ s a, Decidable (ok s a)]
    {actions : List Action}
    (h : actions.foldlM (fun s a => if ok s a then exec s a else none) s = some t) :
    Reaches (fun s a t => exec s a = some t) ok s t := by
  induction actions generalizing s with
  | nil =>
    cases h
    exact .refl
  | cons a actions ih =>
    rw [List.foldlM_cons] at h
    obtain ⟨next, hexec, hrest⟩ := Option.bind_eq_some_iff.1 h
    split at hexec
    · next hok =>
      have hone : Reaches (fun s a t => exec s a = some t) ok s next := .tail .refl hok hexec
      exact hone.trans (ih hrest)
    · cases hexec

end Reaches
