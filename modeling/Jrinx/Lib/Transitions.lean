import Mathlib.Data.List.Basic

/-! # Labelled transition systems

A system is given by a relation `step a s t`: in the state `s` the action `a` can lead to `t`.

* **`Transitions`** — the runs, with the actions that were taken, oldest first.
* **`Transitions.invariant`** — what every step keeps holds at the end of every run.
* **`Transitions.map`** — where every step is one of another system, every run is. -/

namespace Jrinx

variable {A S T : Type*}

/-- **A run**, oldest action first. -/
inductive Transitions (step : A → S → S → Prop) (s : S) : List A → S → Prop
  | nil : Transitions step s [] s
  | snoc {as : List A} {a : A} {t u : S} : Transitions step s as t → step a t u →
      Transitions step s (as ++ [a]) u

namespace Transitions

variable {step : A → S → S → Prop} {step' : A → T → T → Prop} {s t : S} {as : List A} {I : S → Prop}

/-- **The invariant rule.** -/
theorem invariant (hrun : Transitions step s as t) (hs : I s)
    (hstep : ∀ ⦃a t u⦄, I t → step a t u → I u) : I t := by
  induction hrun with
  | nil => exact hs
  | snoc _ hlast ih => exact hstep ih hlast

/-- **Refinement**: from states with the invariant a step keeps it, and is one of the other system. -/
theorem map {f : S → T} (hrun : Transitions step s as t) (hs : I s)
    (hstep : ∀ ⦃a t u⦄, I t → step a t u → I u ∧ step' a (f t) (f u)) :
    I t ∧ Transitions step' (f s) as (f t) := by
  induction hrun with
  | nil => exact ⟨hs, .nil⟩
  | snoc _ hlast ih =>
      obtain ⟨hinv, hrun⟩ := ih
      obtain ⟨hnext, hlast⟩ := hstep hinv hlast
      exact ⟨hnext, hrun.snoc hlast⟩

end Transitions

end Jrinx
