import Mathlib.Logic.Basic

/-!
# Labelled transition systems

The state machines of this development (a request's life in a paged cache, a
streamed completion, threads sharing a row cache) are all presented the same
way: a predicate of initial states and a labelled step relation.

Most safety statements quantify over runs whose steps satisfy a side condition
on the pre-state and the label (a caller's promise, or the condition under which
a component meets its contract). `System.ReachableVia C` collects the states of
exactly those runs, and `System.Reachable` is the unconditional case. The one
induction over runs is `ReachableVia.invariant`.
-/

namespace Dsv41Overlay

/-- A labelled transition system. -/
structure System (State Label : Type*) where
  /-- The initial states. -/
  init : State → Prop
  /-- `step s l s'` fires the label `l` in `s` and leaves `s'`. -/
  step : State → Label → State → Prop

namespace System

variable {State Label : Type*} {sys : System State Label}

/-- The states reached by the runs of `sys` all of whose steps satisfy `C` on
their pre-state and label. -/
inductive ReachableVia (sys : System State Label) (C : State → Label → Prop) : State → Prop
  | init {s : State} (h : sys.init s) : ReachableVia sys C s
  | step {s s' : State} {l : Label} (h : ReachableVia sys C s) (hC : C s l)
      (hs : sys.step s l s') : ReachableVia sys C s'

/-- The states reached by the runs of `sys`. -/
def Reachable (sys : System State Label) : State → Prop :=
  sys.ReachableVia fun _ _ => True

namespace ReachableVia

variable {C : State → Label → Prop}

/-- **The invariant rule.** A predicate that holds initially and is preserved by
every step meeting `C` holds in every state reached via `C`. -/
theorem invariant {I : State → Prop} (h₀ : ∀ s, sys.init s → I s)
    (hstep : ∀ s l s', I s → C s l → sys.step s l s' → I s') {s : State}
    (h : sys.ReachableVia C s) : I s := by
  induction h with
  | init h => exact h₀ _ h
  | step _ hC hs ih => exact hstep _ _ _ ih hC hs

/-- A run whose steps meet a condition meets every weaker one. -/
theorem mono {C' : State → Label → Prop} (hC : ∀ s l, C s l → C' s l) {s : State}
    (h : sys.ReachableVia C s) : sys.ReachableVia C' s := by
  induction h with
  | init h => exact .init h
  | step _ hc hs ih => exact .step ih (hC _ _ hc) hs

end ReachableVia

/-- The invariant rule for unconditional runs. -/
theorem Reachable.invariant {I : State → Prop} (h₀ : ∀ s, sys.init s → I s)
    (hstep : ∀ s l s', I s → sys.step s l s' → I s') {s : State}
    (h : sys.Reachable s) : I s :=
  ReachableVia.invariant h₀ (fun s l s' hI _ hs => hstep s l s' hI hs) h

/-- The invariant rule in layers: a step may use what is known of reachable states. -/
theorem Reachable.invariant_along {I : State → Prop} (h₀ : ∀ s, sys.init s → I s)
    (hstep : ∀ s l s', sys.Reachable s → I s → sys.step s l s' → I s') {s : State}
    (h : sys.Reachable s) : I s := by
  refine (h.invariant (I := fun s => sys.Reachable s ∧ I s) (fun s h => ⟨.init h, h₀ s h⟩) ?_).2
  rintro s l s' ⟨hr, hI⟩ hs
  exact ⟨.step hr trivial hs, hstep s l s' hr hI hs⟩

end System
end Dsv41Overlay
