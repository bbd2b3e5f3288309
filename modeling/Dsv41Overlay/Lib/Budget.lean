import Dsv41Overlay.Lib.Fallible
import Mathlib.Algebra.Order.BigOperators.Group.List
import Mathlib.Algebra.GroupWithZero.Nat
import Mathlib.Algebra.Order.Group.Nat

/-!
# Components that draw on one store

A loop goes over components that share a store, and each takes from the store what it needs.
What the components hold adds up, beside what others hold (`rest`), to what the store has
given out. If the needs were added up before the loop and the store had enough for all of
them, the loop does not fail (`threadM_budget`): what one component takes was counted for it,
and nobody else's need grows meanwhile.

A need may depend on the state of the store, since a component can need what is in the store
already.
-/

namespace Dsv41Overlay.Fallible

universe u v

variable {ε : Type u} {α β τ X M : Type v} [AddCommMonoid M]

/-- **A loop within its budget does not fail.** What is left of the store at its end is
enough for what the components still need, `need'`. -/
theorem threadM_budget {f : α → τ → Except ε (β × τ)} (held : α → M) (held' : β → M)
    (Inv : M → X → τ → Prop) (size : X → ℕ) (need : α → X → ℕ) (need' : β → ℕ)
    (Post : α → β → Prop) {as : List α}
    (step : ∀ a ∈ as, ∀ rest x t, Inv (held a + rest) x t → need a x ≤ size x →
      ∃ b x' t', f a t = .ok (b, t') ∧ Inv (held' b + rest) x' t' ∧ Post a b ∧
        need' b + size x ≤ need a x + size x' ∧ ∀ c ∈ as, need c x' ≤ need c x)
    {rest : M} {x : X} {t : τ} (init : Inv ((as.map held).sum + rest) x t)
    (hbudget : (as.map fun a => need a x).sum ≤ size x) :
    ∃ bs x' t', threadM f as t = .ok (bs, t') ∧ Inv ((bs.map held').sum + rest) x' t' ∧
      List.Forall₂ Post as bs ∧ (bs.map need').sum ≤ size x' := by
  -- `spent` is what the components before these still need
  have run : ∀ (as' : List α) (spent : ℕ) (rest : M) (x : X) (t : τ), (∀ a ∈ as', a ∈ as) →
      Inv ((as'.map held).sum + rest) x t → spent + (as'.map fun a => need a x).sum ≤ size x →
      ∃ bs x' t', threadM f as' t = .ok (bs, t') ∧ Inv ((bs.map held').sum + rest) x' t' ∧
        List.Forall₂ Post as' bs ∧ spent + (bs.map need').sum ≤ size x' := by
    intro as'
    induction as' with
    | nil =>
      intro spent rest x t _ hinv hle
      exact ⟨[], x, t, rfl, hinv, .nil, hle⟩
    | cons a as' ih =>
      intro spent rest x t hmem hinv hle
      obtain ⟨ha, hmem⟩ := List.forall_mem_cons.mp hmem
      rw [List.map_cons, List.sum_cons, add_assoc] at hinv
      rw [List.map_cons, List.sum_cons] at hle
      obtain ⟨b, x₁, t₁, hb, hinv₁, hpost, hdrop, hmono⟩ :=
        step a ha _ x t hinv (by omega)
      have hneeds : (as'.map fun c => need c x₁).sum ≤ (as'.map fun c => need c x).sum :=
        List.sum_le_sum fun c hc => hmono c (hmem c hc)
      rw [add_left_comm] at hinv₁
      obtain ⟨bs, x₂, t₂, hbs, hinv₂, hposts, hle₂⟩ :=
        ih (spent + need' b) (held' b + rest) x₁ t₁ hmem hinv₁ (by omega)
      refine ⟨b :: bs, x₂, t₂, ?_, ?_, .cons hpost hposts, ?_⟩
      · rw [threadM, hb]
        simp only [bind, Except.bind, hbs, pure, Except.pure]
      · rwa [List.map_cons, List.sum_cons, add_assoc, add_left_comm]
      · rw [List.map_cons, List.sum_cons]
        omega
  obtain ⟨bs, x', t', hbs, hinv, hposts, hle⟩ :=
    run as 0 rest x t (fun _ ha => ha) init (by rwa [Nat.zero_add])
  exact ⟨bs, x', t', hbs, hinv, hposts, by rwa [Nat.zero_add] at hle⟩

/-- **What such a loop keeps**, when it succeeds. -/
theorem threadM_keeps {f : α → τ → Except ε (β × τ)} (held : α → M) (held' : β → M)
    (Inv : M → τ → Prop) (Post : α → β → Prop)
    (step : ∀ a rest t b t', Inv (held a + rest) t → f a t = .ok (b, t') →
      Inv (held' b + rest) t' ∧ Post a b) {as : List α} {bs : List β} {rest : M} {t t' : τ}
    (init : Inv ((as.map held).sum + rest) t) (h : threadM f as t = .ok (bs, t')) :
    Inv ((bs.map held').sum + rest) t' ∧ List.Forall₂ Post as bs := by
  induction as generalizing bs rest t with
  | nil =>
    obtain ⟨rfl, rfl⟩ := Prod.mk.inj (Except.ok.inj h)
    exact ⟨init, .nil⟩
  | cons a as ih =>
    rw [threadM] at h
    obtain ⟨⟨b, t₁⟩, hb, h⟩ := bind_eq_ok.mp h
    obtain ⟨⟨bs, t₂⟩, hbs, h⟩ := bind_eq_ok.mp h
    obtain ⟨rfl, rfl⟩ := Prod.mk.inj (Except.ok.inj h)
    rw [List.map_cons, List.sum_cons, add_assoc] at init
    obtain ⟨hinv, hpost⟩ := step a _ t b t₁ init hb
    rw [add_left_comm] at hinv
    obtain ⟨hinv', hposts⟩ := ih hinv hbs
    rw [List.map_cons, List.sum_cons, add_assoc, add_left_comm]
    exact ⟨hinv', .cons hpost hposts⟩

end Dsv41Overlay.Fallible
