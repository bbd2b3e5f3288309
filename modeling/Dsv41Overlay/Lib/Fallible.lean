import Mathlib.Data.List.Forall2

/-!
# Runs that may fail

A computation in `Except` that succeeds has succeeded at every step. For a sequence
of two steps that is `bind_eq_ok`, for a map over a list `mapM_eq_ok`, and for a
loop that threads a state the induction rule `foldlM_induction`: what holds at the
start and is kept by every step that succeeds holds at the end.
-/

namespace Dsv41Overlay.Fallible

universe u v

variable {ε : Type u} {α β σ : Type v}

theorem bind_eq_ok {x : Except ε α} {f : α → Except ε β} {b : β} :
    (x >>= f) = .ok b ↔ ∃ a, x = .ok a ∧ f a = .ok b := by
  cases x with
  | error e =>
    constructor
    · intro h
      cases h
    · rintro ⟨a, ha, -⟩
      cases ha
  | ok a =>
    constructor
    · intro h
      exact ⟨a, rfl, h⟩
    · rintro ⟨a', ha, h⟩
      obtain rfl := Except.ok.inj ha
      exact h

theorem bind_eq_error {x : Except ε α} {f : α → Except ε β} {e : ε} :
    (x >>= f) = .error e ↔ x = .error e ∨ ∃ a, x = .ok a ∧ f a = .error e := by
  cases x with
  | error e' =>
    refine ⟨fun h => .inl (congrArg Except.error (Except.error.inj h)), ?_⟩
    rintro (h | ⟨a, ha, -⟩)
    · exact congrArg Except.error (Except.error.inj h)
    · cases ha
  | ok a =>
    refine ⟨fun h => .inr ⟨a, rfl, h⟩, ?_⟩
    rintro (h | ⟨a', ha, h⟩)
    · cases h
    · obtain rfl := Except.ok.inj ha
      exact h

theorem mapError_eq_ok {ε' : Type*} {f : ε → ε'} {x : Except ε α} {a : α} :
    x.mapError f = .ok a ↔ x = .ok a := by
  cases x with
  | error e =>
    constructor
    · intro h
      cases h
    · intro h
      cases h
  | ok b =>
    constructor
    · intro h
      exact congrArg Except.ok (Except.ok.inj h)
    · intro h
      exact congrArg Except.ok (Except.ok.inj h)

/-- A check that raises unless the condition holds. -/
def require (p : Prop) [Decidable p] (e : ε) : Except ε Unit := if p then .ok () else .error e

theorem require_eq_ok {p : Prop} [Decidable p] {e : ε} {u : Unit} :
    require p e = .ok u ↔ p := by
  by_cases hp : p
  · rw [require, if_pos hp]
    exact ⟨fun _ => hp, fun _ => rfl⟩
  · rw [require, if_neg hp]
    constructor
    · intro h
      cases h
    · intro h
      exact absurd h hp

/-- **A map that succeeds has succeeded at every element.** -/
theorem mapM_eq_ok {f : α → Except ε β} {as : List α} {bs : List β} :
    as.mapM f = .ok bs ↔ List.Forall₂ (fun a b => f a = .ok b) as bs := by
  induction as generalizing bs with
  | nil =>
    rw [List.mapM_nil, List.forall₂_nil_left_iff]
    exact ⟨fun h => (Except.ok.inj h).symm, fun h => congrArg Except.ok h.symm⟩
  | cons a as ih =>
    rw [List.mapM_cons, bind_eq_ok]
    constructor
    · rintro ⟨b, hb, h⟩
      obtain ⟨tail, htail, h⟩ := bind_eq_ok.mp h
      obtain rfl := Except.ok.inj h
      exact .cons hb (ih.mp htail)
    · rintro (_ | ⟨hb, htail⟩)
      exact ⟨_, hb, bind_eq_ok.mpr ⟨_, ih.mpr htail, rfl⟩⟩

theorem exists_mapM_eq_ok {f : α → Except ε β} {as : List α} :
    (∃ bs, as.mapM f = .ok bs) ↔ ∀ a ∈ as, ∃ b, f a = .ok b := by
  simp only [mapM_eq_ok]
  induction as with
  | nil => exact ⟨fun _ a ha => absurd ha List.not_mem_nil, fun _ => ⟨[], .nil⟩⟩
  | cons a as ih =>
    rw [List.forall_mem_cons, ← ih]
    constructor
    · rintro ⟨_, _ | ⟨hb, hbs⟩⟩
      exact ⟨⟨_, hb⟩, _, hbs⟩
    · rintro ⟨⟨b, hb⟩, bs, hbs⟩
      exact ⟨b :: bs, .cons hb hbs⟩

/-- The result of an element stands beside it. -/
theorem exists_mem_zip_left {f : α → Except ε β} {as : List α} {bs : List β}
    (h : as.mapM f = .ok bs) {a : α} (ha : a ∈ as) : ∃ b, (a, b) ∈ as.zip bs ∧ f a = .ok b := by
  induction mapM_eq_ok.mp h with
  | nil => cases ha
  | cons hb htail ih =>
    obtain rfl | ha := List.mem_cons.mp ha
    · exact ⟨_, List.mem_cons_self, hb⟩
    · obtain ⟨b, hzip, hb⟩ := ih (mapM_eq_ok.mpr htail) ha
      exact ⟨b, List.mem_cons_of_mem _ hzip, hb⟩

/-- What stands beside an element is its result. -/
theorem eq_ok_of_mem_zip {f : α → Except ε β} {as : List α} {bs : List β}
    (h : as.mapM f = .ok bs) {a : α} {b : β} (hab : (a, b) ∈ as.zip bs) : f a = .ok b :=
  List.forall₂_zip (mapM_eq_ok.mp h) hab

/-- Every result is that of some element. -/
theorem exists_mem_zip_right {f : α → Except ε β} {as : List α} {bs : List β}
    (h : as.mapM f = .ok bs) {b : β} (hb : b ∈ bs) : ∃ a ∈ as, f a = .ok b := by
  induction mapM_eq_ok.mp h with
  | nil => cases hb
  | cons hab htail ih =>
    obtain rfl | hb := List.mem_cons.mp hb
    · exact ⟨_, List.mem_cons_self, hab⟩
    · obtain ⟨a, ha, hab⟩ := ih (mapM_eq_ok.mpr htail) hb
      exact ⟨a, List.mem_cons_of_mem _ ha, hab⟩

/-- A map that fails has failed at some element. -/
theorem exists_of_mapM_eq_error {f : α → Except ε β} {as : List α} {e : ε}
    (h : as.mapM f = .error e) : ∃ a ∈ as, f a = .error e := by
  induction as with
  | nil => cases h
  | cons a as ih =>
    rw [List.mapM_cons, bind_eq_error] at h
    obtain h | ⟨b, -, h⟩ := h
    · exact ⟨a, List.mem_cons_self, h⟩
    · obtain h | ⟨bs, -, h⟩ := bind_eq_error.mp h
      · obtain ⟨c, hc, herr⟩ := ih h
        exact ⟨c, List.mem_cons_of_mem a hc, herr⟩
      · cases h

/-- **Invariants of a fallible loop.** `P done s` speaks of the elements done so far and
the state they have led to. -/
theorem foldlM_induction {f : σ → α → Except ε σ} (P : List α → σ → Prop) {l : List α} {s s' : σ}
    (h : l.foldlM f s = .ok s') (init : P [] s)
    (step : ∀ done a t t', a ∈ l → P done t → f t a = .ok t' → P (done ++ [a]) t') : P l s' := by
  -- The elements still to come are split off one at a time.
  have run : ∀ todo done t, done ++ todo = l → P done t → todo.foldlM f t = .ok s' → P l s' := by
    intro todo
    induction todo with
    | nil =>
      rintro done t hl ht h
      obtain rfl := Except.ok.inj h
      rw [List.append_nil] at hl
      exact hl ▸ ht
    | cons a todo ih =>
      rintro done t hl ht h
      rw [List.foldlM_cons, bind_eq_ok] at h
      obtain ⟨t', ha, h⟩ := h
      have hmem : a ∈ l := hl ▸ List.mem_append_right _ (List.mem_cons_self ..)
      refine ih (done ++ [a]) t' ?_ (step done a t t' hmem ht ha) h
      rw [List.append_assoc, List.singleton_append, hl]
  exact run l [] s (List.nil_append l) init h

/-! ### Loops that update their elements -/

variable {τ : Type v}

/-- A loop over a list that replaces each element and threads a state. -/
def threadM (f : α → τ → Except ε (β × τ)) : List α → τ → Except ε (List β × τ)
  | [], t => .ok ([], t)
  | a :: as, t => do
    let (b, t) ← f a t
    let (bs, t) ← threadM f as t
    return (b :: bs, t)

end Dsv41Overlay.Fallible
