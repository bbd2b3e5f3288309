import Dsv41Overlay.Lib.CtaRun

/-!
# The notes that a thread passes

A note of a program may carry what the program has read, so that which notes a thread passes
depends on the memory. `Prog.Notes f` is about what does not: on every path of the program, whatever
it reads, `f` makes the same list of the notes. A thread that has come to its end has passed just
these (`map_passed_of_finished`). What the notes carry is then known from the plan: all that a
thread has passed was planned for it (`Plan.Verifies.noted_of_passed`).
-/

namespace Dsv41Overlay.Cta

universe u₁ u₂ u₃ u₄ u₅

variable {T : Type u₁} {A : Type u₂} {V : Type u₃} {X : Type u₄} {W : Type u₅} {Y : Type*}
  {f : X → Y}

/-- On every path of the program, `f` makes this list of its notes. -/
def Prog.Notes (f : X → Y) : Prog T A V X → List Y → Prop
  | .done, l => l = []
  | .load _ k, l => ∀ v, (k v).Notes f l
  | .shfl _ _ k, l => ∀ v, (k v).Notes f l
  | .store _ _ k, l | .atomic _ _ k, l | .copy _ _ k, l => k.Notes f l
  | .commit k, l | .wait _ k, l | .sync k, l => k.Notes f l
  | .note x k, l => ∃ l', l = f x :: l' ∧ k.Notes f l'

namespace Prog.Notes

theorem note {x : X} {k : Prog T A V X} {l : List Y} (h : k.Notes f l) :
    (Prog.note x k).Notes f (f x :: l) := ⟨l, rfl, h⟩

theorem wait {n : ℕ} {k : Prog T A V X} {l : List Y} (h : k.Notes f l) :
    (Prog.wait n k).Notes f l := h

theorem sync {k : Prog T A V X} {l : List Y} (h : k.Notes f l) : (Prog.sync k).Notes f l := h

theorem loads {as : List A} {k : List V → Prog T A V X} {l : List Y}
    (h : ∀ vs, (k vs).Notes f l) : (Prog.loads as k).Notes f l := by
  induction as generalizing k with
  | nil => exact h []
  | cons a as ih => exact fun v => ih fun vs => h (v :: vs)

theorem gathers {as : List (List A)} {k : List (List V) → Prog T A V X} {l : List Y}
    (h : ∀ vss, (k vss).Notes f l) : (Prog.gathers as k).Notes f l := by
  induction as generalizing k with
  | nil => exact h []
  | cons a as ih => exact loads fun vs => ih fun vss => h (vs :: vss)

theorem stores {avs : List (A × V)} {k : Prog T A V X} {l : List Y} (h : k.Notes f l) :
    (Prog.stores avs k).Notes f l := by
  induction avs with
  | nil => exact h
  | cons av avs ih => exact ih

theorem copies {avs : List (A × V)} {k : Prog T A V X} {l : List Y} (h : k.Notes f l) :
    (Prog.copies avs k).Notes f l := by
  induction avs with
  | nil => exact h
  | cons av avs ih => exact ih

/-- A loop, whose rounds pass the notes that `g` gives. -/
theorem each {ι : Type*} {body : ι → Prog T A V X → Prog T A V X} {is : List ι} {g : ι → List Y}
    {k : Prog T A V X} {l : List Y}
    (hbody : ∀ i ∈ is, ∀ k l, k.Notes f l → (body i k).Notes f (g i ++ l)) (h : k.Notes f l) :
    (Prog.each body is k).Notes f (is.flatMap g ++ l) := by
  induction is with
  | nil => exact h
  | cons i is ih =>
    rw [List.flatMap_cons, List.append_assoc]
    refine hbody i List.mem_cons_self _ _ (ih fun j hj => ?_)
    exact hbody j (List.mem_cons_of_mem _ hj)

/-- A loop with an accumulator, whatever it accumulates. -/
theorem fold {ι S : Type*} {body : ι → S → (S → Prog T A V X) → Prog T A V X} {is : List ι}
    {g : ι → List Y} {x : S} {k : S → Prog T A V X} {l : List Y}
    (hbody : ∀ i ∈ is, ∀ x k l, (∀ y, (k y).Notes f l) → (body i x k).Notes f (g i ++ l))
    (h : ∀ y, (k y).Notes f l) : (Prog.fold body is x k).Notes f (is.flatMap g ++ l) := by
  induction is generalizing x with
  | nil => exact h x
  | cons i is ih =>
    rw [List.flatMap_cons, List.append_assoc]
    refine hbody i List.mem_cons_self _ _ _ fun y => ih fun j hj => ?_
    exact hbody j (List.mem_cons_of_mem _ hj)

end Prog.Notes

/-! ### Along a run -/

section Runs

variable [DecidableEq T] [DecidableEq A] [DecidableEq W] {s s' : State T A V X} {warp : T → W}

/-- What a thread has passed and will pass stays the same when it goes on. -/
def Thread.Continues (f : X → Y) (th th' : Thread T A V X) : Prop :=
  ∀ l, th.prog.Notes f l → ∃ l', th'.prog.Notes f l' ∧ th'.passed.map f ++ l' = th.passed.map f ++ l

omit [DecidableEq A] in
theorem continues_put {mem : A → V} {t₀ : T} {th : Thread T A V X}
    (h : (s.thread t₀).Continues f th) (t : T) :
    (s.thread t).Continues f ((s.put mem t₀ th).thread t) := by
  by_cases ht : t = t₀
  · subst ht
    simpa only [State.put, Function.update_self] using h
  · simp only [State.put, Function.update_of_ne ht]
    exact fun l hl => ⟨l, hl, rfl⟩

/-- **A step** moves a note from what is to come to what has been passed, or leaves both. -/
theorem Step.continues (h : Step warp s s') (t : T) : (s.thread t).Continues f (s'.thread t) := by
  cases h with
  | @load t₀ a k hprog =>
    refine continues_put (fun l hl => ?_) t
    rw [hprog] at hl
    exact ⟨l, hl _, rfl⟩
  | @store t₀ a v k hprog | @atomic t₀ a v k hprog | @copy t₀ a v k junk hprog =>
    refine continues_put (fun l hl => ?_) t
    rw [hprog] at hl
    exact ⟨l, hl, rfl⟩
  | @commit t₀ k hprog | @wait t₀ n k hprog hlanded =>
    refine continues_put (fun l hl => ?_) t
    rw [hprog] at hl
    exact ⟨l, hl, rfl⟩
  | @note t₀ x k hprog =>
    refine continues_put (fun l hl => ?_) t
    rw [hprog] at hl
    obtain ⟨l', rfl, hk⟩ := hl
    exact ⟨l', hk, by rw [List.map_append, List.append_assoc]; rfl⟩
  | @land t₀ c₁ c₂ c hcopies hc =>
    refine continues_put (fun l hl => ?_) t
    exact ⟨l, hl, rfl⟩
  | shfl t₀ v src k hprog =>
    intro l hl
    refine ⟨l, ?_, rfl⟩
    by_cases ht : warp t = warp t₀
    · rw [hprog t ht] at hl
      simpa only [State.goto, if_pos ht] using hl (v (src t))
    · simpa only [State.goto, if_neg ht] using hl
  | sync t₀ k hprog =>
    intro l hl
    rw [hprog t] at hl
    exact ⟨l, hl, rfl⟩

/-- **A run** passes the notes of the programs, in order. -/
theorem notes_of_reachable {mem : A → V} {program : T → Prog T A V X} {t : T} {l : List Y}
    (h : (program t).Notes f l) (hs : (runs warp mem program).Reachable s) :
    ∃ l', (s.thread t).prog.Notes f l' ∧ (s.thread t).passed.map f ++ l' = l := by
  refine System.Reachable.invariant (I := fun s => ∃ l', (s.thread t).prog.Notes f l' ∧
    (s.thread t).passed.map f ++ l' = l) (fun s hinit => ?_) (fun s _ s' hI hstep => ?_) hs
  · obtain rfl : s = start mem program := hinit
    exact ⟨l, h, rfl⟩
  · obtain ⟨l', hl', heq⟩ := hI
    obtain ⟨l'', hl'', heq'⟩ := Step.continues hstep t l' hl'
    exact ⟨l'', hl'', heq'.trans heq⟩

/-- A thread at its end has passed them all. -/
theorem map_passed_of_finished {mem : A → V} {program : T → Prog T A V X} {t : T} {l : List Y}
    (h : (program t).Notes f l) (hs : (runs warp mem program).Reachable s)
    (hdone : (s.thread t).prog = .done) : (s.thread t).passed.map f = l := by
  obtain ⟨l', hl', heq⟩ := notes_of_reachable h hs
  rw [hdone] at hl'
  obtain rfl : l' = [] := hl'
  rwa [List.append_nil] at heq

/-- What a step adds to the notes that a thread has passed. -/
theorem Step.mem_passed (h : Step warp s s') {t : T} {x : X} (hx : x ∈ (s'.thread t).passed) :
    x ∈ (s.thread t).passed ∨ ∃ k, (s.thread t).prog = .note x k := by
  -- a thread that goes on without a note has passed what it had
  have hput : ∀ {mem : A → V} {t₀ : T} {th : Thread T A V X},
      x ∈ ((s.put mem t₀ th).thread t).passed →
      x ∈ (s.thread t).passed ∨ t = t₀ ∧ x ∈ th.passed := by
    intro mem t₀ th hmem
    by_cases ht : t = t₀
    · subst ht
      simp only [State.put, Function.update_self] at hmem
      exact .inr ⟨rfl, hmem⟩
    · simp only [State.put, Function.update_of_ne ht] at hmem
      exact .inl hmem
  cases h with
  | @note t₀ y k hprog =>
    obtain hx | ⟨rfl, hx⟩ := hput hx
    · exact .inl hx
    obtain hx | hx := List.mem_append.mp hx
    · exact .inl hx
    · obtain rfl := List.mem_singleton.mp hx
      exact .inr ⟨k, hprog⟩
  | shfl | sync => exact .inl hx
  | _ =>
    obtain hx | ⟨rfl, hx⟩ := hput hx
    · exact .inl hx
    · exact .inl hx

end Runs

/-- **What a thread has passed** was planned for it. -/
theorem Plan.Verifies.noted_of_passed {P : Plan T A V X W} [DecidableEq A] [Fintype T]
    [DecidableEq T] [DecidableEq W] {program : T → Prog T A V X} (h : P.Verifies program)
    {s : State T A V X} (hs : (runs P.warp (P.val 0) program).Reachable s) {t : T} {x : X}
    (hx : x ∈ (s.thread t).passed) : ∃ p D, P.noted p t x D := by
  refine System.Reachable.invariant_along (I := fun s => ∀ x ∈ (s.thread t).passed,
    ∃ p D, P.noted p t x D) (fun s hinit x hx => ?_) (fun s _ s' hr hI hstep x hx => ?_) hs x hx
  · obtain rfl : s = start (P.val 0) program := hinit
    cases hx
  · obtain hx | ⟨k, hprog⟩ := Step.mem_passed hstep hx
    · exact hI x hx
    · obtain ⟨p, D, hnoted, -⟩ := h.noted hr hprog
      exact ⟨p, D, hnoted⟩

end Dsv41Overlay.Cta
