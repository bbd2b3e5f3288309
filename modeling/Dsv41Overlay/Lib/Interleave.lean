import Dsv41Overlay.Lib.System
import Mathlib.Algebra.BigOperators.Group.List.Basic
import Mathlib.Algebra.GroupWithZero.Nat

/-!
# Threads over a shared state

Any number of threads, each with a local state of type `τ`, take turns on a
shared state of type `σ`. One turn runs one *section* of one thread, without
interruption: `act shared thread choice` is what it does, where `choice` is what
the environment decides (the result of a system call). A section may also fail,
which ends the whole process: then there is no next configuration.

The rules derive facts about runs from one section:

* `forall_invariant`: a fact about the shared state and one about each thread;
* `sum_invariant`, `account_invariant`: a counter in the shared state that the threads
  account for;
* `map_invariant`: what a thread never changes;
* `each_invariant`: a fact that ties each thread to the shared state, kept by its own
  sections and free of interference by those of the others;
* `doomed_of_measure`: no run returns, and none goes on for ever.
-/

namespace Dsv41Overlay

/-- The shared state and the threads. -/
structure Interleave (σ τ : Type*) where
  shared : σ
  threads : List τ

namespace Interleave

variable {σ τ χ ε : Type*}

/-- What a section does: `none` when the thread has nothing to do, else a failure
or the next states. -/
abbrev Section (σ τ χ ε : Type*) := σ → τ → χ → Option (Except ε (σ × τ))

/-- One turn of the thread number `i`. -/
def turn (act : Section σ τ χ ε) (c : Interleave σ τ) (i : ℕ) (x : χ) :
    Option (Except ε (Interleave σ τ)) :=
  match c.threads[i]? with
  | none => none
  | some th =>
    match act c.shared th x with
    | none => none
    | some (.error e) => some (.error e)
    | some (.ok (s, th')) => some (.ok ⟨s, c.threads.set i th'⟩)

/-- The runs of the threads: a label is a thread's number and a choice. -/
def system (init : Interleave σ τ → Prop) (act : Section σ τ χ ε) :
    System (Interleave σ τ) (ℕ × χ) where
  init := init
  step c l c' := c.turn act l.1 l.2 = some (.ok c')

variable {act : Section σ τ χ ε} {c c' : Interleave σ τ} {i : ℕ} {x : χ}

/-- What a turn is: one thread of the configuration ran one section. -/
theorem turn_ok (h : c.turn act i x = some (.ok c')) :
    ∃ th s th', c.threads[i]? = some th ∧ act c.shared th x = some (.ok (s, th'))
      ∧ c' = ⟨s, c.threads.set i th'⟩ := by
  unfold turn at h
  split at h
  · exact nomatch h
  · rename_i th hth
    split at h
    · exact nomatch h
    · exact nomatch h
    · rename_i s th' hact
      cases h
      exact ⟨th, s, th', hth, hact, rfl⟩

/-- A thread with something to do can take its turn. -/
theorem turn_isSome {th : τ} (hth : c.threads[i]? = some th)
    (hact : (act c.shared th x).isSome) : (c.turn act i x).isSome := by
  cases hr : act c.shared th x with
  | none => rw [hr] at hact; exact nomatch hact
  | some r => cases r <;> simp [turn, hth, hr]

/-- A thread that is not the one that ran is still there. -/
theorem mem_set_of_ne {l : List τ} {a b b' : τ} (ha : a ∈ l) (hb : l[i]? = some b) (hne : a ≠ b) :
    a ∈ l.set i b' := by
  obtain ⟨j, hj⟩ := List.mem_iff_getElem?.mp ha
  refine List.mem_iff_getElem?.mpr ⟨j, ?_⟩
  rw [List.getElem?_set_ne, hj]
  rintro rfl
  exact hne (Option.some.inj (hj.symm.trans hb))

/-- The thread that ran is there in its new state. -/
theorem mem_set_self {l : List τ} {b : τ} (b' : τ) (hb : l[i]? = some b) : b' ∈ l.set i b' :=
  List.mem_iff_getElem?.mpr ⟨i, List.getElem?_set_self (List.getElem?_eq_some_iff.mp hb).1⟩

section Rules

variable {init : Interleave σ τ → Prop}

/-- **Threads that keep an invariant**: `G` of the shared state and `K` of every
thread hold in every configuration, when a section of a thread keeps both. -/
theorem forall_invariant {G : σ → Prop} {K : τ → Prop}
    (h₀ : ∀ c, init c → G c.shared ∧ ∀ th ∈ c.threads, K th)
    (hact : ∀ s th x s' th', G s → K th → act s th x = some (.ok (s', th')) → G s' ∧ K th')
    (h : (system init act).Reachable c) : G c.shared ∧ ∀ th ∈ c.threads, K th := by
  refine h.invariant (I := fun c => G c.shared ∧ ∀ th ∈ c.threads, K th) h₀ ?_
  rintro c ⟨i, x⟩ c' ⟨hG, hK⟩ hstep
  obtain ⟨th, s, th', hth, hrun, rfl⟩ := turn_ok hstep
  obtain ⟨hG', hK'⟩ := hact _ _ _ _ _ hG (hK th (List.mem_of_getElem? hth)) hrun
  refine ⟨hG', fun t ht => ?_⟩
  -- only the thread that ran has a new state
  obtain ht | rfl := List.mem_or_eq_of_mem_set ht
  · exact hK t ht
  · exact hK'

/-- Replacing one summand. -/
theorem sum_map_set (f : τ → ℕ) {l : List τ} {i : ℕ} {a : τ} (b : τ) (h : l[i]? = some a) :
    ((l.set i b).map f).sum + f a = (l.map f).sum + f b := by
  induction l generalizing i with
  | nil => exact nomatch h
  | cons y l ih =>
    cases i with
    | zero =>
      obtain rfl : y = a := Option.some.inj h
      simp only [List.set_cons_zero, List.map_cons, List.sum_cons]
      omega
    | succ i =>
      have h' := ih (i := i) h
      simp only [List.set_cons_succ, List.map_cons, List.sum_cons]
      omega

/-- A summand is covered by the sum. -/
theorem le_sum_of_getElem? (f : τ → ℕ) {l : List τ} {i : ℕ} {a : τ} (h : l[i]? = some a) :
    f a ≤ (l.map f).sum := by
  induction l generalizing i with
  | nil => exact nomatch h
  | cons y l ih =>
    rw [List.map_cons, List.sum_cons]
    cases i with
    | zero =>
      obtain rfl : y = a := Option.some.inj h
      exact Nat.le_add_right ..
    | succ i => exact Nat.le_trans (ih (i := i) h) (Nat.le_add_left ..)

/-- A sum without summands. -/
theorem sum_map_eq_zero {f : τ → ℕ} {l : List τ} (h : ∀ (i : ℕ) (a : τ), l[i]? = some a → f a = 0) :
    (l.map f).sum = 0 := by
  induction l with
  | nil => rfl
  | cons y l ih =>
    rw [List.map_cons, List.sum_cons, h 0 y rfl, ih fun i a ha => h (i + 1) a ha]

/-- **Accounts**: a counter `g` of the shared state that moves with the local
counts `f` stays their sum, up to what it was at the start. -/
theorem sum_invariant {G : σ → Prop} {K : τ → Prop} {g : σ → ℕ} {f : τ → ℕ} {n : ℕ}
    (h₀ : ∀ c, init c → (G c.shared ∧ ∀ th ∈ c.threads, K th)
      ∧ g c.shared = n + (c.threads.map f).sum)
    (hact : ∀ s th x s' th', G s → K th → act s th x = some (.ok (s', th')) →
      (G s' ∧ K th') ∧ g s' + f th = g s + f th')
    (h : (system init act).Reachable c) : g c.shared = n + (c.threads.map f).sum := by
  refine (h.invariant (I := fun c => (G c.shared ∧ ∀ th ∈ c.threads, K th)
    ∧ g c.shared = n + (c.threads.map f).sum) h₀ ?_).2
  rintro c ⟨i, x⟩ c' ⟨⟨hG, hK⟩, hsum⟩ hstep
  obtain ⟨th, s, th', hth, hrun, rfl⟩ := turn_ok hstep
  obtain ⟨⟨hG', hK'⟩, hgf⟩ := hact _ _ _ _ _ hG (hK th (List.mem_of_getElem? hth)) hrun
  refine ⟨⟨hG', fun t ht => ?_⟩, ?_⟩
  · obtain ht | rfl := List.mem_or_eq_of_mem_set ht
    · exact hK t ht
    · exact hK'
  · have hset := sum_map_set (i := i) f th' hth
    change g c.shared = n + (c.threads.map f).sum at hsum
    change g s = n + ((c.threads.set i th').map f).sum
    omega

/-- **Accounts without a guard**: a counter that starts as the sum of the local counts
stays their sum; it then covers what the thread that moves has in it. -/
theorem account_invariant {g : σ → ℕ} {f : τ → ℕ}
    (h₀ : ∀ c, init c → g c.shared = (c.threads.map f).sum)
    (hact : ∀ s th x s' th', f th ≤ g s → act s th x = some (.ok (s', th')) →
      g s' + f th = g s + f th')
    (h : (system init act).Reachable c) : g c.shared = (c.threads.map f).sum := by
  refine h.invariant (I := fun c => g c.shared = (c.threads.map f).sum) h₀ ?_
  rintro c ⟨i, x⟩ c' hsum hstep
  obtain ⟨th, s, th', hth, hrun, rfl⟩ := turn_ok hstep
  have hset := sum_map_set (i := i) f th' hth
  have hcover : f th ≤ g c.shared := by
    rw [hsum]
    exact le_sum_of_getElem? f hth
  have hgf := hact _ _ _ _ _ hcover hrun
  change g s = ((c.threads.set i th').map f).sum
  omega

/-- **Programs**: what no section changes in a thread stays as it was, thread by
thread. -/
theorem map_invariant {β : Type*} {f : τ → β} {l : List β}
    (h₀ : ∀ c, init c → c.threads.map f = l)
    (hact : ∀ s th x s' th', act s th x = some (.ok (s', th')) → f th' = f th)
    (h : (system init act).Reachable c) : c.threads.map f = l := by
  refine h.invariant (I := fun c => c.threads.map f = l) h₀ ?_
  rintro c ⟨i, x⟩ c' hl hstep
  obtain ⟨th, s, th', hth, hrun, rfl⟩ := turn_ok hstep
  have hf : (c.threads.map f)[i]? = some (f th) := by
    rw [List.getElem?_map]
    exact congrArg _ hth
  obtain ⟨hlt, heq⟩ := List.getElem?_eq_some_iff.mp hf
  change (c.threads.set i th').map f = l
  rw [List.map_set, hact _ _ _ _ _ hrun, ← heq, List.set_getElem_self, hl]

/-- A fact about each thread, its number and the shared state. -/
def Each (K : σ → ℕ → τ → Prop) (c : Interleave σ τ) : Prop :=
  ∀ k th, c.threads[k]? = some th → K c.shared k th

/-- A turn keeps `Each` when it gives `K` to its own thread and leaves it to the others. -/
theorem Each.turn {K : σ → ℕ → τ → Prop} {s : σ} {th th' : τ} (hth : c.threads[i]? = some th)
    (hown : K s i th') (hother : ∀ k b, k ≠ i → c.threads[k]? = some b → K s k b) :
    Each K ⟨s, c.threads.set i th'⟩ := by
  intro k b hb
  change (c.threads.set i th')[k]? = some b at hb
  by_cases hk : k = i
  · subst hk
    rw [List.getElem?_set_self (List.getElem?_eq_some_iff.mp hth).1] at hb
    cases hb
    exact hown
  · rw [List.getElem?_set_ne (Ne.symm hk)] at hb
    exact hother k b hk hb

/-- **Freedom from interference**: `K` holds of each thread in every configuration, when a
section gives it to its own thread and leaves it to every other one. -/
theorem each_invariant {K : σ → ℕ → τ → Prop} (h₀ : ∀ c, init c → Each K c)
    (hact : ∀ c i th x s th', (system init act).Reachable c → Each K c →
      c.threads[i]? = some th → act c.shared th x = some (.ok (s, th')) →
      K s i th' ∧ ∀ k b, k ≠ i → c.threads[k]? = some b → K s k b)
    (h : (system init act).Reachable c) : Each K c := by
  refine h.invariant_along h₀ ?_
  rintro c ⟨i, x⟩ c' hr hK hstep
  obtain ⟨th, s, th', hth, hrun, rfl⟩ := turn_ok hstep
  obtain ⟨hown, hother⟩ := hact c i th x s th' hr hK hth hrun
  exact Each.turn hth hown hother

end Rules

/-! ### Runs that are given -/

/-- The turns of a list, one after another. -/
def run (act : Section σ τ χ ε) : Interleave σ τ → List (ℕ × χ) → Option (Interleave σ τ)
  | c, [] => some c
  | c, (i, x) :: ls =>
    match c.turn act i x with
    | some (.ok c') => run act c' ls
    | _ => none

/-- A configuration that a list of turns leads to is reached. -/
theorem reachable_run {init : Interleave σ τ → Prop} {ls : List (ℕ × χ)}
    (h : (system init act).Reachable c) (hrun : run act c ls = some c') :
    (system init act).Reachable c' := by
  induction ls generalizing c with
  | nil =>
    cases hrun
    exact h
  | cons l ls ih =>
    obtain ⟨i, x⟩ := l
    unfold run at hrun
    split at hrun
    · next c₁ hturn => exact ih (.step (l := (i, x)) h trivial hturn) hrun
    · cases hrun

/-! ### Runs that end in a failure -/

/-- Every run from here is finite and ends in a failing section: in each
configuration on the way some thread has something to do, and every turn that
does not fail leads to a configuration of the same kind. -/
inductive Doomed (act : Section σ τ χ ε) : Interleave σ τ → Prop
  | intro {c : Interleave σ τ} (hlive : ∃ i x, (c.turn act i x).isSome)
      (h : ∀ i x c', c.turn act i x = some (.ok c') → Doomed act c') : Doomed act c

/-- **Failure by exhaustion**: turns keep `I`, some thread can always run while
`I` holds, and every turn uses up the measure. -/
theorem doomed_of_measure {I : Interleave σ τ → Prop} (m : Interleave σ τ → ℕ)
    (hlive : ∀ c, I c → ∃ i x, (c.turn act i x).isSome)
    (hstep : ∀ c i x c', I c → c.turn act i x = some (.ok c') → I c' ∧ m c' < m c)
    (h : I c) : Doomed act c := by
  induction hm : m c using Nat.strongRecOn generalizing c with
  | _ n ih =>
    refine .intro (hlive c h) fun i x c' hturn => ?_
    obtain ⟨h', hlt⟩ := hstep c i x c' h hturn
    exact ih (m c') (hm ▸ hlt) h' rfl

end Interleave
end Dsv41Overlay
