import Mathlib.Algebra.Order.BigOperators.Group.Finset
import Dsv41Overlay.Lib.Cta

/-!
# Verifying a thread block

The barriers cut a run of a block into phases. A `Plan` says for each phase what every address
is for: it is frozen, or one thread has it for itself, or all threads change it atomically; and
it says which value an address has when the phase begins. `Safe` is then a statement about one
thread alone: it follows the thread's program with the values that the plan predicts, and
checks that the thread keeps to its permissions and makes the predictions come true. Copies in
flight are part of what a thread has for itself, across barriers too.

If every thread is safe, then so is the block, in any order of its steps (`holds_of_reachable`):
threads never meet at an address that one of them changes, no thread waits for ever
(`exists_step`), every run ends (`Holds.accessible`), and at the end memory holds what the plan
says (`mem_of_finished`).
-/

namespace Dsv41Overlay.Cta

universe u₁ u₂ u₃ u₄ u₅

/-- What an address is for in a phase. With `acc`, all threads may change it atomically; `top`
is the thread that brings it to its last value. -/
inductive Perm (T : Type u₁)
  | frozen
  | owned (t : T)
  | acc (top : T)

/-- What is planned for a block of `phases` barriers. -/
structure Plan (T : Type u₁) (A : Type u₂) (V : Type u₃) (X : Type u₄) (W : Type u₅) where
  warp : T → W
  phases : ℕ
  perm : ℕ → A → Perm T
  /-- The value with which a phase begins. -/
  val : ℕ → A → V
  /-- What a value that is changed atomically stays within. -/
  within : ℕ → A → V → Prop
  /-- What a thread gives to its exchange number `i`. -/
  deposit : ℕ → T → V
  /-- How many exchanges a warp has made at the end of a phase. -/
  exchanges : ℕ → W → ℕ
  /-- The copies that a thread may have in flight in a phase. -/
  flight : ℕ → T → A → V → Prop
  /-- The notes that a thread may pass in a phase, by where it has copies in flight. -/
  noted : ℕ → T → X → (A → Prop) → Prop
  frozen_val : ∀ p a, perm p a = .frozen → val (p + 1) a = val p a
  within_val : ∀ p a top, perm p a = .acc top → within p a (val p a)

/-- What a thread knows: the memory that it has for itself, its copies in flight with their
groups, and which shared values it has brought to their last one. -/
structure View (A : Type u₂) (V : Type u₃) where
  mem : A → V
  pend : A → Option (V × ℕ)
  committed : ℕ
  hit : A → Prop

variable {T : Type u₁} {A : Type u₂} {V : Type u₃} {X : Type u₄} {W : Type u₅}

/-- The thread has waited for all but its last `n` groups. -/
def View.wait (v : View A V) (n : ℕ) : View A V where
  mem a := match v.pend a with
    | some (x, g) => if g + n < v.committed then x else v.mem a
    | none => v.mem a
  pend a := match v.pend a with
    | some (x, g) => if g + n < v.committed then none else some (x, g)
    | none => none
  committed := v.committed
  hit := v.hit

namespace Plan

variable (P : Plan T A V X W)

/-- What a thread begins a phase with: copies in flight stay in flight. -/
def enter (p : ℕ) (v : View A V) : View A V where
  mem := P.val p
  pend := v.pend
  committed := v.committed
  hit _ := False

/-- The thread may end the phase. -/
structure Closes (t : T) (p : ℕ) (v : View A V) : Prop where
  mem : ∀ a, P.perm p a = .owned t → v.pend a = none → v.mem a = P.val (p + 1) a
  pend : ∀ a, v.pend a ≠ none → P.perm (p + 1) a = .owned t
  acc : ∀ a, P.perm p a = .acc t → v.hit a ∨ P.val p a = P.val (p + 1) a
  flight : ∀ a x g, v.pend a = some (x, g) → P.flight (p + 1) t a x

/-- The value that a thread reads. -/
inductive Reads (t : T) (p : ℕ) (v : View A V) (a : A) : V → Prop
  | frozen (h : P.perm p a = .frozen) : Reads t p v a (P.val p a)
  | owned (h : P.perm p a = .owned t) (hpend : v.pend a = none) : Reads t p v a (v.mem a)

variable [DecidableEq A]

/-- The program of thread `t` is safe from phase `p` and exchange `i` on, and has `n`
operations left. -/
def Safe (t : T) : Prog T A V X → ℕ → ℕ → ℕ → View A V → Prop
  | .done, n, p, i, v =>
    n = 0 ∧ p = P.phases ∧ i = P.exchanges p (P.warp t) ∧ P.Closes t p v ∧ ∀ a, v.pend a = none
  | .load a k, n, p, i, v => ∃ m x, n = m + 1 ∧ P.Reads t p v a x ∧ Safe t (k x) m p i v
  | .store a x k, n, p, i, v => ∃ m, n = m + 1 ∧ P.perm p a = .owned t ∧ v.pend a = none ∧
      Safe t k m p i { v with mem := Function.update v.mem a x }
  | .atomic a f k, n, p, i, v => ∃ m top, n = m + 1 ∧ P.perm p a = .acc top ∧
      (∀ x, P.within p a x → P.within p a (f x)) ∧ f (P.val (p + 1) a) = P.val (p + 1) a ∧
      Safe t k m p i
        { v with hit := fun b => v.hit b ∨ b = a ∧ ∀ x, P.within p a x → f x = P.val (p + 1) a }
  | .shfl x src k, n, p, i, v => ∃ m, n = m + 1 ∧ x = P.deposit i t ∧ P.warp src = P.warp t ∧
      i < P.exchanges p (P.warp t) ∧ Safe t (k (P.deposit i src)) m p (i + 1) v
  | .copy a x k, n, p, i, v => ∃ m, n = m + 1 ∧ P.perm p a = .owned t ∧ v.pend a = none ∧
      P.flight p t a x ∧
      Safe t k m p i { v with pend := Function.update v.pend a (some (x, v.committed)) }
  | .commit k, n, p, i, v => ∃ m, n = m + 1 ∧
      Safe t k m p i { v with committed := v.committed + 1 }
  | .wait d k, n, p, i, v => ∃ m, n = m + 1 ∧ Safe t k m p i (v.wait d)
  | .sync k, n, p, i, v => ∃ m, n = m + 1 ∧ p < P.phases ∧ i = P.exchanges p (P.warp t) ∧
      P.Closes t p v ∧ Safe t k m (p + 1) i (P.enter (p + 1) v)
  | .note x k, n, p, i, v => ∃ m, n = m + 1 ∧ P.noted p t x (fun a => v.pend a ≠ none) ∧
      Safe t k m p i v

/-! ### The block between two barriers -/

/-- A thread's copies are those that it knows of, and the landed ones have landed. -/
structure Agrees (mem : A → V) (th : Thread T A V X) (v : View A V) : Prop where
  committed : th.committed = v.committed
  pend : ∀ c ∈ th.copies, v.pend c.dst = some (c.val, c.group)
  landed : ∀ c ∈ th.copies, c.landed = true → mem c.dst = c.val
  exists_copy : ∀ a x g, v.pend a = some (x, g) →
    ∃ c ∈ th.copies, c.dst = a ∧ c.val = x ∧ c.group = g

omit [DecidableEq A] in
/-- What a thread does next is no matter of its copies. -/
theorem Agrees.goto {mem : A → V} {th : Thread T A V X} {v : View A V} (h : Agrees mem th v)
    (k : Prog T A V X) : Agrees mem { th with prog := k } v :=
  ⟨h.committed, h.pend, h.landed, h.exists_copy⟩

/-- The block is in phase `p`, the warps have made `c` exchanges, and each thread `t` is safe
with what it knows and has `n t` operations left. -/
structure Holds (p : ℕ) (c : W → ℕ) (n : T → ℕ) (v : T → View A V) (s : State T A V X) :
    Prop where
  safe : ∀ t, P.Safe t (s.thread t).prog (n t) p (c (P.warp t)) (v t)
  frozen : ∀ a, P.perm p a = .frozen → s.mem a = P.val p a
  owned : ∀ t a, P.perm p a = .owned t → (v t).pend a = none → s.mem a = (v t).mem a
  pend : ∀ t a, (v t).pend a ≠ none → P.perm p a = .owned t
  within : ∀ a top, P.perm p a = .acc top → P.within p a (s.mem a)
  acc : ∀ a top, P.perm p a = .acc top → (v top).hit a ∨ P.val p a = P.val (p + 1) a →
    s.mem a = P.val (p + 1) a
  agrees : ∀ t, Agrees s.mem (s.thread t) (v t)
  flight : ∀ t a x g, (v t).pend a = some (x, g) → P.flight p t a x

namespace Holds

variable {P} [DecidableEq T] {p : ℕ} {c : W → ℕ} {n : T → ℕ} {v : T → View A V}
  {s : State T A V X}

/-- **One thread goes on**: it changes memory only where it has an address for itself, so that
nothing another thread knows changes. -/
theorem put (h : P.Holds p c n v s) {t : T} {mem' : A → V} {th' : Thread T A V X} {m : ℕ}
    {w : View A V} (hsafe : P.Safe t th'.prog m p (c (P.warp t)) w)
    (hmem : ∀ a, P.perm p a ≠ .owned t → mem' a = s.mem a)
    (howned : ∀ a, P.perm p a = .owned t → w.pend a = none → mem' a = w.mem a)
    (hpend : ∀ a, w.pend a ≠ none → P.perm p a = .owned t) (hhit : w.hit = (v t).hit)
    (hagrees : Agrees mem' th' w)
    (hflight : ∀ a x g, w.pend a = some (x, g) → P.flight p t a x) :
    P.Holds p c (Function.update n t m) (Function.update v t w) (s.put mem' t th') where
  safe t' := by
    -- this thread, or another one
    by_cases ht : t' = t
    · subst ht
      simpa only [State.put, Function.update_self] using hsafe
    · simpa only [State.put, Function.update_of_ne ht] using h.safe t'
  frozen a ha := (hmem a (by rw [ha]; exact nofun)).trans (h.frozen a ha)
  owned t' a ha hnone := by
    by_cases ht : t' = t
    · subst ht
      rw [Function.update_self] at hnone ⊢
      exact howned a ha hnone
    · rw [Function.update_of_ne ht] at hnone ⊢
      refine (hmem a ?_).trans (h.owned t' a ha hnone)
      rw [ha]
      exact fun heq => ht (Perm.owned.inj heq)
  pend t' a hsome := by
    by_cases ht : t' = t
    · subst ht
      rw [Function.update_self] at hsome
      exact hpend a hsome
    · rw [Function.update_of_ne ht] at hsome
      exact h.pend t' a hsome
  within a top ha := by
    show P.within p a (mem' a)
    rw [hmem a (by rw [ha]; exact nofun)]
    exact h.within a top ha
  acc a top ha hlast := by
    refine (hmem a (by rw [ha]; exact nofun)).trans (h.acc a top ha ?_)
    by_cases ht : top = t
    · subst ht
      rwa [Function.update_self, hhit] at hlast
    · rwa [Function.update_of_ne ht] at hlast
  agrees t' := by
    by_cases ht : t' = t
    · subst ht
      simpa only [State.put, Function.update_self] using hagrees
    · obtain ⟨hcommitted, hp, hlanded, hexists⟩ := h.agrees t'
      simp only [State.put, Function.update_of_ne ht]
      refine ⟨hcommitted, hp, fun d hd hl => ?_, hexists⟩
      -- what the other thread has in flight is not this thread's
      have hperm := h.pend t' d.dst (by rw [hp d hd]; exact nofun)
      refine (hmem d.dst ?_).trans (hlanded d hd hl)
      rw [hperm]
      exact fun heq => ht (Perm.owned.inj heq)
  flight t' a x g hsome := by
    by_cases ht : t' = t
    · subst ht
      rw [Function.update_self] at hsome
      exact hflight a x g hsome
    · rw [Function.update_of_ne ht] at hsome
      exact h.flight t' a x g hsome

/-- The same where memory and copies stay as they are, whatever the thread has passed. -/
theorem note (h : P.Holds p c n v s) {t : T} {k : Prog T A V X} {m : ℕ} {passed : List X}
    (hsafe : P.Safe t k m p (c (P.warp t)) (v t)) :
    P.Holds p c (Function.update n t m) v
      (s.put s.mem t { s.thread t with prog := k, passed := passed }) := by
  have hagrees : Agrees s.mem { s.thread t with prog := k, passed := passed } (v t) := by
    obtain ⟨hcommitted, hp, hlanded, hexists⟩ := h.agrees t
    exact ⟨hcommitted, hp, hlanded, hexists⟩
  have hput : P.Holds p c (Function.update n t m) (Function.update v t (v t))
      (s.put s.mem t { s.thread t with prog := k, passed := passed }) :=
    h.put hsafe (fun _ _ => rfl) (h.owned t) (h.pend t) rfl hagrees (h.flight t)
  rwa [Function.update_eq_self] at hput

/-- The thread goes on without a note. -/
theorem advance (h : P.Holds p c n v s) {t : T} {k : Prog T A V X} {m : ℕ}
    (hsafe : P.Safe t k m p (c (P.warp t)) (v t)) :
    P.Holds p c (Function.update n t m) v (s.put s.mem t { s.thread t with prog := k }) :=
  h.note hsafe

omit [DecidableEq T] in
/-- What a thread reads is in memory. -/
theorem reads (h : P.Holds p c n v s) {t : T} {a : A} {x : V} (hx : P.Reads t p (v t) a x) :
    s.mem a = x := by
  cases hx with
  | frozen ha => exact h.frozen a ha
  | owned ha hnone => exact h.owned t a ha hnone

theorem store (h : P.Holds p c n v s) {t : T} {a : A} {x : V} {k : Prog T A V X} {m : ℕ}
    (hperm : P.perm p a = .owned t) (hnone : (v t).pend a = none)
    (hsafe : P.Safe t k m p (c (P.warp t))
      { v t with mem := Function.update (v t).mem a x }) :
    P.Holds p c (Function.update n t m)
      (Function.update v t { v t with mem := Function.update (v t).mem a x })
      (s.put (Function.update s.mem a x) t { s.thread t with prog := k }) := by
  refine h.put hsafe (fun b hb => ?_) (fun b hb hn => ?_) (h.pend t) rfl ?_
    (h.flight t)
  -- only this address has changed
  · exact Function.update_of_ne (by rintro rfl; exact hb hperm) _ _
  · by_cases hba : b = a
    · subst hba
      exact (Function.update_self b x s.mem).trans (Function.update_self b x (v t).mem).symm
    · exact (Function.update_of_ne hba x s.mem).trans
        ((h.owned t b hb hn).trans (Function.update_of_ne hba x (v t).mem).symm)
  · obtain ⟨hcommitted, hp, hlanded, hexists⟩ := h.agrees t
    refine ⟨hcommitted, hp, fun d hd hl => ?_, hexists⟩
    -- the address is not one of a copy in flight
    rw [Function.update_of_ne]
    · exact hlanded d hd hl
    · rintro rfl
      cases (hp d hd).symm.trans hnone

theorem copy (h : P.Holds p c n v s) {t : T} {a : A} {x : V} {k : Prog T A V X} {m : ℕ}
    (junk : V) (hperm : P.perm p a = .owned t) (hnone : (v t).pend a = none)
    (hflight : P.flight p t a x)
    (hsafe : P.Safe t k m p (c (P.warp t))
      { v t with pend := Function.update (v t).pend a (some (x, (v t).committed)) }) :
    P.Holds p c (Function.update n t m)
      (Function.update v t
        { v t with pend := Function.update (v t).pend a (some (x, (v t).committed)) })
      (s.put (Function.update s.mem a junk) t
        { s.thread t with
          prog := k
          copies := (s.thread t).copies ++ [⟨a, x, (s.thread t).committed, false⟩] }) := by
  refine h.put hsafe (fun b hb => ?_) (fun b hb hn => ?_) (fun b hb => ?_) rfl ?_
    (fun b y g hb => ?_)
  · exact Function.update_of_ne (by rintro rfl; exact hb hperm) _ _
  -- an address without a copy in flight is another one
  · have hba : b ≠ a := by
      rintro rfl
      cases (Function.update_self b _ (v t).pend).symm.trans hn
    have hn' : (v t).pend b = none := (Function.update_of_ne hba _ _).symm.trans hn
    rw [Function.update_of_ne hba]
    exact h.owned t b hb hn'
  · by_cases hba : b = a
    · subst hba
      exact hperm
    · exact h.pend t b fun hn => hb ((Function.update_of_ne hba _ _).trans hn)
  · obtain ⟨hcommitted, hp, hlanded, hexists⟩ := h.agrees t
    have hne : ∀ d ∈ (s.thread t).copies, d.dst ≠ a := by
      rintro d hd rfl
      cases (hp d hd).symm.trans hnone
    refine ⟨hcommitted, fun d hd => ?_, fun d hd hl => ?_, fun b y g hb => ?_⟩
    -- the copies before this one, and this one
    · obtain hd | hd := List.mem_append.mp hd
      · exact (Function.update_of_ne (hne d hd) _ _).trans (hp d hd)
      · obtain rfl := List.mem_singleton.mp hd
        rw [hcommitted]
        exact Function.update_self _ _ _
    · obtain hd | hd := List.mem_append.mp hd
      · rw [Function.update_of_ne (hne d hd)]
        exact hlanded d hd hl
      · obtain rfl := List.mem_singleton.mp hd
        cases hl
    -- what is in flight is this copy or an earlier one
    · by_cases hba : b = a
      · subst hba
        have heq := (Function.update_self b _ (v t).pend).symm.trans hb
        obtain ⟨rfl, rfl⟩ := Prod.mk.inj (Option.some.inj heq)
        exact ⟨_, List.mem_append_right _ List.mem_cons_self, rfl, rfl, hcommitted⟩
      · obtain ⟨d, hd, hrest⟩ :=
          hexists b y g ((Function.update_of_ne hba _ _).symm.trans hb)
        exact ⟨d, List.mem_append_left _ hd, hrest⟩
  · by_cases hba : b = a
    · subst hba
      have heq := (Function.update_self b _ (v t).pend).symm.trans hb
      obtain ⟨rfl, -⟩ := Prod.mk.inj (Option.some.inj heq)
      exact hflight
    · exact h.flight t b y g ((Function.update_of_ne hba _ _).symm.trans hb)

theorem commit (h : P.Holds p c n v s) {t : T} {k : Prog T A V X} {m : ℕ}
    (hsafe : P.Safe t k m p (c (P.warp t)) { v t with committed := (v t).committed + 1 }) :
    P.Holds p c (Function.update n t m)
      (Function.update v t { v t with committed := (v t).committed + 1 })
      (s.put s.mem t
        { s.thread t with prog := k, committed := (s.thread t).committed + 1 }) := by
  refine h.put hsafe (fun _ _ => rfl) (h.owned t) (h.pend t) rfl ?_ (h.flight t)
  obtain ⟨hcommitted, hp, hlanded, hexists⟩ := h.agrees t
  exact ⟨congrArg (· + 1) hcommitted, hp, hlanded, hexists⟩

theorem wait (h : P.Holds p c n v s) {t : T} {d : ℕ} {k : Prog T A V X} {m : ℕ}
    (hlanded : ∀ e ∈ (s.thread t).copies, e.group + d < (s.thread t).committed →
      e.landed = true)
    (hsafe : P.Safe t k m p (c (P.warp t)) ((v t).wait d)) :
    P.Holds p c (Function.update n t m) (Function.update v t ((v t).wait d))
      (s.put s.mem t
        { s.thread t with
          prog := k
          copies := (s.thread t).copies.filter fun e =>
            decide ¬ e.group + d < (s.thread t).committed }) := by
  obtain ⟨hcommitted, hp, hl, hexists⟩ := h.agrees t
  -- what is in flight afterwards was in flight, in one of the last groups
  have hwait : ∀ a x g, ((v t).wait d).pend a = some (x, g) →
      (v t).pend a = some (x, g) ∧ ¬ g + d < (v t).committed := by
    intro a x g ha
    simp only [View.wait] at ha
    cases hpend : (v t).pend a with
    | none => simp [hpend] at ha
    | some y =>
      obtain ⟨y, g'⟩ := y
      simp only [hpend] at ha
      split at ha
      · cases ha
      · rename_i hlt
        obtain ⟨rfl, rfl⟩ := Prod.mk.inj (Option.some.inj ha)
        exact ⟨rfl, hlt⟩
  refine h.put hsafe (fun _ _ => rfl) (fun a ha hnone => ?_) (fun a ha => ?_) rfl ?_
    (fun a x g ha => ?_)
  -- either nothing was in flight there, or it has landed
  · cases hpend : (v t).pend a with
    | none =>
      simp only [View.wait, hpend]
      exact h.owned t a ha hpend
    | some y =>
      obtain ⟨x, g⟩ := y
      simp only [View.wait, hpend] at hnone ⊢
      split at hnone
      · -- the copy has landed
        rename_i hlt
        obtain ⟨e, he, rfl, rfl, rfl⟩ := hexists a x g hpend
        rw [if_pos hlt]
        exact hl e he (hlanded e he (hcommitted ▸ hlt))
      · cases hnone
  · refine h.pend t a fun hn => ha ?_
    simp only [View.wait, hn]
  · refine ⟨hcommitted, fun e he => ?_, fun e he => hl e (List.mem_of_mem_filter he),
      fun a x g ha => ?_⟩
    -- what is left is of the last groups
    · obtain ⟨he, hlt⟩ := List.mem_filter.mp he
      have hlt : ¬ e.group + d < (v t).committed := hcommitted ▸ of_decide_eq_true hlt
      simp only [View.wait, hp e he, if_neg hlt]
    · obtain ⟨hpend, hlt⟩ := hwait a x g ha
      obtain ⟨e, he, rfl, rfl, rfl⟩ := hexists a x g hpend
      refine ⟨e, List.mem_filter.mpr ⟨he, decide_eq_true ?_⟩, rfl, rfl, rfl⟩
      rwa [hcommitted]
  · exact h.flight t a x g (hwait a x g ha).1

/-- **A copy lands** where nobody looks. -/
theorem land (h : P.Holds p c n v s) {t : T} {c₁ c₂ : List (Copy A V)} {d : Copy A V}
    (hcopies : (s.thread t).copies = c₁ ++ d :: c₂) :
    P.Holds p c n v (s.put (Function.update s.mem d.dst d.val) t
      { s.thread t with copies := c₁ ++ { d with landed := true } :: c₂ }) := by
  obtain ⟨hcommitted, hp, hl, hexists⟩ := h.agrees t
  have hd : d ∈ (s.thread t).copies := by
    rw [hcopies]
    exact List.mem_append_right _ List.mem_cons_self
  have hperm : P.perm p d.dst = .owned t := h.pend t d.dst (by rw [hp d hd]; exact nofun)
  -- the copies afterwards: those from before, this one landed
  have hmem : ∀ e ∈ c₁ ++ { d with landed := true } :: c₂,
      e = { d with landed := true } ∨ e ∈ (s.thread t).copies := by
    intro e he
    rw [hcopies]
    simp only [List.mem_append, List.mem_cons] at he ⊢
    tauto
  suffices hput : P.Holds p c (Function.update n t (n t)) (Function.update v t (v t))
      (s.put (Function.update s.mem d.dst d.val) t
        { s.thread t with copies := c₁ ++ { d with landed := true } :: c₂ }) by
    rwa [Function.update_eq_self, Function.update_eq_self] at hput
  refine h.put (h.safe t) (fun a ha => ?_) (fun a ha hnone => ?_) (h.pend t) rfl ?_
    (h.flight t)
  · exact Function.update_of_ne (by rintro rfl; exact ha hperm) _ _
  · refine (Function.update_of_ne ?_ _ _).trans (h.owned t a ha hnone)
    rintro rfl
    cases (hp d hd).symm.trans hnone
  · refine ⟨hcommitted, fun e he => ?_, fun e he hlanded => ?_, fun a x g ha => ?_⟩
    -- the landed copy is planned as before
    · obtain rfl | he := hmem e he
      · exact hp d hd
      · exact hp e he
    · obtain rfl | he := hmem e he
      · exact Function.update_self _ _ _
      · by_cases hdst : e.dst = d.dst
        · -- a second copy to the same address brings the same value
          have heq : some (e.val, e.group) = some (d.val, d.group) :=
            (hp e he).symm.trans ((congrArg (v t).pend hdst).trans (hp d hd))
          rw [hdst, Function.update_self]
          exact (Prod.mk.inj (Option.some.inj heq)).1.symm
        · rw [Function.update_of_ne hdst]
          exact hl e he hlanded
    · obtain ⟨e, he, rfl, rfl, rfl⟩ := hexists a x g ha
      rw [hcopies] at he
      simp only [List.mem_append, List.mem_cons] at he
      obtain he | rfl | he := he
      · exact ⟨e, List.mem_append_left _ he, rfl, rfl, rfl⟩
      · exact ⟨_, List.mem_append_right _ List.mem_cons_self, rfl, rfl, rfl⟩
      · exact ⟨e, List.mem_append_right _ (List.mem_cons_of_mem _ he), rfl, rfl, rfl⟩

/-- **An atomic change** stays within what is planned, and keeps the last value. -/
theorem atomic (h : P.Holds p c n v s) {t top : T} {a : A} {f : V → V} {k : Prog T A V X}
    {m : ℕ} (hperm : P.perm p a = .acc top)
    (hwithin : ∀ x, P.within p a x → P.within p a (f x))
    (hlast : f (P.val (p + 1) a) = P.val (p + 1) a)
    (hsafe : P.Safe t k m p (c (P.warp t))
      { v t with
        hit := fun b => (v t).hit b ∨ b = a ∧ ∀ x, P.within p a x → f x = P.val (p + 1) a }) :
    P.Holds p c (Function.update n t m)
      (Function.update v t
        { v t with
          hit := fun b => (v t).hit b ∨ b = a ∧ ∀ x, P.within p a x → f x = P.val (p + 1) a })
      (s.put (Function.update s.mem a (f (s.mem a))) t { s.thread t with prog := k }) := by
  -- the views agree in everything but what has been hit
  have hview : ∀ t', (Function.update v t
      { v t with
        hit := fun b => (v t).hit b ∨ b = a ∧ ∀ x, P.within p a x → f x = P.val (p + 1) a }
      t').mem = (v t').mem ∧ (Function.update v t
      { v t with
        hit := fun b => (v t).hit b ∨ b = a ∧ ∀ x, P.within p a x → f x = P.val (p + 1) a }
      t').pend = (v t').pend := by
    intro t'
    by_cases ht : t' = t
    · subst ht
      rw [Function.update_self]
      exact ⟨rfl, rfl⟩
    · rw [Function.update_of_ne ht]
      exact ⟨rfl, rfl⟩
  have hother : ∀ b, P.perm p b ≠ .acc top → Function.update s.mem a (f (s.mem a)) b = s.mem b :=
    fun b hb => Function.update_of_ne (by rintro rfl; exact hb hperm) _ _
  constructor
  case safe =>
    intro t'
    by_cases ht : t' = t
    · subst ht
      simpa only [State.put, Function.update_self] using hsafe
    · simpa only [State.put, Function.update_of_ne ht] using h.safe t'
  case frozen => exact fun b hb => (hother b (by rw [hb]; exact nofun)).trans (h.frozen b hb)
  case owned =>
    intro t' b hb hn
    rw [(hview t').2] at hn
    rw [(hview t').1]
    exact (hother b (by rw [hb]; exact nofun)).trans (h.owned t' b hb hn)
  case pend =>
    intro t' b hb
    rw [(hview t').2] at hb
    exact h.pend t' b hb
  case within =>
    -- the bound holds of the new value, and of the other addresses as before
    intro b top' hb
    show P.within p b (Function.update s.mem a (f (s.mem a)) b)
    by_cases hba : b = a
    · subst hba
      rw [Function.update_self]
      exact hwithin _ (h.within b top' hb)
    · rw [Function.update_of_ne hba]
      exact h.within b top' hb
  case acc =>
    intro b top' hb hhit
    show Function.update s.mem a (f (s.mem a)) b = _
    -- either it had its last value before, or this change brought it there
    have hcases : ((v top').hit b ∨ P.val p b = P.val (p + 1) b) ∨
        b = a ∧ ∀ x, P.within p a x → f x = P.val (p + 1) a := by
      by_cases ht : top' = t
      · subst ht
        rw [Function.update_self] at hhit
        tauto
      · rw [Function.update_of_ne ht] at hhit
        exact .inl hhit
    by_cases hba : b = a
    · subst hba
      rw [Function.update_self]
      obtain hbefore | ⟨-, hf⟩ := hcases
      · rw [h.acc b top' hb hbefore]
        exact hlast
      · exact hf _ (h.within b top' hb)
    · rw [Function.update_of_ne hba]
      obtain hbefore | ⟨rfl, -⟩ := hcases
      · exact h.acc b top' hb hbefore
      · exact absurd rfl hba
  case agrees =>
    intro t'
    have hagrees := h.agrees t'
    -- a landed copy is not in the accumulator
    have hl : ∀ e ∈ (s.thread t').copies, e.landed = true →
        Function.update s.mem a (f (s.mem a)) e.dst = e.val := by
      intro e he hlanded
      have hown := h.pend t' e.dst (by rw [hagrees.pend e he]; exact nofun)
      exact (hother e.dst (by rw [hown]; exact nofun)).trans (hagrees.landed e he hlanded)
    by_cases ht : t' = t
    · subst ht
      simp only [State.put, Function.update_self]
      exact ⟨hagrees.committed, hagrees.pend, hl, hagrees.exists_copy⟩
    · simp only [State.put, Function.update_of_ne ht]
      exact ⟨hagrees.committed, hagrees.pend, hl, hagrees.exists_copy⟩
  case flight =>
    intro t' b x g hb
    rw [(hview t').2] at hb
    exact h.flight t' b x g hb

end Holds

end Plan
end Dsv41Overlay.Cta
