import Dsv41Overlay.Lib.CtaPlan

/-!
# Runs of a planned block

Safe threads make a safe block: what a step of one thread preserves is in
`Dsv41Overlay.Lib.CtaPlan`; here are the steps that threads make together, an exchange inside a
warp (`Holds.shfl`) and a barrier (`Holds.sync`), and what follows for whole runs. Every step
uses something up (`Holds.step`), so that all runs end, and as long as a thread has something
to do there is a step (`Holds.exists_step`).
-/

namespace Dsv41Overlay.Cta

universe u₁ u₂ u₃ u₄ u₅

variable {T : Type u₁} {A : Type u₂} {V : Type u₃} {X : Type u₄} {W : Type u₅}

/-- The next operation is an atomic change. -/
def Prog.IsAtomic : Prog T A V X → Prop
  | .atomic _ _ _ => True
  | _ => False

theorem Prog.Writes.touches {a : A} {prog : Prog T A V X} (h : prog.Writes a) :
    prog.Touches a := by
  cases prog with
  | store | atomic | copy => exact h
  | _ => exact h.elim

/-- Two threads are about to use one address, and one of them to change it, not both
atomically; or a thread is about to use an address to which a copy is in flight. -/
inductive State.Race (s : State T A V X) : Prop
  | threads {t t' : T} {a : A} (hne : t ≠ t') (hwrites : (s.thread t).prog.Writes a)
    (htouches : (s.thread t').prog.Touches a)
    (hatomic : ¬ ((s.thread t).prog.IsAtomic ∧ (s.thread t').prog.IsAtomic))
  | copy {t t' : T} {a : A} {x : V} (hcopy : s.Outstanding t a x)
    (htouches : (s.thread t').prog.Touches a)

namespace Plan

variable {P : Plan T A V X W} [DecidableEq A] {p : ℕ} {c : W → ℕ} {n : T → ℕ} {v : T → View A V}
  {s : State T A V X}

/-! ### Exchanges and barriers -/

theorem Holds.shfl [DecidableEq W] (h : P.Holds p c n v s) {t₀ : T} {x : T → V} {src : T → T}
    {k : T → V → Prog T A V X}
    (hprog : ∀ t, P.warp t = P.warp t₀ → (s.thread t).prog = .shfl (x t) (src t) (k t)) :
    P.Holds p (Function.update c (P.warp t₀) (c (P.warp t₀) + 1))
      (fun t => if P.warp t = P.warp t₀ then n t - 1 else n t) v
      (s.goto fun t => if P.warp t = P.warp t₀ then k t (x (src t)) else (s.thread t).prog) := by
  have hsafe : ∀ t, P.warp t = P.warp t₀ → P.Safe t (.shfl (x t) (src t) (k t)) (n t) p
      (c (P.warp t₀)) (v t) := by
    intro t ht
    have hs := h.safe t
    rwa [hprog t ht, ht] at hs
  refine ⟨fun t => ?_, h.frozen, h.owned, h.pend, h.within, h.acc,
    fun t => (h.agrees t).goto _, h.flight⟩
  by_cases ht : P.warp t = P.warp t₀
  · obtain ⟨m, hm, -, hsrc, -, hk⟩ := hsafe t ht
    -- what the source gives is what is planned for it
    obtain ⟨-, -, hx, -⟩ := hsafe (src t) (hsrc.trans ht)
    simp only [State.goto, ht, Function.update_self, hm, Nat.add_sub_cancel]
    rwa [hx]
  · simp only [State.goto, if_neg ht, Function.update_of_ne ht]
    exact h.safe t

/-- At a barrier, memory is what the next phase begins with, or a copy is in flight. -/
theorem Holds.closes (h : P.Holds p c n v s) (hcloses : ∀ t, P.Closes t p (v t)) (a : A) :
    s.mem a = P.val (p + 1) a ∨ ∃ t, P.perm (p + 1) a = .owned t ∧ (v t).pend a ≠ none := by
  cases ha : P.perm p a with
  | frozen => exact .inl ((h.frozen a ha).trans (P.frozen_val p a ha).symm)
  | owned t =>
    by_cases hnone : (v t).pend a = none
    · exact .inl ((h.owned t a ha hnone).trans ((hcloses t).mem a ha hnone))
    · exact .inr ⟨t, (hcloses t).pend a hnone, hnone⟩
  | acc top => exact .inl (h.acc a top ha ((hcloses top).acc a ha))

theorem Holds.sync (h : P.Holds p c n v s) {k : T → Prog T A V X}
    (hprog : ∀ t, (s.thread t).prog = .sync (k t)) :
    P.Holds (p + 1) c (fun t => n t - 1) (fun t => P.enter (p + 1) (v t)) (s.goto k) := by
  have hsafe : ∀ t, P.Safe t (.sync (k t)) (n t) p (c (P.warp t)) (v t) := by
    intro t
    have hs := h.safe t
    rwa [hprog t] at hs
  have hcloses : ∀ t, P.Closes t p (v t) := by
    intro t
    obtain ⟨-, -, -, -, hc, -⟩ := hsafe t
    exact hc
  -- where no thread has a copy in flight
  have hval : ∀ a, (∀ t, P.perm (p + 1) a = .owned t → (v t).pend a = none) →
      s.mem a = P.val (p + 1) a := by
    intro a ha
    obtain hmem | ⟨t, hperm, hpend⟩ := h.closes hcloses a
    · exact hmem
    · exact absurd (ha t hperm) hpend
  constructor
  case safe =>
    intro t
    obtain ⟨m, hm, -, -, -, hk⟩ := hsafe t
    simpa only [State.goto, hm, Nat.add_sub_cancel] using hk
  case frozen => exact fun a ha => hval a fun t ht => by rw [ha] at ht; cases ht
  case owned =>
    intro t a ha hnone
    refine hval a fun t' ht' => ?_
    obtain rfl : t = t' := Perm.owned.inj (ha.symm.trans ht')
    exact hnone
  case pend => exact fun t a ha => (hcloses t).pend a ha
  case within =>
    intro a top ha
    show P.within (p + 1) a (s.mem a)
    rw [hval a fun t ht => by rw [ha] at ht; cases ht]
    exact P.within_val (p + 1) a top ha
  case acc =>
    intro a top ha hlast
    refine (hval a fun t ht => by rw [ha] at ht; cases ht).trans ?_
    exact hlast.resolve_left id
  case agrees =>
    intro t
    obtain ⟨hcommitted, hp, hl, hexists⟩ := (h.agrees t).goto (k t)
    exact ⟨hcommitted, hp, hl, hexists⟩
  case flight => exact fun t a x g ha => (hcloses t).flight a x g ha

/-! ### What is left to do -/

/-- The copies of a thread that have not landed. -/
def unlanded (th : Thread T A V X) : ℕ := th.copies.countP fun d => !d.landed

/-- What is left to do. -/
def size [Fintype T] (n : T → ℕ) (s : State T A V X) : ℕ :=
  ∑ t, (2 * n t + unlanded (s.thread t))

variable [Fintype T]

omit [DecidableEq A] in
/-- One thread uses something up. -/
theorem size_put_lt [DecidableEq T] {mem : A → V} {t : T} {th : Thread T A V X} {m : ℕ}
    (hlt : 2 * m + unlanded th < 2 * n t + unlanded (s.thread t)) :
    size (Function.update n t m) (s.put mem t th) < size n s := by
  refine Finset.sum_lt_sum (fun t' _ => ?_) ⟨t, Finset.mem_univ t, ?_⟩
  · by_cases ht : t' = t
    · subst ht
      simpa only [State.put, Function.update_self] using Nat.le_of_lt hlt
    · simp only [State.put, Function.update_of_ne ht, Nat.le_refl]
  · simpa only [State.put, Function.update_self] using hlt

omit [DecidableEq A] in
/-- Some threads go on together. -/
theorem size_goto_lt {n' : T → ℕ} {prog : T → Prog T A V X} {t : T}
    (hle : ∀ t, n' t ≤ n t) (hlt : n' t < n t) : size n' (s.goto prog) < size n s := by
  refine Finset.sum_lt_sum (fun t' _ => ?_) ⟨t, Finset.mem_univ t, ?_⟩
  · exact Nat.add_le_add_right (Nat.mul_le_mul_left 2 (hle t')) _
  · exact Nat.add_lt_add_right (Nat.mul_lt_mul_of_pos_left hlt (by decide)) _

/-! ### Steps -/

variable [DecidableEq T] [DecidableEq W]

/-- **A step keeps the block to its plan**, and uses something up. -/
theorem Holds.step (h : P.Holds p c n v s) {s' : State T A V X} (hstep : Step P.warp s s') :
    ∃ p' c' n' v', P.Holds p' c' n' v' s' ∧ size n' s' < size n s := by
  cases hstep with
  | @load t a k hprog =>
    have hs := h.safe t
    rw [hprog] at hs
    obtain ⟨m, x, hm, hreads, hk⟩ := hs
    rw [← h.reads hreads] at hk
    exact ⟨_, _, _, _, h.advance hk, size_put_lt (Nat.add_lt_add_right (by omega) _)⟩
  | @store t a x k hprog =>
    have hs := h.safe t
    rw [hprog] at hs
    obtain ⟨m, hm, hperm, hnone, hk⟩ := hs
    exact ⟨_, _, _, _, h.store hperm hnone hk, size_put_lt (Nat.add_lt_add_right (by omega) _)⟩
  | @atomic t a f k hprog =>
    have hs := h.safe t
    rw [hprog] at hs
    obtain ⟨m, top, hm, hperm, hwithin, hlast, hk⟩ := hs
    exact ⟨_, _, _, _, h.atomic hperm hwithin hlast hk,
      size_put_lt (Nat.add_lt_add_right (by omega) _)⟩
  | shfl t₀ x src k hprog =>
    have hs := h.safe t₀
    rw [hprog t₀ rfl] at hs
    obtain ⟨m, hm, -⟩ := hs
    refine ⟨_, _, _, _, h.shfl hprog, size_goto_lt (t := t₀) (fun t => ?_) ?_⟩
    · split
      · exact Nat.sub_le _ _
      · exact Nat.le_refl _
    · rw [if_pos rfl]
      omega
  | @copy t a x k junk hprog =>
    have hs := h.safe t
    rw [hprog] at hs
    obtain ⟨m, hm, hperm, hnone, hflight, hk⟩ := hs
    refine ⟨_, _, _, _, h.copy junk hperm hnone hflight hk, size_put_lt ?_⟩
    -- one copy more, one operation less
    simp only [unlanded, List.countP_append, List.countP_singleton, Bool.not_false, if_true]
    omega
  | @commit t k hprog =>
    have hs := h.safe t
    rw [hprog] at hs
    obtain ⟨m, hm, hk⟩ := hs
    exact ⟨_, _, _, _, h.commit hk, size_put_lt (Nat.add_lt_add_right (by omega) _)⟩
  | @wait t d k hprog hlanded =>
    have hs := h.safe t
    rw [hprog] at hs
    obtain ⟨m, hm, hk⟩ := hs
    refine ⟨_, _, _, _, h.wait hlanded hk, size_put_lt ?_⟩
    exact Nat.add_lt_add_of_lt_of_le (by omega) List.filter_sublist.countP_le
  | sync t₀ k hprog =>
    have hs := h.safe t₀
    rw [hprog t₀] at hs
    obtain ⟨m, hm, -⟩ := hs
    exact ⟨_, _, _, _, h.sync hprog, size_goto_lt (t := t₀) (fun t => Nat.sub_le _ _) (by omega)⟩
  | @note t x k hprog =>
    have hs := h.safe t
    rw [hprog] at hs
    obtain ⟨m, hm, -, hk⟩ := hs
    exact ⟨_, _, _, _, h.note hk, size_put_lt (Nat.add_lt_add_right (by omega) _)⟩
  | @land t c₁ c₂ d hcopies hd =>
    have hland := h.land hcopies
    refine ⟨p, c, Function.update n t (n t), v, ?_, size_put_lt ?_⟩
    · rwa [Function.update_eq_self]
    · simp only [unlanded, hcopies, List.countP_append, List.countP_cons, hd, Bool.not_true,
        Bool.not_false, if_true, Bool.false_eq_true, if_false]
      omega

omit [Fintype T] in
/-- A thread that cannot go on alone is at its end, or waits for others. -/
theorem exists_own_step (warp : T → W) (hland : ∀ t, unlanded (s.thread t) = 0) (t : T) :
    (∃ s', Step warp s s') ∨ (s.thread t).prog = .done ∨
      (∃ x src k, (s.thread t).prog = .shfl x src k) ∨ ∃ k, (s.thread t).prog = .sync k := by
  cases hprog : (s.thread t).prog with
  | done => exact .inr (.inl rfl)
  | load a k => exact .inl ⟨_, .load hprog⟩
  | store a x k => exact .inl ⟨_, .store hprog⟩
  | atomic a f k => exact .inl ⟨_, .atomic hprog⟩
  | shfl x src k => exact .inr (.inr (.inl ⟨x, src, k, rfl⟩))
  | copy a x k => exact .inl ⟨_, .copy x hprog⟩
  | commit k => exact .inl ⟨_, .commit hprog⟩
  | wait d k =>
    refine .inl ⟨_, .wait hprog fun e he _ => ?_⟩
    simpa using List.countP_eq_zero.mp (hland t) e he
  | sync k => exact .inr (.inr (.inr ⟨k, rfl⟩))
  | note x k => exact .inl ⟨_, .note hprog⟩

omit [Fintype T] in
/-- **No thread waits for ever.** -/
theorem Holds.exists_step (h : P.Holds p c n v s)
    (hnot : ¬ (s.Finished ∧ ∀ t, unlanded (s.thread t) = 0)) : ∃ s', Step P.warp s s' := by
  by_cases hland : ∀ t, unlanded (s.thread t) = 0
  swap
  · -- a copy can land
    push Not at hland
    obtain ⟨t, ht⟩ := hland
    obtain ⟨d, hd, hdl⟩ := List.countP_pos_iff.mp (Nat.pos_of_ne_zero ht)
    obtain ⟨c₁, c₂, hcopies⟩ := List.append_of_mem hd
    exact ⟨_, .land hcopies (by simpa using hdl)⟩
  by_contra hstuck
  have hcases := fun t => (exists_own_step P.warp hland t).resolve_left hstuck
  -- a warp whose phase has an exchange left is at that exchange
  have hexchange : ∀ t, c (P.warp t) < P.exchanges p (P.warp t) →
      ∃ x src k, (s.thread t).prog = .shfl x src k := by
    intro t hlt
    have hs := h.safe t
    obtain hprog | hprog | ⟨k, hprog⟩ := hcases t
    · rw [hprog] at hs
      have := hs.2.2.1
      omega
    · exact hprog
    · rw [hprog] at hs
      obtain ⟨-, -, -, hi, -⟩ := hs
      omega
  have hnoshfl : ∀ t, ¬ ∃ x src k, (s.thread t).prog = .shfl x src k := by
    rintro t₀ ⟨x, src, k, hprog⟩
    have hs := h.safe t₀
    rw [hprog] at hs
    obtain ⟨-, -, -, -, hlt, -⟩ := hs
    have hwarp : ∀ t, ∃ x src k, P.warp t = P.warp t₀ → (s.thread t).prog = .shfl x src k := by
      intro t
      by_cases ht : P.warp t = P.warp t₀
      · obtain ⟨x, src, k, hk⟩ := hexchange t (by rwa [ht])
        exact ⟨x, src, k, fun _ => hk⟩
      · exact ⟨x, src, k, fun ht' => absurd ht' ht⟩
    choose x src k hk using hwarp
    exact hstuck ⟨_, .shfl t₀ x src k hk⟩
  have hmeet := fun t => (hcases t).imp_right fun hprog => hprog.resolve_left (hnoshfl t)
  -- whether a thread is done is the same for all of them
  by_cases hp : p < P.phases
  · have hsync : ∀ t, ∃ k, (s.thread t).prog = .sync k := by
      intro t
      refine (hmeet t).resolve_left fun hprog => ?_
      have hs := h.safe t
      rw [hprog] at hs
      have := hs.2.1
      omega
    obtain hempty | ⟨⟨t₀⟩⟩ := isEmpty_or_nonempty T
    · exact hnot ⟨hempty.elim, hland⟩
    · choose k hk using hsync
      exact hstuck ⟨_, .sync t₀ k hk⟩
  · refine hnot ⟨fun t => (hmeet t).resolve_right ?_, hland⟩
    rintro ⟨k, hprog⟩
    have hs := h.safe t
    rw [hprog] at hs
    obtain ⟨-, -, hlt, -⟩ := hs
    exact hp hlt

/-- **Every run ends.** -/
theorem Holds.accessible (h : P.Holds p c n v s) : Acc (fun s₂ s₁ => Step P.warp s₁ s₂) s := by
  obtain ⟨m, hm⟩ : ∃ m, size n s < m := ⟨_, Nat.lt_succ_self _⟩
  induction m generalizing p c n v s with
  | zero => exact absurd hm (Nat.not_lt_zero _)
  | succ m ih =>
    refine Acc.intro s fun s' hstep => ?_
    obtain ⟨p', c', n', v', h', hlt⟩ := h.step hstep
    exact ih h' (by omega)

/-! ### Whole runs -/

/-- What a thread knows at the start. -/
def begin (P : Plan T A V X W) : View A V := ⟨P.val 0, fun _ => none, 0, fun _ => False⟩

/-- Every thread is safe. -/
def Verifies (P : Plan T A V X W) (program : T → Prog T A V X) : Prop :=
  ∀ t, ∃ n, P.Safe t (program t) n 0 0 P.begin

namespace Verifies

variable {program : T → Prog T A V X} (h : P.Verifies program)
include h

omit [Fintype T] [DecidableEq T] [DecidableEq W] in
theorem holds_start :
    ∃ n, P.Holds 0 (fun _ => 0) n (fun _ => P.begin) (start (P.val 0) program) := by
  choose n hn using h
  refine ⟨n, hn, fun _ _ => rfl, fun _ _ _ _ => rfl, fun _ _ hne => absurd rfl hne,
    P.within_val 0, fun _ _ _ hlast => hlast.resolve_left id, fun _ => ⟨rfl, nofun, nofun, nofun⟩,
    nofun⟩

/-- **Every run keeps to the plan.** -/
theorem holds_of_reachable (hs : (runs P.warp (P.val 0) program).Reachable s) :
    ∃ p c n v, P.Holds p c n v s := by
  refine System.Reachable.invariant (I := fun s => ∃ p c n v, P.Holds p c n v s)
    (fun s hinit => ?_) (fun s l s' hI hstep => ?_) hs
  · obtain ⟨n, hn⟩ := h.holds_start
    obtain rfl : s = start (P.val 0) program := hinit
    exact ⟨0, _, n, _, hn⟩
  · obtain ⟨p, c, n, v, hI⟩ := hI
    obtain ⟨p', c', n', v', h', -⟩ := hI.step hstep
    exact ⟨p', c', n', v', h'⟩

/-- Every run ends. -/
theorem accessible (hs : (runs P.warp (P.val 0) program).Reachable s) :
    Acc (fun s₂ s₁ => Step P.warp s₁ s₂) s := by
  obtain ⟨p, c, n, v, hI⟩ := h.holds_of_reachable hs
  exact hI.accessible

/-- As long as a thread is not done or a copy in flight, there is a step. -/
theorem exists_step (hs : (runs P.warp (P.val 0) program).Reachable s)
    (hnot : ¬ (s.Finished ∧ ∀ t a x, ¬ s.Outstanding t a x)) : ∃ s', Step P.warp s s' := by
  obtain ⟨p, c, n, v, hI⟩ := h.holds_of_reachable hs
  refine hI.exists_step fun ⟨hfinished, hland⟩ => hnot ⟨hfinished, ?_⟩
  rintro t a x ⟨d, hd, hdl, -⟩
  have := List.countP_eq_zero.mp (hland t) d hd
  simp [hdl] at this

/-- Some run comes to its end. -/
theorem exists_finished :
    ∃ s, (runs P.warp (P.val 0) program).Reachable s ∧ s.Finished := by
  have hend : ∀ s, Acc (fun s₂ s₁ => Step P.warp s₁ s₂) s →
      (runs P.warp (P.val 0) program).Reachable s →
      ∃ s', (runs P.warp (P.val 0) program).Reachable s' ∧ s'.Finished := by
    intro s hacc
    induction hacc with
    | intro s _ ih =>
      intro hs
      by_cases hfinished : s.Finished
      · exact ⟨s, hs, hfinished⟩
      · obtain ⟨s', hstep⟩ := h.exists_step hs fun hnot => hfinished hnot.1
        exact ih s' hstep (.step (l := ()) hs trivial hstep)
  have hstart : (runs P.warp (P.val 0) program).Reachable (start (P.val 0) program) := .init rfl
  exact hend _ (h.accessible hstart) hstart

/-- What a block leaves in memory. -/
theorem mem_of_finished [Nonempty T] (hs : (runs P.warp (P.val 0) program).Reachable s)
    (hfinished : s.Finished) (a : A) : s.mem a = P.val (P.phases + 1) a := by
  obtain ⟨p, c, n, v, hI⟩ := h.holds_of_reachable hs
  have hdone : ∀ t, p = P.phases ∧ P.Closes t p (v t) ∧ ∀ a, (v t).pend a = none := by
    intro t
    have hsafe := hI.safe t
    rw [hfinished t] at hsafe
    obtain ⟨-, hp, -, hcloses, hnone⟩ := hsafe
    exact ⟨hp, hcloses, hnone⟩
  obtain ⟨t₀⟩ := ‹Nonempty T›
  obtain rfl := (hdone t₀).1
  refine (hI.closes (fun t => (hdone t).2.1) a).resolve_right ?_
  rintro ⟨t, -, hpend⟩
  exact hpend ((hdone t).2.2 a)

omit [Fintype T] [DecidableEq T] [DecidableEq W] h in
/-- What a thread is about to use, it may use. -/
theorem perm_of_touches (hI : P.Holds p c n v s) {t : T} {a : A}
    (ha : (s.thread t).prog.Touches a) :
    (P.perm p a = .owned t ∧ (v t).pend a = none) ∨
      (P.perm p a = .frozen ∧ ¬ (s.thread t).prog.Writes a) ∨
      ((∃ top, P.perm p a = .acc top) ∧ (s.thread t).prog.IsAtomic) := by
  have hs := hI.safe t
  cases hprog : (s.thread t).prog with
  | load b k =>
    rw [hprog] at hs ha
    obtain rfl : b = a := ha
    obtain ⟨m, x, -, hreads, -⟩ := hs
    cases hreads with
    | frozen hperm => exact .inr (.inl ⟨hperm, id⟩)
    | owned hperm hnone => exact .inl ⟨hperm, hnone⟩
  | store b x k =>
    rw [hprog] at hs ha
    obtain rfl : b = a := ha
    obtain ⟨m, -, hperm, hnone, -⟩ := hs
    exact .inl ⟨hperm, hnone⟩
  | atomic b f k =>
    rw [hprog] at hs ha
    obtain rfl : b = a := ha
    obtain ⟨m, top, -, hperm, -⟩ := hs
    exact .inr (.inr ⟨⟨top, hperm⟩, trivial⟩)
  | copy b x k =>
    rw [hprog] at hs ha
    obtain rfl : b = a := ha
    obtain ⟨m, -, hperm, hnone, -⟩ := hs
    exact .inl ⟨hperm, hnone⟩
  | _ => rw [hprog] at ha; exact ha.elim

omit [Fintype T] [DecidableEq T] [DecidableEq W] h in
/-- A copy in flight is its thread's. -/
theorem perm_of_outstanding (hI : P.Holds p c n v s) {t : T} {a : A} {x : V}
    (ha : s.Outstanding t a x) : P.perm p a = .owned t ∧ (v t).pend a ≠ none := by
  obtain ⟨d, hd, -, rfl, -⟩ := ha
  have hpend : (v t).pend d.dst ≠ none := by
    rw [(hI.agrees t).pend d hd]
    exact nofun
  exact ⟨hI.pend t d.dst hpend, hpend⟩

/-- **Threads never meet** at an address that one of them changes, and never at one to which a
copy is in flight. -/
theorem not_race (hs : (runs P.warp (P.val 0) program).Reachable s) : ¬ s.Race := by
  obtain ⟨p, c, n, v, hI⟩ := h.holds_of_reachable hs
  rintro (⟨hne, hwrites, htouches, hatomic⟩ | ⟨hcopy, htouches⟩)
  · rename_i t t' a
    have htouches' := hwrites.touches
    obtain ⟨hperm, -⟩ | ⟨-, hnot⟩ | ⟨⟨top, hperm⟩, hatom⟩ := perm_of_touches hI htouches'
    · -- the writer has the address for itself
      obtain ⟨hperm', -⟩ | ⟨hperm', -⟩ | ⟨⟨top, hperm'⟩, -⟩ := perm_of_touches hI htouches
      · exact hne (Perm.owned.inj (hperm.symm.trans hperm'))
      · cases hperm.symm.trans hperm'
      · cases hperm.symm.trans hperm'
    · exact hnot hwrites
    · obtain ⟨hperm', -⟩ | ⟨hperm', -⟩ | ⟨-, hatom'⟩ := perm_of_touches hI htouches
      · cases hperm.symm.trans hperm'
      · cases hperm.symm.trans hperm'
      · exact hatomic ⟨hatom, hatom'⟩
  · rename_i t t' a x
    obtain ⟨hperm, hpend⟩ := perm_of_outstanding hI hcopy
    obtain ⟨hperm', hnone⟩ | ⟨hperm', -⟩ | ⟨⟨top, hperm'⟩, -⟩ := perm_of_touches hI htouches
    · obtain rfl := Perm.owned.inj (hperm.symm.trans hperm')
      exact hpend hnone
    · cases hperm.symm.trans hperm'
    · cases hperm.symm.trans hperm'

/-- **A thread at a note** is in a phase that has it, and what is in flight is what may be in
flight there. -/
theorem noted (hs : (runs P.warp (P.val 0) program).Reachable s) {t : T} {x : X}
    {k : Prog T A V X} (hprog : (s.thread t).prog = .note x k) :
    ∃ p D, P.noted p t x D ∧ (∀ a y, s.Outstanding t a y → D a) ∧
      ∀ t' a y, s.Outstanding t' a y → P.flight p t' a y := by
  obtain ⟨p, c, n, v, hI⟩ := h.holds_of_reachable hs
  have hsafe := hI.safe t
  rw [hprog] at hsafe
  obtain ⟨m, -, hnoted, -⟩ := hsafe
  refine ⟨p, _, hnoted, fun a y ha => (perm_of_outstanding hI ha).2, ?_⟩
  rintro t' a y ⟨d, hd, -, rfl, rfl⟩
  exact hI.flight t' d.dst d.val d.group ((hI.agrees t').pend d hd)

end Verifies

end Plan
end Dsv41Overlay.Cta
