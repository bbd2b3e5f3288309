import Dsv41Overlay.Lib.CtaRun

/-!
# Rules for the threads of a planned block

`Plan.Ok` says that a thread is safe from a point of its program on, whatever it knows that fits
a `Standing`: which addresses it has given their next value, which copies are in flight and in
which groups. There is one rule for each operation, and one for each kind of loop.
-/

namespace Dsv41Overlay.Cta

universe u₁ u₂ u₃ u₄ u₅

/-- How far a thread is within a phase. -/
structure Standing (A : Type u₂) (V : Type u₃) where
  /-- These have the value of the next phase, all others that of this one. -/
  settled : A → Prop
  hit : A → Prop
  pend : A → Option (V × ℕ)
  committed : ℕ

variable {T : Type u₁} {A : Type u₂} {V : Type u₃} {X : Type u₄} {W : Type u₅}

/-- The beginning of a phase. -/
def Standing.fresh (pend : A → Option (V × ℕ)) (committed : ℕ) : Standing A V where
  settled _ := False
  hit _ := False
  pend := pend
  committed := committed

namespace Plan

variable (P : Plan T A V X W)

/-- What a thread knows fits its standing. -/
structure Fits (p : ℕ) (σ : Standing A V) (v : View A V) : Prop where
  settled : ∀ a, v.pend a = none → σ.settled a → v.mem a = P.val (p + 1) a
  rest : ∀ a, v.pend a = none → ¬ σ.settled a → v.mem a = P.val p a
  hit : ∀ a, σ.hit a → v.hit a
  pend : v.pend = σ.pend
  committed : v.committed = σ.committed

/-- A thread may end the phase. -/
structure Ends (t : T) (p : ℕ) (σ : Standing A V) : Prop where
  mem : ∀ a, P.perm p a = .owned t → σ.pend a = none →
    σ.settled a ∨ P.val p a = P.val (p + 1) a
  pend : ∀ a, σ.pend a ≠ none → P.perm (p + 1) a = .owned t
  acc : ∀ a, P.perm p a = .acc t → σ.hit a ∨ P.val p a = P.val (p + 1) a
  flight : ∀ a x g, σ.pend a = some (x, g) → P.flight (p + 1) t a x

variable {P} {t : T} {p i : ℕ} {σ : Standing A V}

theorem Ends.closes (h : P.Ends t p σ) {v : View A V} (hv : P.Fits p σ v) : P.Closes t p v where
  mem a ha hnone := by
    by_cases hset : σ.settled a
    · exact hv.settled a hnone hset
    · exact (hv.rest a hnone hset).trans ((h.mem a ha (hv.pend ▸ hnone)).resolve_left hset)
  pend a ha := h.pend a (hv.pend ▸ ha)
  acc a ha := (h.acc a ha).imp_left (hv.hit a)
  flight a x g ha := h.flight a x g (hv.pend ▸ ha)

theorem fits_enter {v : View A V} (hv : P.Fits p σ v) (q : ℕ) :
    P.Fits q (Standing.fresh σ.pend σ.committed) (P.enter q v) :=
  ⟨fun _ _ => False.elim, fun _ _ _ => rfl, fun _ => False.elim, hv.pend, hv.committed⟩

theorem fits_begin : P.Fits 0 (Standing.fresh (fun _ => none) 0) P.begin :=
  ⟨fun _ _ => False.elim, fun _ _ _ => rfl, fun _ => False.elim, rfl, rfl⟩

variable [DecidableEq A]

variable (P) in
/-- Thread `t` is safe from here on. -/
def Ok (t : T) (prog : Prog T A V X) (p i : ℕ) (σ : Standing A V) : Prop :=
  ∀ v, P.Fits p σ v → ∃ n, P.Safe t prog n p i v

/-- What is to be shown of each thread. -/
theorem verifies_of_ok {program : T → Prog T A V X}
    (h : ∀ t, P.Ok t (program t) 0 0 (Standing.fresh (fun _ => none) 0)) : P.Verifies program :=
  fun t => h t P.begin fits_begin

namespace Ok

theorem done (hp : p = P.phases) (hi : i = P.exchanges p (P.warp t)) (hends : P.Ends t p σ)
    (hpend : ∀ a, σ.pend a = none) : P.Ok t .done p i σ :=
  fun _ hv => ⟨0, rfl, hp, hi, hends.closes hv, fun a => hv.pend ▸ hpend a⟩

theorem load_frozen {a : A} {k : V → Prog T A V X} (ha : P.perm p a = .frozen)
    (hk : P.Ok t (k (P.val p a)) p i σ) : P.Ok t (.load a k) p i σ := by
  intro v hv
  obtain ⟨n, hn⟩ := hk v hv
  exact ⟨n + 1, n, _, rfl, .frozen ha, hn⟩

/-- A store brings an address to its next value. -/
theorem store {a : A} {k : Prog T A V X} (ha : P.perm p a = .owned t) (hnone : σ.pend a = none)
    (hk : P.Ok t k p i { σ with settled := fun b => σ.settled b ∨ b = a }) :
    P.Ok t (.store a (P.val (p + 1) a) k) p i σ := by
  intro v hv
  have hv' : P.Fits p { σ with settled := fun b => σ.settled b ∨ b = a }
      { v with mem := Function.update v.mem a (P.val (p + 1) a) } := by
    refine ⟨fun b hb hset => ?_, fun b hb hset => ?_, hv.hit, hv.pend, hv.committed⟩
    · by_cases hba : b = a
      · subst hba
        exact Function.update_self b _ v.mem
      · exact (Function.update_of_ne hba _ v.mem).trans
          (hv.settled b hb (hset.resolve_right hba))
    · exact (Function.update_of_ne (fun hba => hset (.inr hba)) _ v.mem).trans
        (hv.rest b hb fun h => hset (.inl h))
  obtain ⟨n, hn⟩ := hk _ hv'
  exact ⟨n + 1, n, rfl, ha, hv.pend ▸ hnone, hn⟩

/-- A store under a condition. -/
theorem storeIf {c : Prop} [Decidable c] {a : A} {x : V} {k : Prog T A V X}
    (h : c → P.perm p a = .owned t ∧ σ.pend a = none ∧ x = P.val (p + 1) a)
    (hk : P.Ok t k p i { σ with settled := fun b => σ.settled b ∨ c ∧ b = a }) :
    P.Ok t (Prog.storeIf c a x k) p i σ := by
  unfold Prog.storeIf
  by_cases hc : c
  · obtain ⟨ha, hnone, rfl⟩ := h hc
    simp only [hc, true_and] at hk
    rw [if_pos hc]
    exact store ha hnone hk
  · simp only [hc, false_and, or_false] at hk
    rwa [if_neg hc]

/-- An atomic change, which under `c` is the one that brings the address to its next value. -/
theorem atomic {a : A} {top : T} {f : V → V} {k : Prog T A V X} {c : Prop}
    (ha : P.perm p a = .acc top) (hwithin : ∀ x, P.within p a x → P.within p a (f x))
    (hval : f (P.val (p + 1) a) = P.val (p + 1) a)
    (hlast : c → ∀ x, P.within p a x → f x = P.val (p + 1) a)
    (hk : P.Ok t k p i { σ with hit := fun b => σ.hit b ∨ b = a ∧ c }) :
    P.Ok t (.atomic a f k) p i σ := by
  intro v hv
  have hv' : P.Fits p { σ with hit := fun b => σ.hit b ∨ b = a ∧ c }
      { v with
        hit := fun b => v.hit b ∨ b = a ∧ ∀ x, P.within p a x → f x = P.val (p + 1) a } :=
    ⟨hv.settled, hv.rest, fun b hb => hb.imp (hv.hit b) (And.imp_right hlast), hv.pend,
      hv.committed⟩
  obtain ⟨n, hn⟩ := hk _ hv'
  exact ⟨n + 1, n, top, rfl, ha, hwithin, hval, hn⟩

theorem shfl {x : V} {src : T} {k : V → Prog T A V X} (hx : x = P.deposit i t)
    (hsrc : P.warp src = P.warp t) (hi : i < P.exchanges p (P.warp t))
    (hk : P.Ok t (k (P.deposit i src)) p (i + 1) σ) : P.Ok t (.shfl x src k) p i σ := by
  intro v hv
  obtain ⟨n, hn⟩ := hk v hv
  exact ⟨n + 1, n, rfl, hx, hsrc, hi, hn⟩

theorem copy {a : A} {x : V} {k : Prog T A V X} (ha : P.perm p a = .owned t)
    (hnone : σ.pend a = none) (hflight : P.flight p t a x)
    (hk : P.Ok t k p i { σ with pend := Function.update σ.pend a (some (x, σ.committed)) }) :
    P.Ok t (.copy a x k) p i σ := by
  intro v hv
  have hfree : ∀ b, Function.update v.pend a (some (x, v.committed)) b = none →
      v.pend b = none := by
    intro b hb
    by_cases hba : b = a
    · subst hba
      rw [Function.update_self] at hb
      cases hb
    · rwa [Function.update_of_ne hba] at hb
  have hv' : P.Fits p { σ with pend := Function.update σ.pend a (some (x, σ.committed)) }
      { v with pend := Function.update v.pend a (some (x, v.committed)) } := by
    refine ⟨fun b hb => hv.settled b (hfree b hb), fun b hb => hv.rest b (hfree b hb), hv.hit,
      ?_, hv.committed⟩
    simp only [hv.pend, hv.committed]
  obtain ⟨n, hn⟩ := hk _ hv'
  exact ⟨n + 1, n, rfl, ha, hv.pend ▸ hnone, hflight, hn⟩

theorem commit {k : Prog T A V X}
    (hk : P.Ok t k p i { σ with committed := σ.committed + 1 }) : P.Ok t (.commit k) p i σ := by
  intro v hv
  have hv' : P.Fits p { σ with committed := σ.committed + 1 }
      { v with committed := v.committed + 1 } :=
    ⟨hv.settled, hv.rest, hv.hit, hv.pend, congrArg (· + 1) hv.committed⟩
  obtain ⟨n, hn⟩ := hk _ hv'
  exact ⟨n + 1, n, rfl, hn⟩

/-- What has landed has the value of the next phase. -/
theorem wait {d : ℕ} {k : Prog T A V X} {pend : A → Option (V × ℕ)} {settled : A → Prop}
    (hlanded : ∀ a x g, σ.pend a = some (x, g) → g + d < σ.committed →
      x = P.val (p + 1) a ∧ settled a ∧ pend a = none)
    (hwaits : ∀ a x g, σ.pend a = some (x, g) → ¬ g + d < σ.committed → pend a = some (x, g))
    (hnone : ∀ a, σ.pend a = none → pend a = none ∧ (settled a ↔ σ.settled a))
    (hk : P.Ok t k p i { σ with pend := pend, settled := settled }) :
    P.Ok t (.wait d k) p i σ := by
  intro v hv
  -- an address without a copy in flight afterwards
  have hcases : ∀ a, ((v.wait d).pend a = pend a) ∧ ((v.wait d).pend a = none →
      (settled a → (v.wait d).mem a = P.val (p + 1) a) ∧
      (¬ settled a → (v.wait d).mem a = P.val p a)) := by
    intro a
    cases ha : σ.pend a with
    | none =>
      have hva : v.pend a = none := hv.pend ▸ ha
      obtain ⟨hpend, hset⟩ := hnone a ha
      simp only [View.wait, hva]
      exact ⟨hpend.symm, fun _ => ⟨fun hs => hv.settled a hva (hset.mp hs),
        fun hs => hv.rest a hva fun h => hs (hset.mpr h)⟩⟩
    | some y =>
      obtain ⟨x, g⟩ := y
      have hva : v.pend a = some (x, g) := hv.pend ▸ ha
      simp only [View.wait, hva, hv.committed]
      by_cases hlt : g + d < σ.committed
      · obtain ⟨hx, hset, hpend⟩ := hlanded a x g ha hlt
        simp only [if_pos hlt]
        exact ⟨hpend.symm, fun _ => ⟨fun _ => hx, fun hs => absurd hset hs⟩⟩
      · simp only [if_neg hlt]
        exact ⟨(hwaits a x g ha hlt).symm, fun h => by cases h⟩
  have hv' : P.Fits p { σ with pend := pend, settled := settled } (v.wait d) :=
    ⟨fun a ha => ((hcases a).2 ha).1, fun a ha => ((hcases a).2 ha).2, hv.hit,
      funext fun a => (hcases a).1, hv.committed⟩
  obtain ⟨n, hn⟩ := hk _ hv'
  exact ⟨n + 1, n, rfl, hn⟩

theorem sync {k : Prog T A V X} (hp : p < P.phases) (hi : i = P.exchanges p (P.warp t))
    (hends : P.Ends t p σ) (hk : P.Ok t k (p + 1) i (Standing.fresh σ.pend σ.committed)) :
    P.Ok t (.sync k) p i σ := by
  intro v hv
  obtain ⟨n, hn⟩ := hk _ (fits_enter hv (p + 1))
  exact ⟨n + 1, n, rfl, hp, hi, hends.closes hv, hn⟩

theorem note {x : X} {k : Prog T A V X} (hx : P.noted p t x fun a => σ.pend a ≠ none)
    (hk : P.Ok t k p i σ) :
    P.Ok t (.note x k) p i σ := by
  intro v hv
  obtain ⟨n, hn⟩ := hk v hv
  rw [← hv.pend] at hx
  exact ⟨n + 1, n, rfl, hx, hn⟩

/-- Shared addresses are read as planned. -/
theorem loads_frozen {as : List A} {k : List V → Prog T A V X}
    (has : ∀ a ∈ as, P.perm p a = .frozen) (hk : P.Ok t (k (as.map (P.val p))) p i σ) :
    P.Ok t (Prog.loads as k) p i σ := by
  induction as generalizing k with
  | nil => exact hk
  | cons a as ih =>
    refine load_frozen (has a List.mem_cons_self) (ih (fun b hb => ?_) hk)
    exact has b (List.mem_cons_of_mem _ hb)

theorem gathers_frozen {l : List (List A)} {k : List (List V) → Prog T A V X}
    (hl : ∀ as ∈ l, ∀ a ∈ as, P.perm p a = .frozen)
    (hk : P.Ok t (k (l.map fun as => as.map (P.val p))) p i σ) :
    P.Ok t (Prog.gathers l k) p i σ := by
  induction l generalizing k with
  | nil => exact hk
  | cons as l ih =>
    refine loads_frozen (hl as List.mem_cons_self) (ih (fun bs hbs => ?_) hk)
    exact hl bs (List.mem_cons_of_mem _ hbs)

/-- A row of stores, each of which brings an address to its next value. -/
theorem stores {l : List (A × V)} {k : Prog T A V X}
    (hl : ∀ av ∈ l, P.perm p av.1 = .owned t ∧ σ.pend av.1 = none ∧ av.2 = P.val (p + 1) av.1)
    (hk : P.Ok t k p i { σ with settled := fun b => σ.settled b ∨ b ∈ l.map Prod.fst }) :
    P.Ok t (Prog.stores l k) p i σ := by
  induction l generalizing σ with
  | nil =>
    simp only [List.map_nil, List.not_mem_nil, or_false] at hk
    exact hk
  | cons av l ih =>
    obtain ⟨hperm, hnone, hval⟩ := hl av List.mem_cons_self
    simp only [List.map_cons, List.mem_cons, ← or_assoc] at hk
    rw [Prog.stores, List.foldr_cons, hval]
    refine store hperm hnone (ih (fun bw hbw => ?_) hk)
    exact hl bw (List.mem_cons_of_mem _ hbw)

/-- A row of copies, to addresses that are free. -/
theorem copies {l : List (A × V)} {k : Prog T A V X} {pend : A → Option (V × ℕ)}
    (hl : ∀ av ∈ l, P.perm p av.1 = .owned t ∧ σ.pend av.1 = none ∧ P.flight p t av.1 av.2)
    (hnd : (l.map Prod.fst).Nodup)
    (hpend : ∀ av ∈ l, pend av.1 = some (av.2, σ.committed))
    (hrest : ∀ a, a ∉ l.map Prod.fst → pend a = σ.pend a)
    (hk : P.Ok t k p i { σ with pend := pend }) : P.Ok t (Prog.copies l k) p i σ := by
  induction l generalizing σ with
  | nil =>
    obtain rfl : pend = σ.pend := funext fun a => hrest a List.not_mem_nil
    exact hk
  | cons av l ih =>
    obtain ⟨hperm, hnone, hflight⟩ := hl av List.mem_cons_self
    rw [List.map_cons, List.nodup_cons] at hnd
    have hne : ∀ bw ∈ l, bw.1 ≠ av.1 := fun bw hbw heq =>
      hnd.1 (heq ▸ List.mem_map.mpr ⟨bw, hbw, rfl⟩)
    refine copy hperm hnone hflight (ih (fun bw hbw => ?_) hnd.2 (fun bw hbw => ?_)
      (fun a ha => ?_) hk)
    · obtain ⟨hperm', hnone', hflight'⟩ := hl bw (List.mem_cons_of_mem _ hbw)
      exact ⟨hperm', (Function.update_of_ne (hne bw hbw) _ _).trans hnone', hflight'⟩
    · exact hpend bw (List.mem_cons_of_mem _ hbw)
    · by_cases hav : a = av.1
      · subst hav
        refine (hpend av List.mem_cons_self).trans ?_
        exact (Function.update_self av.1 (some (av.2, σ.committed)) σ.pend).symm
      · refine (hrest a ?_).trans (Function.update_of_ne hav _ _).symm
        rw [List.map_cons, List.mem_cons, not_or]
        exact ⟨hav, ha⟩

/-- A loop whose rounds compute `f` and leave everything else as it is. -/
theorem fold {ι S : Type*} {body : ι → S → (S → Prog T A V X) → Prog T A V X} {f : S → ι → S}
    {l : List ι} {x : S} {k : S → Prog T A V X}
    (hbody : ∀ j ∈ l, ∀ x k, P.Ok t (k (f x j)) p i σ → P.Ok t (body j x k) p i σ)
    (hk : P.Ok t (k (l.foldl f x)) p i σ) : P.Ok t (Prog.fold body l x k) p i σ := by
  induction l generalizing x with
  | nil => exact hk
  | cons j l ih =>
    refine hbody j List.mem_cons_self x _ (ih (fun j' hj' => ?_) hk)
    exact hbody j' (List.mem_cons_of_mem _ hj')

/-- A loop: each round keeps `I`, which says how far it is. -/
theorem each {ι : Type*} {body : ι → Prog T A V X → Prog T A V X} {l : List ι}
    {k : Prog T A V X} {I : List ι → Standing A V → Prop}
    (hbody : ∀ x l' k' σ, I (x :: l') σ → (∀ σ', I l' σ' → P.Ok t k' p i σ') →
      P.Ok t (body x k') p i σ)
    (hk : ∀ σ', I [] σ' → P.Ok t k p i σ') (hI : I l σ) : P.Ok t (Prog.each body l k) p i σ := by
  induction l generalizing σ with
  | nil => exact hk σ hI
  | cons x l ih => exact hbody x l _ σ hI fun σ' hσ' => ih hσ'

end Ok

end Plan
end Dsv41Overlay.Cta
