import Dsv41Overlay.Lib.Launch
import Mathlib.Data.List.Dedup
import Mathlib.Data.List.Sort

/-!
# Routes of an expert layer

The router gives every token `topk` global expert ids and weights. A rank holds
some of the experts: `expert_map` sends a global id to a local one, or to a
negative number. This file models the two ways the layer reads the routing:

* `applyExl3PythonLoop` walks the distinct raw ids and looks each one up;
* the fused path maps all ids at once (`mapTopkToLocal`, everything not local
  becomes the sentinel `nLocal`), sorts the routes by local expert and counts
  them.

What an expert adds to the output is kept symbolically (`Contribution`): which
token's row was gathered, with which experts' tensors it went through the two
GEMMs, to which row of the output it is added and with which weight.
`pythonLoop_perm` and `buckets_perm` bring both readings to one list of routes,
`routes`.
-/

namespace Dsv41Overlay.Experts

variable {S W : Type*}

/-! ### Routing and placement -/

/-- The router's output: `ids` and `weights` are read at rows below `tokens` and
columns below `topk`. -/
structure Routing (W : Type*) where
  tokens : ℕ
  topk : ℕ
  ids : ℕ → ℕ → ℤ
  weights : ℕ → ℕ → W

/-- The tiers of `_exl3_fat_effective_tier`. -/
inductive Tier
  | legacy
  | sorted
  | batched
  | kernel
  | grouped
  deriving DecidableEq, Repr

/-- A loaded expert layer: `len(inners)` local experts and the map from global ids
to local ones, the input signs of the gate and up projections, and what decides
which kernels can run it. There is at least one local expert
(`build_exl3_fused_state` reads `inners[0]`) and no more than there are global
ones. -/
structure Layer (S : Type*) where
  nLocal : ℕ
  expertMap : Option (List ℤ)
  gateSuh : ℕ → S
  upSuh : ℕ → S
  k : ℕ
  mcg : Bool
  mul1 : Bool
  effectiveTier : Option Tier
  pos : 0 < nLocal
  le_global : ∀ m, expertMap = some m → nLocal ≤ m.length

/-- `_exl3_shared_w13_suh`: gate and up have the same input signs in every local
expert. -/
def Layer.sharedW13Suh [DecidableEq S] (l : Layer S) : Bool :=
  (List.range l.nLocal).all fun e => l.gateSuh e = l.upSuh e

theorem Layer.upSuh_eq_of_shared [DecidableEq S] {l : Layer S} (h : l.sharedW13Suh) {e : ℕ}
    (he : e < l.nLocal) : l.upSuh e = l.gateSuh e := by
  have hall := List.all_eq_true.mp h e (List.mem_range.mpr he)
  exact (of_decide_eq_true hall).symm

/-- The routing slots in row-major order, as `reshape(-1)` lists them. -/
def Routing.cells (r : Routing W) : List (ℕ × ℕ) :=
  (List.range r.tokens).flatMap fun t => (List.range r.topk).map fun k => (t, k)

/-- The id in a slot. -/
def Routing.id (r : Routing W) (c : ℕ × ℕ) : ℤ := r.ids c.1 c.2

/-- The weight in a slot. -/
def Routing.weight (r : Routing W) (c : ℕ × ℕ) : W := r.weights c.1 c.2

/-! ### What is added to the output -/

/-- A row of `x` gathered for a token and put through input signs. -/
structure Hidden (S : Type*) where
  token : ℕ
  signs : S
  deriving DecidableEq, Repr

/-- An activation row: the gate and up projections of `expert` on their inputs. -/
structure Gated (S : Type*) where
  gate : Hidden S
  up : Hidden S
  expert : ℕ
  deriving DecidableEq, Repr

/-- A row added to the output: the down projection of `expert` on `act`, times
`weight`, added to row `token`. -/
structure Contribution (S W : Type*) where
  token : ℕ
  weight : W
  act : Gated S
  expert : ℕ
  deriving DecidableEq, Repr

/-- What expert `e` adds for one of its routes. -/
def routeRow (l : Layer S) (e token : ℕ) (weight : W) : Contribution S W :=
  ⟨token, weight, ⟨⟨token, l.gateSuh e⟩, ⟨token, l.upSuh e⟩, e⟩, e⟩

/-- The same contribution with its weight relabelled. -/
def Contribution.relabel {V : Type*} (f : W → V) (c : Contribution S W) : Contribution S V :=
  ⟨c.token, f c.weight, c.act, c.expert⟩

@[simp] theorem relabel_routeRow {V : Type*} (f : W → V) (l : Layer S) (e token : ℕ)
    (weight : W) : (routeRow l e token weight).relabel f = routeRow l e token (f weight) := rfl

/-! ### Local ids -/

/-- `map_topk_to_local` on one id: the local expert, or the sentinel `nLocal`. -/
def mapTopkToLocal (l : Layer S) (id : ℤ) : ℕ :=
  match l.expertMap with
  | none => if id < 0 ∨ (l.nLocal : ℤ) ≤ id then l.nLocal else id.toNat
  | some m =>
    let nGlobal : ℤ := m.length
    let safe := min (max id 0) (max (nGlobal - 1) 0)
    let mapped := if nGlobal ≠ 0 then m.getD safe.toNat 0 else l.nLocal
    if id < 0 ∨ nGlobal ≤ id ∨ mapped < 0 ∨ (l.nLocal : ℤ) ≤ mapped then l.nLocal
    else mapped.toNat

/-- The expert `apply_exl3_python_loop` runs for a raw id, if it does not
`continue`. -/
def loopExpert (l : Layer S) (raw : ℤ) : Option ℕ :=
  if raw < 0 then none
  else
    let e : Option ℤ :=
      match l.expertMap with
      | none => some raw
      | some m =>
        let mapped := if raw < m.length then m.getD raw.toNat 0 else raw
        if mapped < 0 then none else some mapped
    e.bind fun e => if (l.nLocal : ℤ) ≤ e then none else some e.toNat

theorem mapTopkToLocal_le (l : Layer S) (id : ℤ) : mapTopkToLocal l id ≤ l.nLocal := by
  rw [mapTopkToLocal]
  -- the sentinel is nLocal itself, and a real index is below it
  cases l.expertMap with
  | none =>
    dsimp only
    split
    · exact le_rfl
    · omega
  | some m =>
    dsimp only
    generalize (if (m.length : ℤ) ≠ 0 then _ else _ : ℤ) = mapped
    split
    · exact le_rfl
    · omega

/-- Clamping the index only matters for the ids that become the sentinel anyway. -/
theorem mapTopkToLocal_of_map {l : Layer S} {m : List ℤ} (hm : l.expertMap = some m) (id : ℤ) :
    mapTopkToLocal l id =
      if id < 0 ∨ (m.length : ℤ) ≤ id ∨ m.getD id.toNat 0 < 0 ∨
          (l.nLocal : ℤ) ≤ m.getD id.toNat 0 then l.nLocal
      else (m.getD id.toNat 0).toNat := by
  rw [mapTopkToLocal, hm]
  dsimp only
  by_cases hneg : id < 0
  · rw [if_pos (Or.inl hneg), if_pos (Or.inl hneg)]
  · by_cases hout : (m.length : ℤ) ≤ id
    · rw [if_pos (Or.inr (Or.inl hout)), if_pos (Or.inr (Or.inl hout))]
    -- inside the map the clamp leaves the id alone
    · have hsafe : min (max id 0) (max ((m.length : ℤ) - 1) 0) = id := by omega
      have hne : (m.length : ℤ) ≠ 0 := by omega
      rw [hsafe, if_pos hne]

/-- **The two lookups agree**: the loop runs expert `e` for an id exactly when the
sorted path files the id under `e`, a real expert. -/
theorem loopExpert_eq (l : Layer S) (id : ℤ) :
    loopExpert l id =
      if mapTopkToLocal l id < l.nLocal then some (mapTopkToLocal l id) else none := by
  cases hm : l.expertMap with
  | none =>
    rw [loopExpert, mapTopkToLocal, hm]
    by_cases hneg : id < 0
    · simp [hneg]
    · by_cases hbig : (l.nLocal : ℤ) ≤ id
      · simp [hneg, hbig]
      · have hlt : id.toNat < l.nLocal := by omega
        simp [hneg, hbig, hlt]
  | some m =>
    -- the map covers the local experts, so an id past it is past them too
    have hlen := l.le_global m hm
    rw [mapTopkToLocal_of_map hm, loopExpert, hm]
    by_cases hneg : id < 0
    · simp [hneg]
    · by_cases hout : (m.length : ℤ) ≤ id
      · -- the loop keeps the raw id, which is past every local expert
        have hbig : (l.nLocal : ℤ) ≤ id := by omega
        simp [hneg, hout, hbig, Int.not_lt.mpr hout]
      · dsimp only
        rw [if_pos (show id < m.length by omega), if_neg hneg]
        generalize m.getD id.toNat 0 = mapped
        by_cases hmn : mapped < 0
        · simp [hmn]
        · by_cases hmb : (l.nLocal : ℤ) ≤ mapped
          · simp [hmn, hmb]
          · have hlt : mapped.toNat < l.nLocal := by omega
            simp [hneg, hout, hmn, hmb, hlt]

/-- The local expert of a slot, or the sentinel. -/
def localOf (l : Layer S) (r : Routing W) (c : ℕ × ℕ) : ℕ := mapTopkToLocal l (r.id c)

theorem localOf_lt_succ (l : Layer S) (r : Routing W) (c : ℕ × ℕ) :
    localOf l r c < l.nLocal + 1 :=
  Nat.lt_succ_of_le (mapTopkToLocal_le l _)

/-! ### The routes -/

/-- The contribution of a slot if its expert is local and satisfies `P`, with the
given weight. -/
def routeOf {V : Type*} (l : Layer S) (r : Routing W) (weight : ℕ × ℕ → V) (P : ℕ → Bool)
    (c : ℕ × ℕ) : Option (Contribution S V) :=
  if localOf l r c < l.nLocal ∧ P (localOf l r c) then
    some (routeRow l (localOf l r c) c.1 (weight c))
  else none

/-- **The routes to the local experts that satisfy `P`**, slot by slot: what a
correct layer adds to the output, each route once. -/
def routes {V : Type*} (l : Layer S) (r : Routing W) (weight : ℕ × ℕ → V) (P : ℕ → Bool) :
    List (Contribution S V) :=
  r.cells.filterMap (routeOf l r weight P)

theorem relabel_routes {V V' : Type*} (l : Layer S) (r : Routing W) (weight : ℕ × ℕ → V)
    (P : ℕ → Bool) (f : V → V') :
    (routes l r weight P).map (Contribution.relabel f) = routes l r (f ∘ weight) P := by
  rw [routes, routes, List.map_filterMap]
  refine List.filterMap_congr fun c _ => ?_
  rw [routeOf, routeOf]
  split <;> rfl

/-- Every route goes to a local expert that satisfies `P`. -/
theorem expert_of_mem_routes {V : Type*} {l : Layer S} {r : Routing W} {weight : ℕ × ℕ → V}
    {P : ℕ → Bool} {a : Contribution S V} (h : a ∈ routes l r weight P) :
    a.expert < l.nLocal ∧ P a.expert := by
  obtain ⟨c, -, hc⟩ := List.mem_filterMap.mp h
  rw [routeOf] at hc
  by_cases hP : localOf l r c < l.nLocal ∧ P (localOf l r c)
  · rw [if_pos hP] at hc
    obtain rfl := Option.some.inj hc
    exact hP
  · rw [if_neg hP] at hc
    cases hc

/-- **Thin and fat experts split the routes.** -/
theorem routes_append_perm {V : Type*} (l : Layer S) (r : Routing W) (weight : ℕ × ℕ → V)
    (P Q : ℕ → Bool) (hQ : ∀ e, Q e = !P e) :
    (routes l r weight P ++ routes l r weight Q).Perm (routes l r weight fun _ => true) := by
  -- both parts are filters of all routes by their expert
  have hfilter : ∀ P : ℕ → Bool, routes l r weight P =
      (routes l r weight fun _ => true).filter fun a => P a.expert := by
    intro P
    rw [routes, routes, List.filter_filterMap]
    refine List.filterMap_congr fun c _ => ?_
    rw [routeOf, routeOf]
    by_cases hlt : localOf l r c < l.nLocal
    · by_cases hP : P (localOf l r c) = true
      · simp [hlt, hP, routeRow, Option.filter]
      · simp [hlt, hP, routeRow, Option.filter]
    · simp [hlt]
  have hrest : routes l r weight Q =
      (routes l r weight fun _ => true).filter fun a => !P a.expert := by
    rw [hfilter Q]
    exact List.filter_congr fun a _ => hQ a.expert
  rw [hfilter P, hrest]
  exact List.filter_append_perm _ _

/-! ### The per-expert loop -/

/-- `torch.unique`: the distinct entries in increasing order. -/
def torchUnique (ids : List ℤ) : List ℤ := ids.dedup.insertionSort (· ≤ ·)

/-- `apply_exl3_python_loop`: one pass for each distinct raw id with a local
expert, over the slots that hold the id. -/
def applyExl3PythonLoop (l : Layer S) (r : Routing W) (onlyExperts : Option (List ℕ)) :
    List (Contribution S W) :=
  (torchUnique (r.cells.map r.id)).flatMap fun raw =>
    match loopExpert l raw with
    | none => []
    | some e =>
      if onlyExperts.any (fun only => e ∉ only) then []
      else (r.cells.filter fun c => r.id c = raw).map fun c => routeRow l e c.1 (r.weight c)

/-- **The loop runs each route once**: it adds the routes to the local experts it
is restricted to. -/
theorem pythonLoop_perm (l : Layer S) (r : Routing W) (onlyExperts : Option (List ℕ)) :
    (applyExl3PythonLoop l r onlyExperts).Perm
      (routes l r r.weight fun e => !onlyExperts.any fun only => e ∉ only) := by
  set P : ℕ → Bool := fun e => !onlyExperts.any fun only => e ∉ only with hP
  -- one pass of the loop gives the routes of its raw id
  have hpass : ∀ raw, (match loopExpert l raw with
      | none => []
      | some e =>
        if onlyExperts.any (fun only => e ∉ only) then []
        else (r.cells.filter fun c => r.id c = raw).map fun c => routeRow l e c.1 (r.weight c)) =
      (r.cells.filter fun c => r.id c = raw).filterMap (routeOf l r r.weight P) := by
    intro raw
    have hkey : ∀ c ∈ r.cells.filter fun c => r.id c = raw,
        localOf l r c = mapTopkToLocal l raw := by
      intro c hc
      rw [localOf, of_decide_eq_true (List.mem_filter.mp hc).2]
    rw [loopExpert_eq]
    by_cases hlt : mapTopkToLocal l raw < l.nLocal
    · rw [if_pos hlt]
      dsimp only
      by_cases hP' : P (mapTopkToLocal l raw) = true
      · rw [if_neg (by simpa [hP] using hP'), ← List.filterMap_eq_map]
        refine List.filterMap_congr fun c hc => ?_
        rw [routeOf, hkey c hc, if_pos ⟨hlt, hP'⟩]
        rfl
      · rw [if_pos (by simpa [hP] using hP'), eq_comm, List.filterMap_eq_nil_iff]
        intro c hc
        rw [routeOf, hkey c hc, if_neg fun h => hP' h.2]
    · rw [if_neg hlt, eq_comm, List.filterMap_eq_nil_iff]
      intro c hc
      rw [routeOf, hkey c hc, if_neg fun h => hlt h.1]
  -- each raw id gets one pass
  have hnd : (torchUnique (r.cells.map r.id)).Nodup :=
    (List.perm_insertionSort _ _).nodup_iff.mpr (List.nodup_dedup _)
  have hcover : ∀ c ∈ r.cells, r.id c ∈ torchUnique (r.cells.map r.id) := by
    intro c hc
    rw [torchUnique, (List.perm_insertionSort _ _).mem_iff, List.mem_dedup]
    exact List.mem_map_of_mem hc
  rw [applyExl3PythonLoop, funext hpass, ← List.filterMap_flatMap]
  exact (flatMap_filter_perm r.id hnd hcover).filterMap _

end Dsv41Overlay.Experts
