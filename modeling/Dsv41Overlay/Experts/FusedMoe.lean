import Dsv41Overlay.Experts.RowTiles
import Dsv41Overlay.Experts.Grouped

/-!
# The fused expert layer

`apply_exl3_fused_moe` picks one of seven ways to add an expert layer to the
output, by the number of tokens, the rows of the hottest expert, the environment
and what the checkpoint allows. `fused_splits` says that every one of them adds the
routes to the local experts, each once; so does the per-expert loop
(`pythonLoop_perm`), hence the two agree (`fused_moe_same_routes`).

The condition is that no token reaches a local expert twice. Distinct ids give it
together with an expert map that is injective on its local entries
(`localDistinct_of_injective`). Without it an expert can have more rows than
there are tokens, and the small branch, which trusts `tokens <= cap`, loses them
(`fused_moe_drops_shared_expert`).
-/

namespace Dsv41Overlay.Experts

variable {S W : Type*}

/-! ### The layer -/

/-- The environment switches of the fat tiers. -/
structure Switches where
  rowTile : Bool
  grouped : Bool
  fatKernel : Bool
  batched : Bool
  sorted : Bool
  deriving DecidableEq, Repr

/-- `fat_gemm_eligible`. -/
def fatGemmEligible (l : Layer S) : Bool := l.k == 4 && l.mcg && !l.mul1

/-- What a call adds to the output: the thin launch on the whole sort, and the fat
path after it. -/
structure FusedOut (S W : Type*) where
  thin : List (Contribution S W)
  fat : List (Contribution S W)

/-- Everything a call adds. -/
def FusedOut.out (o : FusedOut S W) : List (Contribution S W) := o.thin ++ o.fat

/-- The legacy fallback: the loop over the raw ids, restricted to the fat experts. -/
def legacyFat (l : Layer S) (r : Routing W) (counts : List ℕ) (cap : ℕ) :
    List (Contribution S W) :=
  let fat := (List.range l.nLocal).filter fun e => cap < entry counts e
  if fat.length = 0 then [] else applyExl3PythonLoop l r (some fat)

/-- `apply_exl3_fused_moe`. -/
def applyExl3FusedMoe [DecidableEq S] (d : Device S W) (l : Layer S) (sw : Switches) (cap : ℕ)
    (r : Routing W) : FusedOut S W :=
  let s := sortRoutes l d.argsort d.half r
  let counts := s.counts l
  let launch := d.exl3Moe s.expertCount s.tokenSorted s.weightSorted
  if r.tokens ≤ cap then ⟨launch, []⟩
  else if sw.grouped ∧ ¬ sw.rowTile ∧ l.effectiveTier = some .grouped then
    ⟨launch, applyExl3GroupedFat d l s counts cap⟩
  else
    let wantFatKernel := sw.fatKernel || sw.grouped
    let wantBatchedFat := sw.batched || wantFatKernel
    let useSortedFat := sw.sorted || wantBatchedFat
    let useBatchedFat := wantBatchedFat && l.sharedW13Suh
    let useFatKernel := useBatchedFat && wantFatKernel && fatGemmEligible l
    -- the batched tiers launch the thin experts while the counts are copied
    let launched := useBatchedFat && !sw.rowTile
    let early := if launched then launch else []
    let maxRows := counts.foldr max 0
    if maxRows ≤ cap then ⟨early ++ if launched then [] else launch, []⟩
    else if sw.rowTile then ⟨early, exl3MoeRowTiles d s counts cap maxRows⟩
    else
      let thin := early ++ if launched then [] else launch
      if useBatchedFat then ⟨thin, applyExl3BatchedFat d l s counts cap useFatKernel⟩
      else if useSortedFat then ⟨thin, applyExl3SortedFat l s counts cap⟩
      else ⟨thin, legacyFat l r counts cap⟩

/-! ### Every branch adds the routes -/

section Branches

variable {l : Layer S} {d : Device S W} {cap : ℕ} {r : Routing W}

theorem le_foldr_max {counts : List ℕ} {e : ℕ} (he : e < counts.length) :
    entry counts e ≤ counts.foldr max 0 := by
  rw [entry_eq_getElem he]
  induction counts generalizing e with
  | nil => exact absurd he (Nat.not_lt_zero e)
  | cons c counts ih =>
    cases e with
    | zero => exact Nat.le_max_left _ _
    | succ e => exact Nat.le_trans (ih (Nat.lt_of_succ_lt_succ he)) (Nat.le_max_right _ _)

theorem length_bucket_le_max (hsort : IsArgsort d.argsort) {e : ℕ} (he : e < l.nLocal) :
    (bucket l d.argsort r e).length ≤
      ((sortRoutes l d.argsort d.half r).counts l).foldr max 0 := by
  rw [← entry_counts hsort d.half he]
  refine le_foldr_max ?_
  rw [length_counts]
  exact he

/-- Nothing is fat: the thin launch adds every route. -/
theorem thin_perm (hd : d.Sound l cap)
    (hfit : ∀ e < l.nLocal, (bucket l d.argsort r e).length ≤ cap) :
    (d.exl3Moe (sortRoutes l d.argsort d.half r).expertCount
        (sortRoutes l d.argsort d.half r).tokenSorted
        (sortRoutes l d.argsort d.half r).weightSorted).Perm
      (routes l r (fun c => d.half (r.weight c)) fun _ => true) := by
  refine (exl3Moe_perm hd).trans (.of_eq (List.filterMap_congr fun c _ => ?_))
  by_cases hlt : localOf l r c < l.nLocal
  · rw [routeOf, routeOf, if_pos ⟨hlt, by simpa using hfit _ hlt⟩, if_pos ⟨hlt, rfl⟩]
  · rw [routeOf, routeOf, if_neg fun h => hlt h.1, if_neg fun h => hlt h.1]

theorem legacyFat_perm (hsort : IsArgsort d.argsort) :
    (legacyFat l r ((sortRoutes l d.argsort d.half r).counts l) cap).Perm
      (routes l r r.weight fun e => cap < (bucket l d.argsort r e).length) := by
  set counts := (sortRoutes l d.argsort d.half r).counts l with hcounts
  set fat := (List.range l.nLocal).filter fun e => cap < entry counts e with hfat
  -- the fat experts are those whose bucket exceeds the capacity
  have hmem : ∀ e < l.nLocal, e ∈ fat ↔ cap < (bucket l d.argsort r e).length := by
    intro e he
    rw [hfat, List.mem_filter, List.mem_range, decide_eq_true_eq, hcounts,
      entry_counts hsort d.half he]
    exact and_iff_right he
  -- so the restricted loop keeps the routes of those experts
  have hroutes : routes l r r.weight (fun e => !(some fat).any fun only => e ∉ only) =
      routes l r r.weight fun e => cap < (bucket l d.argsort r e).length := by
    refine List.filterMap_congr fun c _ => ?_
    by_cases hlt : localOf l r c < l.nLocal
    · by_cases hc : cap < (bucket l d.argsort r (localOf l r c)).length
      · have := (hmem _ hlt).mpr hc
        simp [routeOf, hlt, hc, this]
      · have := mt (hmem _ hlt).mp hc
        simp [routeOf, hlt, hc, this]
    · rw [routeOf, routeOf, if_neg fun h => hlt h.1, if_neg fun h => hlt h.1]
  rw [← hroutes]
  refine List.Perm.trans (.of_eq ?_) (pythonLoop_perm l r (some fat))
  show (if fat.length = 0 then [] else applyExl3PythonLoop l r (some fat)) = _
  by_cases hnil : fat.length = 0
  · -- without fat experts the restricted loop adds nothing either
    have hnone := pythonLoop_perm l r (some fat)
    rw [List.eq_nil_of_length_eq_zero hnil] at hnone ⊢
    have hempty : (routes l r r.weight fun e => !(some ([] : List ℕ)).any fun only => e ∉ only) =
        [] := by
      refine List.filterMap_eq_nil_iff.mpr fun c _ => ?_
      simp [routeOf]
    rw [hempty] at hnone
    rw [List.perm_nil.mp hnone]
    rfl
  · rw [if_neg hnil]

/-- A call whose thin launch adds the routes to the experts that satisfy `P` and
whose fat path adds the others, up to what `f` reads of a weight. -/
structure Splits {V : Type*} (l : Layer S) (r : Routing W) (f : W → V) (P Q : ℕ → Bool)
    (o : FusedOut S W) : Prop where
  thin : (o.thin.map (Contribution.relabel f)).Perm (routes l r (f ∘ r.weight) P)
  fat : (o.fat.map (Contribution.relabel f)).Perm (routes l r (f ∘ r.weight) Q)
  compl : ∀ e, Q e = !P e

theorem Splits.out_perm {V : Type*} {f : W → V} {P Q : ℕ → Bool} {o : FusedOut S W}
    (h : Splits l r f P Q o) :
    (o.out.map (Contribution.relabel f)).Perm (routes l r (f ∘ r.weight) fun _ => true) := by
  rw [FusedOut.out, List.map_append]
  exact (h.thin.append h.fat).trans (routes_append_perm l r _ P Q h.compl)

theorem Splits.disjoint {V : Type*} {f : W → V} {P Q : ℕ → Bool} {o : FusedOut S W}
    (h : Splits l r f P Q o) : ∀ a ∈ o.thin, ∀ b ∈ o.fat, a.expert ≠ b.expert := by
  intro a ha b hb heq
  have hP := (expert_of_mem_routes (h.thin.subset (List.mem_map_of_mem ha))).2
  have hQ := (expert_of_mem_routes (h.fat.subset (List.mem_map_of_mem hb))).2
  have hsame : (b.relabel f).expert = (a.relabel f).expert := heq.symm
  rw [h.compl, hsame, hP] at hQ
  cases hQ

theorem routes_none {V : Type*} (weight : ℕ × ℕ → V) :
    routes l r weight (fun _ => false) = [] :=
  List.filterMap_eq_nil_iff.mpr fun _ _ => if_neg fun h => Bool.false_ne_true h.2

/-- **Every branch splits the routes** between its thin launch and its fat path. -/
theorem fused_splits [DecidableEq S] {V : Type*} (sw : Switches) {f : W → V}
    (hf : ∀ w, f (d.half w) = f w) (hd : d.Sound l cap) (hcap : 0 < cap)
    (hdist : LocalDistinct l r) :
    ∃ P Q, Splits l r f P Q (applyExl3FusedMoe d l sw cap r) := by
  have hround : f ∘ (fun c => d.half (r.weight c)) = f ∘ r.weight := funext fun c => hf (r.weight c)
  -- the rounding of the weights is not seen by `f`
  have hread : ∀ {adds : List (Contribution S W)} {P : ℕ → Bool},
      adds.Perm (routes l r (fun c => d.half (r.weight c)) P) →
      (adds.map (Contribution.relabel f)).Perm (routes l r (f ∘ r.weight) P) := by
    intro adds P h
    have h' := h.map (Contribution.relabel f)
    rwa [relabel_routes, hround] at h'
  set thinP : ℕ → Bool := fun e => (bucket l d.argsort r e).length ≤ cap with hthinP
  set fatP : ℕ → Bool := fun e => cap < (bucket l d.argsort r e).length with hfatP
  have hcompl : ∀ e, fatP e = !thinP e := fun e => by
    rw [hthinP, hfatP, ← decide_not, decide_eq_decide, Nat.not_le]
  have hthin := hread (exl3Moe_perm (r := r) hd)
  -- when every expert fits, the full launch is the thin part and nothing is left
  have hall : (∀ e < l.nLocal, (bucket l d.argsort r e).length ≤ cap) →
      Splits l r f (fun _ => true) (fun _ => false)
        ⟨d.exl3Moe (sortRoutes l d.argsort d.half r).expertCount
          (sortRoutes l d.argsort d.half r).tokenSorted
          (sortRoutes l d.argsort d.half r).weightSorted, []⟩ := fun hfit =>
    ⟨hread (thin_perm hd hfit), by rw [routes_none]; rfl, fun _ => rfl⟩
  rw [applyExl3FusedMoe]
  dsimp only
  generalize hlaunched : ((sw.batched || (sw.fatKernel || sw.grouped)) && l.sharedW13Suh &&
    !sw.rowTile) = launched
  set launch := d.exl3Moe (sortRoutes l d.argsort d.half r).expertCount
    (sortRoutes l d.argsort d.half r).tokenSorted
    (sortRoutes l d.argsort d.half r).weightSorted with hlaunch
  -- early or late, the thin experts are launched once
  have honce : ((if launched = true then launch else []) ++
      if launched = true then [] else launch) = launch := by
    cases launched <;> simp
  -- the cases follow the tiers in the order the function tries them
  by_cases htok : r.tokens ≤ cap
  · rw [if_pos htok]
    -- few tokens, so no expert can be above the capacity
    exact ⟨_, _, hall fun e he => Nat.le_trans (length_bucket_le hd.argsort hdist he) htok⟩
  rw [if_neg htok]
  by_cases hgrouped : sw.grouped ∧ ¬ sw.rowTile ∧ l.effectiveTier = some .grouped
  · rw [if_pos hgrouped]
    exact ⟨thinP, fatP, hthin, hread (grouped_perm hd), hcompl⟩
  rw [if_neg hgrouped, honce]
  by_cases hmax : ((sortRoutes l d.argsort d.half r).counts l).foldr max 0 ≤ cap
  · rw [if_pos hmax]
    -- the largest count decides the same
    exact ⟨_, _, hall fun e he => Nat.le_trans (length_bucket_le_max hd.argsort he) hmax⟩
  rw [if_neg hmax]
  by_cases htile : sw.rowTile = true
  · -- row tiles preempt the early launch
    have hnot : launched = false := by
      rw [← hlaunched, htile]
      exact Bool.and_false _
    rw [if_pos htile, hnot]
    exact ⟨fun _ => false, fun _ => true, by rw [routes_none]; rfl,
      hread (rowTiles_perm hd hcap fun e he => length_bucket_le_max hd.argsort he), fun _ => rfl⟩
  rw [if_neg htile]
  by_cases hbatched : ((sw.batched || (sw.fatKernel || sw.grouped)) && l.sharedW13Suh) = true
  · rw [if_pos hbatched]
    -- the batched kernel needs the signs to be shared, which its guard asks for
    exact ⟨thinP, fatP, hthin,
      hread (batchedFat_perm hd hdist (Bool.and_eq_true_iff.mp hbatched).2 _), hcompl⟩
  rw [if_neg hbatched]
  by_cases hsorted : (sw.sorted || (sw.batched || (sw.fatKernel || sw.grouped))) = true
  · rw [if_pos hsorted]
    -- the sorted loop takes what the launch left
    exact ⟨thinP, fatP, hthin, hread (sortedFat_perm hd.argsort), hcompl⟩
  · rw [if_neg hsorted]
    -- the legacy loop reads the weights before they are rounded
    have hlegacy : ((legacyFat l r ((sortRoutes l d.argsort d.half r).counts l) cap).map
        (Contribution.relabel f)).Perm (routes l r (f ∘ r.weight) fatP) := by
      rw [← relabel_routes]
      exact (legacyFat_perm hd.argsort).map _
    exact ⟨thinP, fatP, hthin, hlegacy, hcompl⟩

end Branches

/-! ### The same routes as the loop -/

/-- The routing with every weight labelled by its slot. -/
def Routing.labelled (r : Routing W) : Routing ((ℕ × ℕ) × W) where
  tokens := r.tokens
  topk := r.topk
  ids := r.ids
  weights t k := ((t, k), r.weights t k)

/-- A contribution of a labelled run, with the slot its weight comes from in place of
the weight. -/
def slotOf (a : Contribution S ((ℕ × ℕ) × W)) : Contribution S (ℕ × ℕ) := a.relabel Prod.fst

/-- Every slot with a local expert, once. -/
def localRoutes (l : Layer S) (r : Routing W) : List (Contribution S (ℕ × ℕ)) :=
  routes l r (fun c => c) fun _ => true

theorem nodup_localRoutes (l : Layer S) (r : Routing W) : (localRoutes l r).Nodup := by
  refine (nodup_cells r).filterMap fun c c' a ha ha' => ?_
  -- one cell is routed at most once, and its weight names the cell
  rw [Option.mem_def, routeOf] at ha ha'
  by_cases hlt : localOf l r c < l.nLocal
  · by_cases hlt' : localOf l r c' < l.nLocal
    · rw [if_pos ⟨hlt, rfl⟩] at ha
      rw [if_pos ⟨hlt', rfl⟩, ← ha] at ha'
      exact congrArg Contribution.weight (Option.some.inj ha').symm
    · rw [if_neg fun h => hlt' h.1] at ha'
      cases ha'
  · rw [if_neg fun h => hlt h.1] at ha
    cases ha

/-- Distinct ids reach distinct local experts when the expert map is injective on its
local entries. -/
theorem localDistinct_of_injective {l : Layer S} {r : Routing W}
    (hids : ∀ t < r.tokens, ∀ k < r.topk, ∀ k' < r.topk, r.ids t k = r.ids t k' → k = k')
    (hmap : ∀ m, l.expertMap = some m → ∀ i j : ℕ, m.getD i 0 = m.getD j 0 →
      0 ≤ m.getD i 0 → m.getD i 0 < l.nLocal → i < m.length → j < m.length → i = j) :
    LocalDistinct l r := by
  -- below nLocal the map is injective, with or without an expert map
  have hinj : ∀ a b : ℤ, mapTopkToLocal l a = mapTopkToLocal l b →
      mapTopkToLocal l a < l.nLocal → a = b := by
    intro a b hab hlt
    have hlt' : mapTopkToLocal l b < l.nLocal := hab ▸ hlt
    cases hm : l.expertMap with
    | none =>
      have hval : ∀ id, mapTopkToLocal l id < l.nLocal →
          0 ≤ id ∧ mapTopkToLocal l id = id.toNat := by
        intro id h
        rw [mapTopkToLocal, hm] at h ⊢
        dsimp only at h ⊢
        by_cases hbad : id < 0 ∨ (l.nLocal : ℤ) ≤ id
        · rw [if_pos hbad] at h
          exact absurd h (Nat.lt_irrefl _)
        · rw [if_neg hbad]
          exact ⟨by omega, rfl⟩
      obtain ⟨ha, hva⟩ := hval a hlt
      obtain ⟨hb, hvb⟩ := hval b hlt'
      omega
    | some m =>
      have hval : ∀ id, mapTopkToLocal l id < l.nLocal →
          (0 ≤ id ∧ id < m.length) ∧ (0 ≤ m.getD id.toNat 0 ∧ m.getD id.toNat 0 < l.nLocal) ∧
            mapTopkToLocal l id = (m.getD id.toNat 0).toNat := by
        intro id h
        rw [mapTopkToLocal_of_map hm] at h ⊢
        by_cases hbad : id < 0 ∨ (m.length : ℤ) ≤ id ∨ m.getD id.toNat 0 < 0 ∨
            (l.nLocal : ℤ) ≤ m.getD id.toNat 0
        · rw [if_pos hbad] at h
          exact absurd h (Nat.lt_irrefl _)
        · rw [if_neg hbad]
          simp only [not_or, not_lt, not_le] at hbad
          exact ⟨⟨hbad.1, hbad.2.1⟩, ⟨hbad.2.2.1, hbad.2.2.2⟩, rfl⟩
      obtain ⟨ha, hma, hva⟩ := hval a hlt
      obtain ⟨hb, hmb, hvb⟩ := hval b hlt'
      have hidx := hmap m hm a.toNat b.toNat (by omega) hma.1 hma.2 (by omega) (by omega)
      omega
  intro t ht k hk k' hk' hloc hlt
  exact hids t ht k hk k' hk' (hinj _ _ hloc hlt)

/-- **Every branch computes the loop's routed sum.** Label every weight with its
slot. What the fused layer adds, as contributions of a token, a slot and an expert, is
what the per-expert loop adds: each slot with a local expert once, no other slot, and
no expert both in the thin launch and in the fat path. -/
theorem fused_moe_same_routes [DecidableEq S] (d : Device S ((ℕ × ℕ) × W)) (l : Layer S)
    (sw : Switches) (cap : ℕ) (r : Routing W) (hd : d.Sound l cap)
    (hhalf : ∀ w, (d.half w).1 = w.1) (hcap : 1 ≤ cap) (hdist : LocalDistinct l r) :
    let fused := applyExl3FusedMoe d l sw cap r.labelled
    (fused.out.map slotOf).Perm ((applyExl3PythonLoop l r.labelled none).map slotOf) ∧
      (fused.out.map slotOf).Perm (localRoutes l r) ∧ (fused.out.map slotOf).Nodup ∧
      ∀ a ∈ fused.thin, ∀ b ∈ fused.fat, a.expert ≠ b.expert := by
  intro fused
  obtain ⟨P, Q, hsplit⟩ := fused_splits (r := r.labelled) sw hhalf hd hcap hdist
  have hout : (fused.out.map slotOf).Perm (localRoutes l r) := hsplit.out_perm
  -- the loop with the labels as weights gives the same list
  have hloop : ((applyExl3PythonLoop l r.labelled none).map slotOf).Perm (localRoutes l r) := by
    have h := (pythonLoop_perm l r.labelled none).map (Contribution.relabel Prod.fst)
    rw [relabel_routes] at h
    exact h
  exact ⟨hout.trans hloop.symm, hout, hout.nodup_iff.mpr (nodup_localRoutes l r), hsplit.disjoint⟩

/-! ### A device, and one expert reached twice -/

/-- A device that does what the layer relies on: it sorts stably, runs the thin
experts in order, writes rows in order, and loses all of several racing rows. -/
def referenceDevice (l : Layer S) (cap : ℕ) (half : W → W) : Device S W where
  argsort keys := (List.range keys.length).insertionSort fun i j => entry keys i ≤ entry keys j
  half := half
  exl3Moe ec tokens weights :=
    overExperts (thinRows l cap) tokens weights 0 0 (ec.take l.nLocal)
  race _ := []
  sched writes := writes
  staleHidden _ := ⟨0, l.gateSuh 0⟩
  staleGated _ := ⟨⟨0, l.gateSuh 0⟩, ⟨0, l.upSuh 0⟩, 0⟩

theorem referenceDevice_sound (l : Layer S) (cap : ℕ) (half : W → W) :
    (referenceDevice l cap half).Sound l cap where
  argsort keys := by
    have hperm := List.perm_insertionSort (fun i j => entry keys i ≤ entry keys j)
      (List.range keys.length)
    have : Std.Total fun i j => entry keys i ≤ entry keys j := ⟨fun i j => Nat.le_total _ _⟩
    have : IsTrans ℕ fun i j => entry keys i ≤ entry keys j := ⟨fun _ _ _ => Nat.le_trans⟩
    have hsorted := List.pairwise_insertionSort (fun i j => entry keys i ≤ entry keys j)
      (List.range keys.length)
    -- the sorted positions read the keys in order
    have hkeys : (List.range keys.length).map (entry keys) = keys := by
      refine List.ext_getElem (by simp) fun i h₁ h₂ => ?_
      rw [List.getElem_map, List.getElem_range, entry_eq_getElem h₂]
    have hread := gather_range_map (entry keys) fun i hi => List.mem_range.mp (hperm.mem_iff.mp hi)
    rw [hkeys] at hread
    refine ⟨hperm, ?_⟩
    show (gather keys (List.insertionSort _ _)).Pairwise _
    rw [hread, List.pairwise_map]
    exact hsorted
  exl3Moe _ _ _ _ _ _ := .refl _
  sched _ := .refl _

/-- Three local experts of four, all switches off, temporaries of one row. -/
def threeExperts : Layer Unit where
  nLocal := 3
  expertMap := some [2, -1, 0, 1]
  gateSuh _ := ()
  upSuh _ := ()
  k := 4
  mcg := false
  mul1 := true
  effectiveTier := some .legacy
  pos := Nat.succ_pos 2
  le_global m hm := by
    obtain rfl := Option.some.inj hm
    exact Nat.le_succ 3

/-- Two tokens with two routes each; the second token has an id that is not local. -/
def twoTokens : Routing Unit where
  tokens := 2
  topk := 2
  ids t k := if t = 0 then (if k = 0 then 2 else 3) else if k = 0 then 2 else 1
  weights _ _ := ()

theorem fused_moe_same_routes_twoTokens :
    ((applyExl3FusedMoe (referenceDevice threeExperts 1 id) threeExperts
        ⟨false, false, false, false, false⟩ 1 twoTokens.labelled).out.map slotOf).Perm
      (localRoutes threeExperts twoTokens) :=
  (fused_moe_same_routes _ threeExperts ⟨false, false, false, false, false⟩ 1 twoTokens
    (referenceDevice_sound _ _ _) (fun _ => rfl) (le_refl 1) (by
      intro t ht k hk k' hk'
      revert t k k'
      decide)).2.1

/-- One local expert that two global ids stand for. -/
def sharedExpert : Layer Unit where
  nLocal := 1
  expertMap := some [0, 0]
  gateSuh _ := ()
  upSuh _ := ()
  k := 4
  mcg := false
  mul1 := true
  effectiveTier := some .legacy
  pos := Nat.succ_pos 0
  le_global m hm := by
    obtain rfl := Option.some.inj hm
    exact Nat.le_succ 1

/-- One token routed to both ids. -/
def bothIds : Routing Unit where
  tokens := 1
  topk := 2
  ids _ k := k
  weights _ _ := ()

/-- **A layer that loses an expert.** One token, temporaries of one row, ids `0` and
`1` both mapped to local expert `0`: the expert has two rows, the single launch of the
small branch skips it, and nothing is added. The loop adds both rows. -/
theorem fused_moe_drops_shared_expert :
    let d : Device Unit ((ℕ × ℕ) × Unit) := referenceDevice sharedExpert 1 id
    let fused := applyExl3FusedMoe d sharedExpert ⟨false, false, false, false, false⟩ 1
      bothIds.labelled
    d.Sound sharedExpert 1 ∧
      (∀ t < bothIds.tokens, ∀ k < bothIds.topk, ∀ k' < bothIds.topk,
        bothIds.ids t k = bothIds.ids t k' → k = k') ∧
      fused.out = [] ∧
      ¬ (fused.out.map slotOf).Perm
        ((applyExl3PythonLoop sharedExpert bothIds.labelled none).map slotOf) := by
  refine ⟨referenceDevice_sound _ _ _, by decide, by decide, fun h => ?_⟩
  have hlen := h.length_eq
  revert hlen
  decide

end Dsv41Overlay.Experts
