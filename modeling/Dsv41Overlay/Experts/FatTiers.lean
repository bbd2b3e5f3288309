import Dsv41Overlay.Experts.Sorted
import Mathlib.Data.List.Perm.Subperm

/-!
# Thin launch and per-expert fat tiers

`exl3_moe` keeps an expert's rows in temporaries of `cap` rows and skips every
expert that has more. The experts it skips are run by a fat tier: from the sorted
windows with the `LinearEXL3` modules (`applyExl3SortedFat`), with persistent
buffers and either the library GEMM or the direct trellis GEMM
(`applyExl3BatchedFat`), or by cutting every expert into tiles that fit
(`exl3MoeRowTiles`).

The direct GEMM scatters its rows into the output with plain read-modify-writes.
Two rows of one launch with the same token race there, and what survives is up to
the schedule (`Device.race`); no two rows of an expert share a token as long as
no token has two routes to one local expert (`LocalDistinct`).
-/

namespace Dsv41Overlay.Experts

variable {S W : Type*}

/-! ### The device -/

/-- What the layer takes from outside the file: the sort, the rounding of weights to
fp16, the thin kernel, and what a GPU leaves open, namely which of several racing
additions survive, in which order rows are written, and what the scratch buffers
hold before. -/
structure Device (S W : Type*) where
  argsort : List ℕ → List ℕ
  half : W → W
  exl3Moe : List ℕ → List ℕ → List W → List (Contribution S W)
  race : List (Contribution S W) → List (Contribution S W)
  sched : List (ℕ × ℕ) → List (ℕ × ℕ)
  staleHidden : ℕ → Hidden S
  staleGated : ℕ → Gated S

/-- The rows of the experts with at most `cap` rows: what `exl3_moe` adds. -/
def thinRows (l : Layer S) (cap e rows : ℕ) (tokens : List ℕ) (weights : List W) :
    List (Contribution S W) :=
  if cap < rows then [] else expertRows l e tokens weights

/-- What the layer relies on: the sort sorts; the thin kernel processes the sorted
rows of each real expert once, ignores the last bucket and skips every expert with
more rows than its temporaries; rows are written in some order. -/
structure Device.Sound (d : Device S W) (l : Layer S) (cap : ℕ) : Prop where
  argsort : IsArgsort d.argsort
  exl3Moe : ∀ ec tokens weights, ec.length = l.nLocal + 1 → ec.sum = tokens.length →
    weights.length = tokens.length →
    (d.exl3Moe ec tokens weights).Perm
      (overExperts (thinRows l cap) tokens weights 0 0 (ec.take l.nLocal))
  sched : ∀ writes, (d.sched writes).Perm writes

/-- No token has two routes to one local expert. -/
def LocalDistinct (l : Layer S) (r : Routing W) : Prop :=
  ∀ t < r.tokens, ∀ k < r.topk, ∀ k' < r.topk, localOf l r (t, k) = localOf l r (t, k') →
    localOf l r (t, k) < l.nLocal → k = k'

section Tiers

variable {l : Layer S} {d : Device S W} {cap : ℕ} {r : Routing W}

theorem mem_cells {r : Routing W} {c : ℕ × ℕ} :
    c ∈ r.cells ↔ c.1 < r.tokens ∧ c.2 < r.topk := by
  rw [Routing.cells, List.mem_flatMap]
  constructor
  · rintro ⟨t, ht, hc⟩
    obtain ⟨k, hk, rfl⟩ := List.mem_map.mp hc
    exact ⟨List.mem_range.mp ht, List.mem_range.mp hk⟩
  · rintro ⟨ht, hk⟩
    exact ⟨c.1, List.mem_range.mpr ht, List.mem_map.mpr ⟨c.2, List.mem_range.mpr hk, rfl⟩⟩

theorem nodup_cells (r : Routing W) : r.cells.Nodup := by
  rw [Routing.cells, List.nodup_flatMap]
  refine ⟨fun t _ => ?_, ?_⟩
  · exact List.nodup_range.map fun a b h => (Prod.mk.inj h).2
  · refine List.nodup_range.imp fun {a b} hab c hca hcb => ?_
    obtain ⟨k, -, rfl⟩ := List.mem_map.mp hca
    obtain ⟨k', -, h⟩ := List.mem_map.mp hcb
    exact hab (Prod.mk.inj h).1.symm

theorem mem_bucket (hsort : IsArgsort d.argsort) {e : ℕ} {c : ℕ × ℕ} :
    c ∈ bucket l d.argsort r e ↔ (c.1 < r.tokens ∧ c.2 < r.topk) ∧ localOf l r c = e := by
  rw [bucket, List.mem_filter, (sortedCells_perm hsort).mem_iff, mem_cells, decide_eq_true_eq]

/-- **An expert's rows have distinct tokens.** -/
theorem nodup_bucket_tokens (hsort : IsArgsort d.argsort) (hdist : LocalDistinct l r) {e : ℕ}
    (he : e < l.nLocal) : ((bucket l d.argsort r e).map Prod.fst).Nodup := by
  have hnd : (bucket l d.argsort r e).Nodup :=
    ((sortedCells_perm hsort).nodup_iff.mpr (nodup_cells r)).filter _
  refine List.Nodup.map_on ?_ hnd
  rintro ⟨t, k⟩ hc ⟨t', k'⟩ hc' (rfl : t = t')
  obtain ⟨⟨ht, hk⟩, hl⟩ := (mem_bucket hsort).mp hc
  obtain ⟨⟨-, hk'⟩, hl'⟩ := (mem_bucket hsort).mp hc'
  rw [hdist t ht k hk k' hk' (hl.trans hl'.symm) (by rw [hl]; exact he)]

/-- So it has at most one row for each token. -/
theorem length_bucket_le (hsort : IsArgsort d.argsort) (hdist : LocalDistinct l r) {e : ℕ}
    (he : e < l.nLocal) : (bucket l d.argsort r e).length ≤ r.tokens := by
  have hsub : (bucket l d.argsort r e).map Prod.fst ⊆ List.range r.tokens := by
    intro t ht
    obtain ⟨c, hc, rfl⟩ := List.mem_map.mp ht
    exact List.mem_range.mpr ((mem_bucket hsort).mp hc).1.1
  have h := (List.subperm_of_subset (nodup_bucket_tokens hsort hdist he) hsub).length_le
  simpa using h

/-! ### The thin launch -/

theorem sum_expertCount (hsort : IsArgsort d.argsort) :
    (sortRoutes l d.argsort d.half r).expertCount.sum =
      (sortRoutes l d.argsort d.half r).tokenSorted.length := by
  have hlen : (sortRoutes l d.argsort d.half r).expertCount.length = l.nLocal + 1 := by
    simp [sortRoutes]
  rw [sum_eq_prefixSum, hlen, prefixSum_expertCount hsort d.half le_rfl, tokenSorted_eq,
    List.length_map, ← flatMap_bucket hsort, length_flatMap_range]

theorem length_weightSorted :
    (sortRoutes l d.argsort d.half r).weightSorted.length =
      (sortRoutes l d.argsort d.half r).tokenSorted.length := by
  rw [weightSorted_eq, tokenSorted_eq, List.length_map, List.length_map]

/-- **The thin launch** adds the routes to the experts whose rows fit. -/
theorem exl3Moe_perm (hd : d.Sound l cap) :
    (d.exl3Moe (sortRoutes l d.argsort d.half r).expertCount
        (sortRoutes l d.argsort d.half r).tokenSorted
        (sortRoutes l d.argsort d.half r).weightSorted).Perm
      (routes l r (fun c => d.half (r.weight c))
        fun e => (bucket l d.argsort r e).length ≤ cap) := by
  -- the kernel's own rule, then expert by expert over the sorted routes
  refine (hd.exl3Moe _ _ _ (by simp [sortRoutes]) (sum_expertCount hd.argsort)
    length_weightSorted).trans ?_
  show (overExperts (thinRows l cap) _ _ 0 0 ((sortRoutes l d.argsort d.half r).counts l)).Perm _
  rw [overExperts_sorted hd.argsort]
  refine List.Perm.trans (.of_eq (List.flatMap_congr fun e _ => ?_))
    (buckets_perm hd.argsort (fun c => d.half (r.weight c)) _)
  rw [thinRows, expertRows_map]
  -- an expert above the capacity gives nothing on either side
  by_cases hle : (bucket l d.argsort r e).length ≤ cap
  · rw [if_neg (Nat.not_lt.mpr hle), if_pos (by simpa using hle)]
  · rw [if_pos (Nat.lt_of_not_le hle), if_neg (by simpa using hle)]

/-! ### Sorted fat experts -/

/-- `apply_exl3_sorted_fat`. -/
def applyExl3SortedFat (l : Layer S) (s : SortedRoutes W) (countsHost : List ℕ) (cap : ℕ) :
    List (Contribution S W) :=
  overExperts
    (fun e rows tokens weights => if rows ≤ cap then [] else expertRows l e tokens weights)
    s.tokenSorted s.weightSorted 0 0 countsHost

/-- A fat tier that runs each fat expert on its bucket adds the routes to the fat
experts. -/
theorem fat_perm (hsort : IsArgsort d.argsort) {body : ℕ → ℕ → List ℕ → List W →
      List (Contribution S W)}
    (hthin : ∀ e rows tokens weights, rows ≤ cap → body e rows tokens weights = [])
    (hfat : ∀ e < l.nLocal, cap < (bucket l d.argsort r e).length →
      body e (bucket l d.argsort r e).length ((bucket l d.argsort r e).map Prod.fst)
          ((bucket l d.argsort r e).map fun c => d.half (r.weight c)) =
        expertRows l e ((bucket l d.argsort r e).map Prod.fst)
          ((bucket l d.argsort r e).map fun c => d.half (r.weight c))) :
    (overExperts body (sortRoutes l d.argsort d.half r).tokenSorted
        (sortRoutes l d.argsort d.half r).weightSorted 0 0
        ((sortRoutes l d.argsort d.half r).counts l)).Perm
      (routes l r (fun c => d.half (r.weight c))
        fun e => cap < (bucket l d.argsort r e).length) := by
  rw [overExperts_sorted hsort]
  refine List.Perm.trans (.of_eq (List.flatMap_congr fun e he => ?_))
    (buckets_perm hsort (fun c => d.half (r.weight c)) _)
  by_cases hlt : cap < (bucket l d.argsort r e).length
  · rw [if_pos (by simpa using hlt), hfat e (List.mem_range.mp he) hlt, expertRows_map]
  · rw [if_neg (by simpa using hlt), hthin _ _ _ _ (Nat.le_of_not_lt hlt)]

theorem sortedFat_perm (hsort : IsArgsort d.argsort) :
    (applyExl3SortedFat l (sortRoutes l d.argsort d.half r)
        ((sortRoutes l d.argsort d.half r).counts l) cap).Perm
      (routes l r (fun c => d.half (r.weight c))
        fun e => cap < (bucket l d.argsort r e).length) :=
  fat_perm hsort (fun _ _ _ _ h => if_pos h) fun _ _ hlt => if_neg (Nat.not_le.mpr hlt)

/-! ### Batched fat experts and the direct GEMM -/

/-- `FAT_TILE_M`, the rows of a block of the direct GEMM. -/
def fatTileM : ℕ := 128

/-- `FAT_M_BLOCKS`. -/
def fatMBlocks : ℕ := fatTileM / 16

/-- The values of `source_row` in a launch of `exl3_fat_gemm_kernel` on `sizeM`
rows. -/
def fatGemmRows (sizeM : ℕ) : List ℕ :=
  (List.range ((sizeM + (fatTileM - 1)) / fatTileM)).flatMap fun y =>
    (List.range fatMBlocks).flatMap fun mb =>
      (List.range (min 16 (sizeM - (y * fatTileM + mb * 16)))).map
        (y * fatTileM + mb * 16 + ·)

/-- **The direct GEMM visits each row once.** -/
theorem fatGemmRows_eq (n : ℕ) : fatGemmRows n = List.range n := by
  rw [← tileRows_eq_range (le_ceilDiv_mul (show 0 < fatTileM by decide) n), fatGemmRows]
  refine List.flatMap_congr fun y _ => ?_
  -- the blocks of one tile are the rows below the tile's end
  have hle : min fatTileM (n - y * fatTileM) ≤ fatMBlocks * 16 := Nat.min_le_left _ _
  rw [tileRows, ← flatMap_blocks hle]
  refine List.flatMap_congr fun mb hmb => ?_
  have hmb : mb < 8 := List.mem_range.mp hmb
  -- a block ends at the tile's end or at the last row, whichever comes first
  have hrows : min 16 (n - (y * fatTileM + mb * 16)) =
      min 16 (min fatTileM (n - y * fatTileM) - mb * 16) := by
    rw [show fatTileM = 128 from rfl]
    omega
  rw [hrows]

/-- `exl3_fat_gemm` with gate and up packed side by side: both projections of
expert `e` on the same input rows. -/
def exl3FatGemm (d : Device S W) (e : ℕ) (h13 : List (Hidden S)) : ℕ → Gated S :=
  scatterWrite d.staleGated <|
    (d.sched ((fatGemmRows h13.length).map fun row => (row, e))).filterMap fun w =>
      (h13[w.1]?.map fun h => (⟨h, h, e⟩ : Gated S)).map (w.1, ·)

/-- `exl3_fat_gemm_scatter`: the down projection, each row added to its token. -/
def exl3FatGemmScatter (d : Device S W) (e : ℕ) (act : List (Gated S)) (tokens : List ℕ)
    (weights : List W) : List (Contribution S W) :=
  let rows := (gather (act.zip (tokens.zip weights)) (fatGemmRows act.length)).map fun row =>
    (⟨row.2.1, row.2.2, row.1, e⟩ : Contribution S W)
  if (rows.map Contribution.token).Nodup then rows else d.race rows

/-- One fat expert in `apply_exl3_batched_fat`: gate and up share the gate's input
signs. -/
def batchedRows (d : Device S W) (l : Layer S) (useKernel : Bool) (e : ℕ) (tokens : List ℕ)
    (weights : List W) : List (Contribution S W) :=
  let h13 := tokens.map fun t => (⟨t, l.gateSuh e⟩ : Hidden S)
  let act :=
    if useKernel then (List.range h13.length).map (exl3FatGemm d e h13)
    else h13.map fun h => ⟨h, h, e⟩
  if useKernel then exl3FatGemmScatter d e act tokens weights
  else List.zipWith (fun a row => ⟨row.1, row.2, a, e⟩) act (tokens.zip weights)

/-- `apply_exl3_batched_fat`. -/
def applyExl3BatchedFat (d : Device S W) (l : Layer S) (s : SortedRoutes W)
    (countsHost : List ℕ) (cap : ℕ) (useKernel : Bool) : List (Contribution S W) :=
  overExperts
    (fun e rows tokens weights =>
      if rows ≤ cap then [] else batchedRows d l useKernel e tokens weights)
    s.tokenSorted s.weightSorted 0 0 countsHost

theorem exl3FatGemm_eq (hd : d.Sound l cap) (e : ℕ) (h13 : List (Hidden S)) :
    (List.range h13.length).map (exl3FatGemm d e h13) = h13.map fun h => ⟨h, h, e⟩ := by
  have hperm := hd.sched ((fatGemmRows h13.length).map fun row => (row, e))
  -- no row is written twice, so the schedule does not matter
  have hkeys : ((d.sched ((fatGemmRows h13.length).map fun row => (row, e))).map
      Prod.fst).Nodup := by
    rw [(hperm.map Prod.fst).nodup_iff, fatGemmRows_eq, List.map_map]
    simpa [Function.comp_def] using List.nodup_range
  -- each row reads its own task
  refine List.ext_getElem (by simp) fun row h₁ h₂ => ?_
  have hrow : row < h13.length := by simpa using h₂
  rw [List.getElem_map, List.getElem_map, List.getElem_range]
  refine scatterWrite_tasks hkeys _ (w := (row, e)) (hperm.mem_iff.mpr ?_) ?_
  · rw [fatGemmRows_eq]
    exact List.mem_map.mpr ⟨row, List.mem_range.mpr hrow, rfl⟩
  · rw [List.getElem?_eq_getElem hrow]
    rfl

/-- **One fat expert of the batched tier** adds its rows, when gate and up share their
signs and, for the direct GEMM, no two rows share a token. -/
theorem batchedRows_eq [DecidableEq S] (hd : d.Sound l cap) (hshared : l.sharedW13Suh)
    (useKernel : Bool) {e : ℕ} (he : e < l.nLocal) {tokens : List ℕ} {weights : List W}
    (hlen : weights.length = tokens.length) (hnd : tokens.Nodup) :
    batchedRows d l useKernel e tokens weights = expertRows l e tokens weights := by
  have hsigns := Layer.upSuh_eq_of_shared hshared he
  set act := (tokens.map fun t => (⟨t, l.gateSuh e⟩ : Hidden S)).map
    fun h => (⟨h, h, e⟩ : Gated S) with hact
  -- the rows, zipped with token and weight, are the rows of the loop
  have hzip : (act.zip (tokens.zip weights)).map
      (fun row => (⟨row.2.1, row.2.2, row.1, e⟩ : Contribution S W)) =
        expertRows l e tokens weights := by
    refine List.ext_getElem (by simp [hact, expertRows]) fun i h₁ h₂ => ?_
    simp [hact, expertRows, routeRow, hsigns]
  cases useKernel with
  | false =>
    rw [← hzip, batchedRows, if_neg Bool.false_ne_true, if_neg Bool.false_ne_true, ← hact]
    refine List.ext_getElem (by simp) fun i h₁ h₂ => ?_
    simp
  | true =>
    have hlen' : (act.zip (tokens.zip weights)).length = act.length := by
      simp [hact, hlen]
    -- the scatter keeps every row, since one expert holds a token once
    have hrows : exl3FatGemmScatter d e act tokens weights = expertRows l e tokens weights := by
      rw [exl3FatGemmScatter, fatGemmRows_eq, ← hlen', gather_range, hzip, if_pos]
      have htok : (expertRows l e tokens weights).map Contribution.token = tokens := by
        refine List.ext_getElem (by simp [expertRows, hlen]) fun i h₁ h₂ => ?_
        simp [expertRows, routeRow]
      rw [htok]
      exact hnd
    rw [batchedRows, if_pos rfl, if_pos rfl, exl3FatGemm_eq hd, ← hact, hrows]

theorem batchedFat_perm [DecidableEq S] (hd : d.Sound l cap) (hdist : LocalDistinct l r)
    (hshared : l.sharedW13Suh) (useKernel : Bool) :
    (applyExl3BatchedFat d l (sortRoutes l d.argsort d.half r)
        ((sortRoutes l d.argsort d.half r).counts l) cap useKernel).Perm
      (routes l r (fun c => d.half (r.weight c))
        fun e => cap < (bucket l d.argsort r e).length) := by
  refine fat_perm hd.argsort (fun _ _ _ _ h => if_pos h) fun e he hlt => ?_
  rw [if_neg (Nat.not_le.mpr hlt)]
  exact batchedRows_eq hd hshared useKernel he (by simp) (nodup_bucket_tokens hd.argsort hdist he)

end Tiers

end Dsv41Overlay.Experts
