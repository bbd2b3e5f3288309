import Dsv41Overlay.Experts.FatTiers

/-!
# Row tiles

With `EXL3_MOE_ROW_TILE` an overfull layer is cut into tiles: tile `t` takes rows
`[t * cap, (t + 1) * cap)` of every expert's window, gathers them into a buffer
of their own and launches the thin kernel on it, with the tile's counts. Every
count then fits the temporaries, so nothing is skipped (`tile_perm`), and the
tiles of an expert make up its bucket (`rowTiles_perm`).
-/

namespace Dsv41Overlay.Experts

variable {S W : Type*}

/-! ### One tile -/

/-- `(counts - row0).clamp(min=0, max=tile)`; the subtraction stops at `0`. -/
def tileCounts (counts : List ℕ) (row0 tile : ℕ) : List ℕ :=
  counts.map fun c => min tile (c - row0)

/-- `prefix`: where each expert's window starts. -/
def windowStarts (counts : List ℕ) : List ℕ := 0 :: cumsum counts.dropLast

/-- `src`: the sorted rows of a tile, expert after expert. -/
def tileSrc (counts : List ℕ) (row0 tile : ℕ) : List ℕ :=
  let tc := tileCounts counts row0 tile
  let cum := cumsum tc
  (List.range tc.sum).map fun idx =>
    let expertId := searchsorted cum idx
    let localRow := idx - (entry cum expertId - entry tc expertId)
    entry (windowStarts counts) expertId + row0 + localRow

/-- One iteration of `_exl3_moe_row_tiles`. -/
def exl3MoeTile (d : Device S W) (s : SortedRoutes W) (counts : List ℕ) (tile t : ℕ) :
    List (Contribution S W) :=
  let row0 := t * tile
  let tc := tileCounts counts row0 tile
  if tc.sum = 0 then []
  else
    let src := tileSrc counts row0 tile
    d.exl3Moe (tc ++ [0]) (gather s.tokenSorted src) (gather s.weightSorted src)

/-- `_exl3_moe_row_tiles`. -/
def exl3MoeRowTiles (d : Device S W) (s : SortedRoutes W) (counts : List ℕ)
    (tile maxRows : ℕ) : List (Contribution S W) :=
  (List.range ((maxRows + tile - 1) / tile)).flatMap (exl3MoeTile d s counts tile)

theorem entry_windowStarts {counts : List ℕ} {e : ℕ} (he : e < counts.length) :
    entry (windowStarts counts) e = prefixSum (entry counts) e := by
  cases e with
  | zero => rfl
  | succ e =>
    -- the windows start at the sums of the counts before them
    have hlen : e < counts.dropLast.length := by
      rw [List.length_dropLast]
      omega
    have hentry : ∀ k < e + 1, entry counts.dropLast k = entry counts k := by
      intro k hk
      rw [entry_eq_getElem (show k < counts.dropLast.length by omega),
        entry_eq_getElem (show k < counts.length by omega), List.getElem_dropLast]
    calc entry (windowStarts counts) (e + 1) = entry (cumsum counts.dropLast) e := rfl
      _ = prefixSum (entry counts.dropLast) (e + 1) := entry_cumsum hlen
      _ = prefixSum (entry counts) (e + 1) := prefixSum_congr hentry

@[simp] theorem length_tileCounts (counts : List ℕ) (row0 tile : ℕ) :
    (tileCounts counts row0 tile).length = counts.length := List.length_map _

/-- **The rows of a tile**, expert after expert. -/
theorem tileSrc_eq (counts : List ℕ) (row0 tile : ℕ) :
    tileSrc counts row0 tile =
      (List.range counts.length).flatMap fun e =>
        (List.range (entry (tileCounts counts row0 tile) e)).map
          (prefixSum (entry counts) e + row0 + ·) := by
  set tc := tileCounts counts row0 tile with htc
  have hlen : tc.length = counts.length := length_tileCounts counts row0 tile
  rw [tileSrc, ← htc, sum_eq_prefixSum, range_prefixSum, List.map_flatMap, hlen]
  refine List.flatMap_congr fun e he => ?_
  have he : e < tc.length := hlen ▸ List.mem_range.mp he
  rw [List.map_map]
  refine List.map_congr_left fun row hrow => ?_
  -- position `row` of expert `e` decodes to that expert
  have hstart : entry (cumsum tc) e - entry tc e = prefixSum (entry tc) e := by
    rw [entry_cumsum he, prefixSum_succ, Nat.add_sub_cancel]
  simp only [Function.comp]
  rw [searchsorted_cumsum he (List.mem_range.mp hrow), hstart,
    entry_windowStarts (hlen ▸ he), Nat.add_sub_cancel_left]

/-- **What a tile gathers**: from every expert's window the rows of the tile. -/
theorem gather_tileSrc {α : Type*} (buf : List α) (counts : List ℕ) (row0 tile : ℕ) :
    gather buf (tileSrc counts row0 tile) =
      (List.range counts.length).flatMap fun e =>
        slice buf (prefixSum (entry counts) e + row0) (entry (tileCounts counts row0 tile) e) := by
  rw [tileSrc_eq, gather_flatMap]
  exact List.flatMap_congr fun e _ => gather_run buf _ _

section Tiles

variable {l : Layer S} {d : Device S W} {cap : ℕ} {r : Routing W}

/-- The rows of a tile in an expert's bucket. -/
theorem slice_tile {α : Type*} {buf rows : List α} {start : ℕ} (row0 tile : ℕ)
    (h : slice buf start rows.length = rows) :
    slice buf (start + row0) (min tile (rows.length - row0)) = slice rows row0 tile := by
  rcases Nat.le_total row0 rows.length with hle | hle
  -- the row at which the tile starts is either inside the rows or past them
  · have hfit : row0 + min tile (rows.length - row0) ≤ rows.length := by omega
    rw [← slice_slice buf start hfit, h, slice, slice]
    rcases Nat.le_total tile (rows.length - row0) with ht | ht
    · rw [Nat.min_eq_left ht]
    · rw [Nat.min_eq_right ht, List.take_of_length_le (by simp),
        List.take_of_length_le (by simpa using ht)]
  · rw [Nat.sub_eq_zero_of_le hle, Nat.min_zero, slice, slice, List.drop_eq_nil_of_le hle]
    simp

/-- The sizes of a tile are those of its windows of the buckets. -/
theorem entry_tileCounts (hsort : IsArgsort d.argsort) {e : ℕ} (he : e < l.nLocal)
    (row0 tile : ℕ) :
    entry (tileCounts ((sortRoutes l d.argsort d.half r).counts l) row0 tile) e =
      (slice (bucket l d.argsort r e) row0 tile).length := by
  have hlen : e < ((sortRoutes l d.argsort d.half r).counts l).length := by
    rw [length_counts]
    exact he
  rw [tileCounts, entry_map hlen, entry_counts hsort d.half he, slice.eq_1, List.length_take,
    List.length_drop]

/-- What a tile gathers from a sorted buffer that holds `f` of the slots. -/
theorem gather_tile {α : Type*} (hsort : IsArgsort d.argsort) {buf : List α} {f : ℕ × ℕ → α}
    (hbuf : ∀ e < l.nLocal,
      slice buf (prefixSum (fun k => (bucket l d.argsort r k).length) e)
        (bucket l d.argsort r e).length = (bucket l d.argsort r e).map f) (row0 tile : ℕ) :
    gather buf (tileSrc ((sortRoutes l d.argsort d.half r).counts l) row0 tile) =
      (List.range l.nLocal).flatMap fun e => (slice (bucket l d.argsort r e) row0 tile).map f := by
  rw [gather_tileSrc, length_counts]
  refine List.flatMap_congr fun e he => ?_
  have he := List.mem_range.mp he
  have hlen : e < ((sortRoutes l d.argsort d.half r).counts l).length := by
    rw [length_counts]
    exact he
  have hb := hbuf e he
  -- the window of the expert is its bucket
  have hlenf : ((bucket l d.argsort r e).map f).length = (bucket l d.argsort r e).length :=
    List.length_map f
  rw [← hlenf] at hb
  have htile := slice_tile row0 tile hb
  rw [hlenf] at htile
  rw [tileCounts, entry_map hlen, entry_counts hsort d.half he,
    prefixSum_counts hsort d.half he.le, htile, slice_map]

/-- **One tile** adds its rows of every expert: none is skipped. -/
theorem tile_perm (hd : d.Sound l cap) (t : ℕ) :
    (exl3MoeTile d (sortRoutes l d.argsort d.half r)
        ((sortRoutes l d.argsort d.half r).counts l) cap t).Perm
      ((List.range l.nLocal).flatMap fun e =>
        (slice (bucket l d.argsort r e) (t * cap) cap).map fun c =>
          routeRow l e c.1 (d.half (r.weight c))) := by
  set s := sortRoutes l d.argsort d.half r with hs
  set seg : ℕ → List (ℕ × ℕ) := fun e => slice (bucket l d.argsort r e) (t * cap) cap
  set tc := tileCounts (s.counts l) (t * cap) cap with htc
  have htclen : tc.length = l.nLocal := by
    rw [htc, tileCounts, List.length_map, hs, length_counts]
  have hcount : ∀ e < l.nLocal, entry tc e = (seg e).length := fun e he =>
    entry_tileCounts hd.argsort he _ _
  -- the tile's rows, expert by expert, in both sorted lists
  have htok : gather s.tokenSorted (tileSrc (s.counts l) (t * cap) cap) =
      (List.range l.nLocal).flatMap fun e => (seg e).map Prod.fst :=
    gather_tile hd.argsort (fun e he => slice_tokenSorted hd.argsort d.half
      (Nat.lt_succ_of_lt he)) _ _
  have hwt : gather s.weightSorted (tileSrc (s.counts l) (t * cap) cap) =
      (List.range l.nLocal).flatMap fun e => (seg e).map fun c => d.half (r.weight c) :=
    gather_tile hd.argsort (fun e he => slice_weightSorted hd.argsort d.half
      (Nat.lt_succ_of_lt he)) _ _
  have hsum : prefixSum (fun e => (seg e).length) l.nLocal = tc.sum := by
    rw [sum_eq_prefixSum, htclen]
    exact prefixSum_congr fun e he => (hcount e he).symm
  show (exl3MoeTile d s _ cap t).Perm ((List.range l.nLocal).flatMap fun e =>
    (seg e).map fun c => routeRow l e c.1 (d.half (r.weight c)))
  rw [exl3MoeTile, ← htc]
  by_cases hzero : tc.sum = 0
  · -- an empty tile is not launched
    have hnil : (List.range l.nLocal).flatMap seg = [] :=
      List.eq_nil_of_length_eq_zero ((length_flatMap_range seg _).trans (hsum.trans hzero))
    rw [if_pos hzero]
    refine .of_eq (List.flatMap_eq_nil_iff.mpr fun e he => ?_).symm
    rw [List.flatMap_eq_nil_iff.mp hnil e he, List.map_nil]
  · rw [if_neg hzero]
    dsimp only
    rw [htok, hwt]
    -- otherwise the kernel's rule applies to the gathered rows
    refine (hd.exl3Moe _ _ _ (by simp [htclen]) ?_ ?_).trans (.of_eq ?_)
    · simp [← hsum, prefixSum]
    · simp
    · rw [List.take_left' htclen, overExperts_segments _ seg _ _ htclen.le
        fun e he => hcount e (htclen ▸ he), htclen]
      refine List.flatMap_congr fun e he => ?_
      -- no expert has more rows in a tile than the capacity
      have hfit : (seg e).length ≤ cap := List.length_take_le _ _
      rw [thinRows, if_neg (Nat.not_lt.mpr hfit), expertRows_map]

/-- **Row tiles** add every route. -/
theorem rowTiles_perm (hd : d.Sound l cap) (hcap : 0 < cap) {maxRows : ℕ}
    (hmax : ∀ e < l.nLocal, (bucket l d.argsort r e).length ≤ maxRows) :
    (exl3MoeRowTiles d (sortRoutes l d.argsort d.half r)
        ((sortRoutes l d.argsort d.half r).counts l) cap maxRows).Perm
      (routes l r (fun c => d.half (r.weight c)) fun _ => true) := by
  refine ((List.Perm.flatMap_left _ fun t _ => tile_perm hd t).trans
    (flatMap_flatMap_perm _ _ _)).trans ?_
  refine List.Perm.trans (.of_eq (List.flatMap_congr fun e he => ?_))
    (buckets_perm hd.argsort (fun c => d.half (r.weight c)) _)
  have hfit := le_ceilDiv_mul hcap maxRows
  rw [← Nat.add_sub_assoc hcap] at hfit
  rw [if_pos rfl, ← List.map_flatMap, flatMap_slice_tiles,
    List.take_of_length_le (Nat.le_trans (hmax e (List.mem_range.mp he)) hfit)]

end Tiles

end Dsv41Overlay.Experts
