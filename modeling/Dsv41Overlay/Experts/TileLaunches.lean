import Dsv41Overlay.Experts.FatTables
import Dsv41Overlay.Experts.FusedMoe

/-!
# The launches of the row tiles

`_exl3_moe_row_tiles` launches the thin kernel once for every tile that has rows. A launch
gets the counts of the tile with a zero for the sentinel, and the sorted slots that its rows
are gathered from (`tileLaunches`). `tile_launches_once` says what the launches are together:
every slot of a real expert is in one of them, once, and each launch is grouped by expert in
the order of the experts, with no group longer than the temporaries.
-/

namespace Dsv41Overlay.Experts

variable {S W : Type*}

/-- The launches of `_exl3_moe_row_tiles`: `tile_ec` and `src` of each tile with rows. -/
def tileLaunches (counts : List ℕ) (tile maxRows : ℕ) : List (List ℕ × List ℕ) :=
  ((List.range ((maxRows + tile - 1) / tile)).filter fun t =>
    decide ((tileCounts counts (t * tile) tile).sum ≠ 0)).map fun t =>
      (tileCounts counts (t * tile) tile ++ [0], tileSrc counts (t * tile) tile)

/-- They are what the loop passes to the kernel. -/
theorem exl3MoeRowTiles_eq (d : Device S W) (s : SortedRoutes W) (counts : List ℕ)
    (tile maxRows : ℕ) :
    exl3MoeRowTiles d s counts tile maxRows =
      (tileLaunches counts tile maxRows).flatMap fun l =>
        d.exl3Moe l.1 (gather s.tokenSorted l.2) (gather s.weightSorted l.2) := by
  rw [exl3MoeRowTiles, tileLaunches, List.flatMap_map]
  induction List.range ((maxRows + tile - 1) / tile) with
  | nil => rfl
  | cons t ts ih =>
    rw [List.flatMap_cons, List.filter_cons, ih, exl3MoeTile]
    by_cases hzero : (tileCounts counts (t * tile) tile).sum = 0
    · rw [if_pos hzero, if_neg (by simpa using hzero), List.nil_append]
    · rw [if_neg hzero, if_pos (decide_eq_true hzero), List.flatMap_cons]

/-- The slots that the code sorts are sorted slots of its counts. -/
theorem sortedSlots_sortRoutes {l : Layer S} {argsort : List ℕ → List ℕ} {r : Routing W}
    (hsort : IsArgsort argsort) (half : W → W) :
    SortedSlots ((sortRoutes l argsort half r).counts l)
      ((sortedCells l argsort r).map (localOf l r)) where
  sorted := by
    rw [List.pairwise_map]
    exact sortedCells_sorted hsort
  count e he := by
    rw [length_counts] at he
    rw [entry_counts hsort half he, bucket, List.count, List.countP_map,
      List.countP_eq_length_filter]
    exact congrArg List.length (List.filter_congr fun c _ => by simp [beq_eq_decide])
  le_sentinel e he := by
    obtain ⟨c, -, rfl⟩ := List.mem_map.mp he
    rw [length_counts]
    exact Nat.le_of_lt_succ (localOf_lt_succ l r c)

/-! ### One launch -/

section Launch

variable {counts : List ℕ} {tile row0 : ℕ}

theorem entry_tileCounts_eq {e : ℕ} (he : e < counts.length) :
    entry (tileCounts counts row0 tile) e = min tile (entry counts e - row0) := entry_map he

/-- A launch has as many slots as its counts say. -/
theorem length_tileSrc (counts : List ℕ) (row0 tile : ℕ) :
    (tileSrc counts row0 tile).length = (tileCounts counts row0 tile).sum := by
  rw [tileSrc, List.length_map, List.length_range]

/-- **A launch is grouped by expert**: the experts of its slots, in order. -/
theorem experts_tileSrc {experts : List ℕ} (hslots : SortedSlots counts experts) :
    (tileSrc counts row0 tile).map (experts[·]?) =
      (List.range counts.length).flatMap fun e =>
        List.replicate (entry (tileCounts counts row0 tile) e) (some e) := by
  rw [tileSrc_eq, List.map_flatMap]
  refine List.flatMap_congr fun e he => ?_
  have he := List.mem_range.mp he
  rw [List.map_map, List.eq_replicate_iff]
  refine ⟨by simp, fun slot hslot => ?_⟩
  obtain ⟨row, hrow, rfl⟩ := List.mem_map.mp hslot
  have hrow := List.mem_range.mp hrow
  rw [entry_tileCounts_eq he] at hrow
  -- the row lies in the window of its expert
  have hwindow : row0 + row < entry counts e := by omega
  show experts[prefixSum (entry counts) e + row0 + row]? = some e
  rw [Nat.add_assoc]
  exact hslots.getElem?_eq he hwindow

end Launch

/-! ### All launches -/

/-- A tile without rows has no slots, so that leaving it out loses none. -/
theorem flatMap_tileLaunches (counts : List ℕ) (tile maxRows : ℕ) :
    (tileLaunches counts tile maxRows).flatMap Prod.snd =
      (List.range ((maxRows + tile - 1) / tile)).flatMap fun t =>
        tileSrc counts (t * tile) tile := by
  rw [tileLaunches, List.flatMap_map]
  induction List.range ((maxRows + tile - 1) / tile) with
  | nil => rfl
  | cons t ts ih =>
    rw [List.filter_cons, List.flatMap_cons, ← ih]
    by_cases hzero : (tileCounts counts (t * tile) tile).sum = 0
    · have hnil : tileSrc counts (t * tile) tile = [] :=
        List.eq_nil_of_length_eq_zero ((length_tileSrc counts _ tile).trans hzero)
      rw [if_neg (by simpa using hzero), hnil, List.nil_append]
    · rw [if_pos (decide_eq_true hzero), List.flatMap_cons]

/-- The tiles of one expert are its window. -/
theorem flatMap_window {counts : List ℕ} {tile : ℕ} (htile : 1 ≤ tile) {e : ℕ}
    (he : e < counts.length) :
    ((List.range ((counts.foldr max 0 + tile - 1) / tile)).flatMap fun t =>
        (List.range (entry (tileCounts counts (t * tile) tile) e)).map
          (prefixSum (entry counts) e + t * tile + ·)) =
      (List.range (entry counts e)).map (prefixSum (entry counts) e + ·) := by
  have hfit : entry counts e ≤ (counts.foldr max 0 + tile - 1) / tile * tile := by
    have hceil := le_ceilDiv_mul htile (counts.foldr max 0)
    rw [← Nat.add_sub_assoc htile] at hceil
    exact (le_foldr_max he).trans hceil
  rw [← flatMap_blocks hfit]
  exact List.flatMap_congr fun t _ => by rw [entry_tileCounts_eq he]

/-- **Row tiling launches every routed slot once.** For every vector of counts, over all
launches the source slots are those of the real experts, each once. In each launch the
counts are one for each expert and a zero for the sentinel, none is above the tile, there
are as many slots as they say, and for slots sorted by expert the slots of the launch are
grouped by expert, in order, in groups of these sizes. -/
theorem tile_launches_once (counts : List ℕ) {tile : ℕ} (htile : 1 ≤ tile) :
    let launches := tileLaunches counts tile (counts.foldr max 0)
    (launches.flatMap Prod.snd).Perm (List.range counts.sum) ∧
      ∀ l ∈ launches, ∃ tc : List ℕ, l.1 = tc ++ [0] ∧ tc.length = counts.length ∧
        (∀ c ∈ tc, c ≤ tile) ∧ l.2.length = tc.sum ∧
        ∀ experts, SortedSlots counts experts →
          l.2.map (experts[·]?) =
            (List.range counts.length).flatMap fun e => List.replicate (entry tc e) (some e) := by
  intro launches
  constructor
  · rw [flatMap_tileLaunches]
    simp only [tileSrc_eq]
    -- expert by expert instead of tile by tile
    refine (flatMap_flatMap_perm _ _ _).trans (.of_eq ?_)
    rw [sum_eq_prefixSum, range_prefixSum]
    exact List.flatMap_congr fun e he => flatMap_window htile (List.mem_range.mp he)
  · intro l hl
    obtain ⟨t, -, rfl⟩ := List.mem_map.mp hl
    refine ⟨tileCounts counts (t * tile) tile, rfl, length_tileCounts _ _ _, ?_,
      length_tileSrc _ _ _, fun experts hslots => experts_tileSrc hslots⟩
    intro c hc
    obtain ⟨n, -, rfl⟩ := List.mem_map.mp hc
    exact Nat.min_le_left _ _

/-- Four experts, two of them without routes, in tiles of two rows. -/
theorem tile_launches_once_four :
    ((tileLaunches [0, 3, 0, 5] 2 5).flatMap Prod.snd).Perm (List.range 8) :=
  (tile_launches_once [0, 3, 0, 5] (show 1 ≤ 2 by decide)).1

example : tileLaunches [0, 3, 0, 5] 2 5 =
    [([0, 2, 0, 2, 0], [0, 1, 3, 4]), ([0, 1, 0, 2, 0], [2, 5, 6]), ([0, 0, 0, 1, 0], [7])] := by
  decide

end Dsv41Overlay.Experts
