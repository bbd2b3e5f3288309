import Dsv41Overlay.Experts.FatTiers

/-!
# The grouped fat kernels

The grouped tier runs every fat expert of a layer in three launches and never
asks the host how many rows there are. The tables that steer the launches are
computed on the device with the capacity of the whole routing: the fat experts'
rows lie back to back (`row_*`), cut into segments of `tile` rows of one expert
(`seg_*`), and the kernels read the live numbers of rows and segments.

The gather kernel writes one input row per fat row, the gate/up kernel one
activation row, the down kernel adds one row to the output. Each walks rows or
segments in steps of its grid. `grouped_perm` says that what arrives in the
output is the routes to the fat experts, each with the activation of its own
token and expert, whatever order the blocks ran in and whatever the buffers held
before.
-/

namespace Dsv41Overlay.Experts

variable {S W : Type*}

/-! ### The tables -/

/-- `_excl_cumsum`, the exclusive part: `inclusive - x`. -/
def exclCumsum (x : List ℕ) : List ℕ := List.zipWith (· - ·) (cumsum x) x

theorem entry_exclCumsum {x : List ℕ} {e : ℕ} (he : e < x.length) :
    entry (exclCumsum x) e = prefixSum (entry x) e := by
  have hlen : e < (exclCumsum x).length := by simp [exclCumsum, he]
  have hcum : e < (cumsum x).length := by simpa using he
  have h := entry_cumsum he
  rw [entry_eq_getElem hcum, prefixSum_succ] at h
  rw [entry_eq_getElem hlen]
  simp only [exclCumsum, List.getElem_zipWith]
  rw [h, ← entry_eq_getElem he, Nat.add_sub_cancel]

/-- What `build_grouped_fat_tables` returns. `num_segs` and `num_rows` are tensors of one
entry. -/
structure FatTables (W : Type*) where
  segExpert : List ℕ
  segRow0 : List ℕ
  segRows : List ℕ
  numSegs : List ℕ
  numRows : List ℕ
  rowExpert : List ℕ
  rowToken : List ℕ
  rowWeight : List W

/-- `num_segs[0]`, which the kernels read. -/
def FatTables.liveSegs (t : FatTables W) : ℕ := entry t.numSegs 0

/-- `num_rows[0]`. -/
def FatTables.liveRows (t : FatTables W) : ℕ := entry t.numRows 0

/-- `fat_rows`: the counts of the fat experts, `0` for the others. -/
def fatRows (counts : List ℕ) (cap : ℕ) : List ℕ := counts.map fun c => if cap < c then c else 0

/-- `tiles`: how many segments each expert takes. -/
def fatTiles (counts : List ℕ) (cap tileRows : ℕ) : List ℕ :=
  (fatRows counts cap).map fun rows => (rows + (tileRows - 1)) / tileRows

/-- `seg_expert[seg]`. -/
def segExpertOf (counts : List ℕ) (cap tile seg : ℕ) : ℕ :=
  min (searchsorted (cumsum (fatTiles counts cap tile)) seg) (counts.length - 1)

/-- `local_tile[seg]`. -/
def localTileOf (counts : List ℕ) (cap tile seg : ℕ) : ℕ :=
  seg - entry (exclCumsum (fatTiles counts cap tile)) (segExpertOf counts cap tile seg)

/-- The expert of a row: `row_expert[row]`. -/
def rowExpertOf (counts : List ℕ) (cap row : ℕ) : ℕ :=
  min (searchsorted (cumsum (fatRows counts cap)) row) (counts.length - 1)

/-- The sorted slot of a row: `src[row]`. -/
def srcOf (counts : List ℕ) (cap rowsCap row : ℕ) : ℕ :=
  min (entry (exclCumsum counts) (rowExpertOf counts cap row) +
    (row - entry (exclCumsum (fatRows counts cap)) (rowExpertOf counts cap row))) (rowsCap - 1)

/-- `x[-1:]`. -/
def lastSlice (x : List ℕ) : List ℕ := x.drop (x.length - 1)

/-- The tables that `build_grouped_fat_tables` computes when every read is in range. The
clamp of `seg_rows` from below is the subtraction that stops at `0`. -/
def fatTables (counts : List ℕ) (cap : ℕ) (tokenSorted : List ℕ) (weightSorted : List W)
    (rowsCap tileRows : ℕ) : FatTables W :=
  let fat := fatRows counts cap
  let rowOff := exclCumsum fat
  let tiles := fatTiles counts cap tileRows
  let maxSegs := (rowsCap + tileRows - 1) / tileRows + counts.length
  let segExpert := segExpertOf counts cap tileRows
  let localTile := localTileOf counts cap tileRows
  let src := srcOf counts cap rowsCap
  { segExpert := (List.range maxSegs).map segExpert
    segRow0 := (List.range maxSegs).map fun seg =>
      entry rowOff (segExpert seg) + localTile seg * tileRows
    segRows := (List.range maxSegs).map fun seg =>
      min tileRows (entry fat (segExpert seg) - localTile seg * tileRows)
    numSegs := lastSlice (cumsum tiles)
    numRows := lastSlice (cumsum fat)
    rowExpert := (List.range rowsCap).map (rowExpertOf counts cap)
    rowToken := gather tokenSorted ((List.range rowsCap).map src)
    rowWeight := gather weightSorted ((List.range rowsCap).map src) }

/-- What a read outside a tensor raises. -/
inductive IndexError where
  | outOfRange
deriving DecidableEq, Repr

/-- `build_grouped_fat_tables`: the tables of the experts are read at `e` and `re`, the
sorted buffers at `src`. -/
def buildGroupedFatTables (counts : List ℕ) (cap : ℕ) (tokenSorted : List ℕ)
    (weightSorted : List W) (rowsCap tileRows : ℕ) : Except IndexError (FatTables W) :=
  let t := fatTables counts cap tokenSorted weightSorted rowsCap tileRows
  let src := (List.range rowsCap).map (srcOf counts cap rowsCap)
  if (∀ e ∈ t.segExpert, e < counts.length) ∧ (∀ re ∈ t.rowExpert, re < counts.length) ∧
      (∀ i ∈ src, i < tokenSorted.length) ∧ (∀ i ∈ src, i < weightSorted.length) then
    .ok t
  else .error .outOfRange

/-! ### The kernels -/

/-- `FM_WARPS`. -/
def fmWarps : ℕ := 8

/-- `FM_MB_GATEUP` and `FM_MB_DOWN`: the blocks of 16 rows in a segment. -/
def fmMbGateup : ℕ := 4

@[inherit_doc fmMbGateup]
def fmMbDown : ℕ := 4

/-- The grid of the gather kernel. -/
def fmGridX (rowsCap : ℕ) : ℕ := max (min ((rowsCap + fmWarps - 1) / fmWarps) 1024) 1

/-- `fm_grid_y`. -/
def fmGridY (maxSegs : ℕ) : ℕ := min (max maxSegs 1) 512

/-- `fm_gather_kernel`: warp `warp` of block `b` walks the rows from
`b * FM_WARPS + warp` on and writes each with its expert's input signs. -/
def fmGather (d : Device S W) (t : FatTables W) (suh : ℕ → S) : ℕ → Hidden S :=
  let grid := fmGridX t.rowToken.length
  let rows := (List.range grid).flatMap fun b => (List.range fmWarps).flatMap fun warp =>
    stride (b * fmWarps + warp) (grid * fmWarps) t.liveRows
  scatterWrite d.staleHidden <|
    (d.sched (rows.filterMap fun row => t.rowExpert[row]?.map (row, ·))).filterMap fun w =>
      (t.rowToken[w.1]?.map fun token => (⟨token, suh w.2⟩ : Hidden S)).map (w.1, ·)

/-- The fat rows a launch over the segments visits, each with the expert of its
segment: block `y` walks the segments from `y` on, and a segment in `mb` blocks
of 16 rows. -/
def segTasks (t : FatTables W) (mb : ℕ) : List (ℕ × ℕ) :=
  let grid := fmGridY t.segExpert.length
  (List.range grid).flatMap fun y =>
    (gather (t.segExpert.zip (t.segRow0.zip t.segRows)) (stride y grid t.liveSegs)).flatMap
      fun seg => (List.range mb).flatMap fun b =>
        (List.range (min 16 (seg.2.2 - b * 16))).map fun row =>
          (seg.2.1 + b * 16 + row, seg.1)

/-- `fm_gateup_kernel`. -/
def fmGateup (d : Device S W) (t : FatTables W) (h13g h13u : ℕ → Hidden S) : ℕ → Gated S :=
  scatterWrite d.staleGated <|
    (d.sched (segTasks t fmMbGateup)).filterMap fun w =>
      (some (⟨h13g w.1, h13u w.1, w.2⟩ : Gated S)).map (w.1, ·)

/-- `fm_down_kernel`: every row is added with an atomic. -/
def fmDown (t : FatTables W) (h2 : ℕ → Gated S) : List (Contribution S W) :=
  (segTasks t fmMbDown).filterMap fun w =>
    (t.rowToken.zip t.rowWeight)[w.1]?.map fun row => ⟨row.1, row.2, h2 w.1, w.2⟩

/-- `apply_exl3_grouped_fat`. The capacity of the tables is the length of the sorted
buffers, so that no read of `build_grouped_fat_tables` raises
(`buildGroupedFatTables_counts`). -/
def applyExl3GroupedFat [DecidableEq S] (d : Device S W) (l : Layer S) (s : SortedRoutes W)
    (counts : List ℕ) (cap : ℕ) : List (Contribution S W) :=
  let rowsCap := s.tokenSorted.length
  let tileGu := fmMbGateup * 16
  let tileDn := fmMbDown * 16
  let tg := fatTables counts cap s.tokenSorted s.weightSorted rowsCap tileGu
  let td :=
    if tileDn = tileGu then tg
    else fatTables counts cap s.tokenSorted s.weightSorted rowsCap tileDn
  let h13 := fmGather d tg l.gateSuh
  let h13u := if l.sharedW13Suh then h13 else fmGather d tg l.upSuh
  fmDown td (fmGateup d tg h13 h13u)

/-! ### What the tables say -/

section Tables

variable {counts : List ℕ} {cap tile rowsCap : ℕ} {tokenSorted : List ℕ}
  {weightSorted : List W}

theorem entry_fatRows {e : ℕ} (he : e < counts.length) :
    entry (fatRows counts cap) e = if cap < entry counts e then entry counts e else 0 :=
  entry_map he

theorem length_fatRows (counts : List ℕ) (cap : ℕ) :
    (fatRows counts cap).length = counts.length := by
  simp [fatRows]

theorem lastSlice_cumsum {x : List ℕ} (hx : x ≠ []) : lastSlice (cumsum x) = [x.sum] := by
  -- the last entry of the running sum is the whole sum
  have hpos : 0 < x.length := List.length_pos_iff.mpr hx
  have hlast : x.length - 1 < (cumsum x).length := by
    rw [length_cumsum]
    omega
  unfold lastSlice
  rw [length_cumsum, List.drop_eq_getElem_cons hlast, List.drop_eq_nil_of_le (by
    rw [length_cumsum]
    omega), ← entry_eq_getElem hlast, entry_cumsum (by omega), Nat.sub_add_cancel hpos,
    ← sum_eq_prefixSum]

/-- The last running sum is the sum, also of an empty table. -/
theorem entry_lastSlice_cumsum (x : List ℕ) : entry (lastSlice (cumsum x)) 0 = x.sum := by
  by_cases hx : x = []
  · rw [hx]
    rfl
  · rw [lastSlice_cumsum hx]
    rfl

theorem liveRows_fatTables :
    (fatTables counts cap tokenSorted weightSorted rowsCap tile).liveRows
      = (fatRows counts cap).sum :=
  entry_lastSlice_cumsum _

theorem liveSegs_fatTables :
    (fatTables counts cap tokenSorted weightSorted rowsCap tile).liveSegs
      = (fatTiles counts cap tile).sum :=
  entry_lastSlice_cumsum _

theorem entry_fatRows_le {e : ℕ} (he : e < counts.length) :
    entry (fatRows counts cap) e ≤ entry counts e := by
  rw [entry_fatRows he]
  split
  · exact le_rfl
  · exact Nat.zero_le _

theorem prefixSum_mono {f g : ℕ → ℕ} {n : ℕ} (h : ∀ e < n, f e ≤ g e) :
    prefixSum f n ≤ prefixSum g n := by
  induction n with
  | zero => exact le_rfl
  | succ n ih =>
    rw [prefixSum_succ, prefixSum_succ]
    exact Nat.add_le_add (ih fun e he => h e (Nat.lt_succ_of_lt he)) (h n (Nat.lt_succ_self n))

theorem sum_fatRows_le : (fatRows counts cap).sum ≤ counts.sum := by
  rw [sum_eq_prefixSum, sum_eq_prefixSum, length_fatRows]
  exact prefixSum_mono fun e he => entry_fatRows_le he

/-- **The segment tables are large enough.** -/
theorem sum_fatTiles_le (htile : 0 < tile) (hcap : counts.sum ≤ rowsCap) :
    (fatTiles counts cap tile).sum ≤ (rowsCap + tile - 1) / tile + counts.length := by
  -- rounding up adds at most one tile for each expert
  have hsum : ∀ rows : List ℕ, (rows.map fun c => (c + (tile - 1)) / tile).sum ≤
      rows.sum / tile + rows.length := by
    intro rows
    induction rows with
    | nil => simp
    | cons c rows ih =>
      have hc : (c + (tile - 1)) / tile ≤ c / tile + 1 := by
        rw [← Nat.add_div_right c htile]
        exact Nat.div_le_div_right (by omega)
      have hadd : c / tile + rows.sum / tile ≤ (c + rows.sum) / tile :=
        Nat.div_add_div_le_add_div
      rw [List.map_cons, List.sum_cons, List.sum_cons, List.length_cons]
      omega
  have hle : (fatRows counts cap).sum / tile ≤ (rowsCap + tile - 1) / tile := by
    have hfat : (fatRows counts cap).sum ≤ counts.sum := sum_fatRows_le
    exact Nat.div_le_div_right (by omega)
  have h := hsum (fatRows counts cap)
  rw [length_fatRows] at h
  rw [fatTiles]
  omega

/-- A fat row belongs to a row of its expert's window. -/
theorem window_lt (hcap : counts.sum ≤ rowsCap) {e t : ℕ} (he : e < counts.length)
    (ht : t < entry (fatRows counts cap) e) : prefixSum (entry counts) e + t < rowsCap := by
  have hle : entry (fatRows counts cap) e ≤ entry counts e := entry_fatRows_le he
  have hend := prefixSum_add_le (entry counts) he
  rw [sum_eq_prefixSum] at hcap
  omega

theorem fatRow_lt (hcap : counts.sum ≤ rowsCap) {e t : ℕ} (he : e < counts.length)
    (ht : t < entry (fatRows counts cap) e) :
    prefixSum (entry (fatRows counts cap)) e + t < (fatRows counts cap).sum ∧
      (fatRows counts cap).sum ≤ rowsCap := by
  have hend := prefixSum_add_le (entry (fatRows counts cap)) (length_fatRows counts cap ▸ he)
  refine ⟨?_, Nat.le_trans sum_fatRows_le hcap⟩
  rw [sum_eq_prefixSum]
  omega

theorem rowExpertOf_eq {e t : ℕ} (he : e < counts.length)
    (ht : t < entry (fatRows counts cap) e) :
    rowExpertOf counts cap (prefixSum (entry (fatRows counts cap)) e + t) = e := by
  have hlen : e < (fatRows counts cap).length := length_fatRows counts cap ▸ he
  rw [rowExpertOf, searchsorted_cumsum hlen ht]
  omega

/-- Row `t` of fat expert `e` is row `t` of its window. -/
theorem srcOf_eq (hcap : counts.sum ≤ rowsCap) {e t : ℕ} (he : e < counts.length)
    (ht : t < entry (fatRows counts cap) e) :
    srcOf counts cap rowsCap (prefixSum (entry (fatRows counts cap)) e + t) =
      prefixSum (entry counts) e + t := by
  have hlen : e < (fatRows counts cap).length := length_fatRows counts cap ▸ he
  have hwin := window_lt hcap he ht
  rw [srcOf, rowExpertOf_eq he ht, entry_exclCumsum he, entry_exclCumsum hlen,
    Nat.add_sub_cancel_left]
  omega

theorem srcOf_lt {row : ℕ} (hrow : row < rowsCap) : srcOf counts cap rowsCap row < rowsCap := by
  have hmin : srcOf counts cap rowsCap row ≤ rowsCap - 1 := Nat.min_le_right _ _
  omega

/-- **No read of `build_grouped_fat_tables` raises** when there are experts and the sorted
buffers hold the capacity. -/
theorem buildGroupedFatTables_eq_ok (hcounts : counts ≠ []) (htok : rowsCap ≤ tokenSorted.length)
    (hwt : rowsCap ≤ weightSorted.length) :
    buildGroupedFatTables counts cap tokenSorted weightSorted rowsCap tile
      = .ok (fatTables counts cap tokenSorted weightSorted rowsCap tile) := by
  have hpos : 0 < counts.length := List.length_pos_iff.mpr hcounts
  -- both searches are clamped to the last expert
  have hclamp : ∀ (f : ℕ → ℕ) (n : ℕ), ∀ e ∈ (List.range n).map fun i => min (f i)
      (counts.length - 1), e < counts.length := by
    intro f n e he
    obtain ⟨i, -, rfl⟩ := List.mem_map.mp he
    have hle := Nat.min_le_right (f i) (counts.length - 1)
    omega
  have hsrc : ∀ i ∈ (List.range rowsCap).map (srcOf counts cap rowsCap), i < rowsCap := by
    intro i hi
    obtain ⟨row, hrow, rfl⟩ := List.mem_map.mp hi
    exact srcOf_lt (List.mem_range.mp hrow)
  exact if_pos ⟨hclamp _ _, hclamp _ _, fun i hi => (hsrc i hi).trans_le htok,
    fun i hi => (hsrc i hi).trans_le hwt⟩

/-- The last row of a capacity above the fat rows is read at the clamp. -/
theorem srcOf_last (hrows : (fatRows counts cap).sum < rowsCap) :
    srcOf counts cap rowsCap (rowsCap - 1) = rowsCap - 1 := by
  -- above the last fat row the search stops at the last expert
  have hexpert : rowExpertOf counts cap (rowsCap - 1) = counts.length - 1 := by
    rw [rowExpertOf, searchsorted_cumsum_of_sum_le (by omega), length_fatRows]
    omega
  by_cases hpos : 0 < counts.length
  · have hlast : counts.length - 1 < counts.length := by omega
    -- the slots of the experts before the last are no fewer than their fat rows
    have hle : prefixSum (entry (fatRows counts cap)) (counts.length - 1)
        ≤ prefixSum (entry counts) (counts.length - 1) :=
      prefixSum_mono fun e he => entry_fatRows_le (he.trans hlast)
    rw [srcOf, hexpert, entry_exclCumsum hlast,
      entry_exclCumsum (by rwa [length_fatRows])]
    omega
  · have hnil : counts = [] := List.length_eq_zero_iff.mp (by omega)
    rw [srcOf, hexpert, hnil]
    show min (0 + (rowsCap - 1 - 0)) (rowsCap - 1) = rowsCap - 1
    omega

/-- **A capacity above the sorted buffers raises**, unless fat rows fill it. -/
theorem buildGroupedFatTables_eq_error (hrows : (fatRows counts cap).sum < rowsCap)
    (htok : tokenSorted.length < rowsCap) :
    buildGroupedFatTables counts cap tokenSorted weightSorted rowsCap tile
      = .error .outOfRange := by
  refine if_neg fun h => ?_
  have hmem : rowsCap - 1 ∈ (List.range rowsCap).map (srcOf counts cap rowsCap) :=
    List.mem_map.mpr ⟨rowsCap - 1, List.mem_range.mpr (by omega), srcOf_last hrows⟩
  have hlt := h.2.2.1 _ hmem
  omega

/-- A row of the table is read from its slot. -/
theorem getElem?_gather_srcOf {α : Type*} {buf : List α} (hbuf : rowsCap ≤ buf.length) {row : ℕ}
    (hrow : row < rowsCap) :
    (gather buf ((List.range rowsCap).map (srcOf counts cap rowsCap)))[row]? =
      buf[srcOf counts cap rowsCap row]? := by
  have hinside : ∀ i ∈ (List.range rowsCap).map (srcOf counts cap rowsCap), i < buf.length := by
    intro i hi
    obtain ⟨j, hj, rfl⟩ := List.mem_map.mp hi
    exact Nat.lt_of_lt_of_le (srcOf_lt (List.mem_range.mp hj)) hbuf
  rw [getElem?_gather hinside, List.getElem?_map, List.getElem?_range hrow]
  rfl

/-- **The row tables**: row `t` of fat expert `e` is row `t` of its window. -/
theorem rowTables {α : Type*} (hcap : counts.sum ≤ rowsCap) {e t : ℕ} (he : e < counts.length)
    (ht : t < entry (fatRows counts cap) e) {buf : List α} (hbuf : rowsCap ≤ buf.length) :
    let row := prefixSum (entry (fatRows counts cap)) e + t
    ((List.range rowsCap).map (rowExpertOf counts cap))[row]? = some e ∧
      (gather buf ((List.range rowsCap).map (srcOf counts cap rowsCap)))[row]? =
        buf[prefixSum (entry counts) e + t]? := by
  intro row
  -- the row lies inside the buffers, so both lookups read it
  have hrow : row < rowsCap := by
    have := fatRow_lt hcap he ht
    exact Nat.lt_of_lt_of_le this.1 this.2
  constructor
  · rw [List.getElem?_map, List.getElem?_range hrow]
    exact congrArg some (rowExpertOf_eq he ht)
  · rw [getElem?_gather_srcOf hbuf hrow, srcOf_eq hcap he ht]

/-- The fat rows in order, each with its expert. -/
def fatRowList (counts : List ℕ) (cap : ℕ) : List (ℕ × ℕ) :=
  (List.range counts.length).flatMap fun e =>
    (List.range (entry (fatRows counts cap) e)).map fun t =>
      (prefixSum (entry (fatRows counts cap)) e + t, e)

theorem map_fst_fatRowList :
    (fatRowList counts cap).map Prod.fst = List.range (fatRows counts cap).sum := by
  rw [sum_eq_prefixSum, range_prefixSum, length_fatRows, fatRowList, List.map_flatMap]
  refine List.flatMap_congr fun e _ => ?_
  rw [List.map_map]
  rfl

/-- A segment in blocks of 16 rows is its rows. -/
theorem segment_blocks {mb rows : ℕ} (h : rows ≤ mb * 16) (row0 e : ℕ) :
    ((List.range mb).flatMap fun b => (List.range (min 16 (rows - b * 16))).map fun row =>
        (row0 + b * 16 + row, e)) =
      ((List.range rows).map (row0 + ·)).map fun row => (row, e) := by
  rw [← flatMap_blocks h row0, List.map_flatMap]
  refine List.flatMap_congr fun b _ => ?_
  rw [List.map_map]
  rfl

theorem length_fatTiles (counts : List ℕ) (cap tile : ℕ) :
    (fatTiles counts cap tile).length = counts.length := by
  simp [fatTiles, length_fatRows]

theorem entry_fatTiles {e : ℕ} (he : e < counts.length) :
    entry (fatTiles counts cap tile) e =
      (entry (fatRows counts cap) e + (tile - 1)) / tile :=
  entry_map (length_fatRows counts cap ▸ he)

/-- An expert's segments hold its rows. -/
theorem fatRows_le_fatTiles (htile : 0 < tile) {e : ℕ} (he : e < counts.length) :
    entry (fatRows counts cap) e ≤ entry (fatTiles counts cap tile) e * tile := by
  rw [entry_fatTiles he]
  exact le_ceilDiv_mul htile _

theorem segExpertOf_eq {e u : ℕ} (he : e < counts.length)
    (hu : u < entry (fatTiles counts cap tile) e) :
    segExpertOf counts cap tile (prefixSum (entry (fatTiles counts cap tile)) e + u) = e := by
  have hlen : e < (fatTiles counts cap tile).length := by rwa [length_fatTiles]
  rw [segExpertOf, searchsorted_cumsum hlen hu]
  omega

theorem localTileOf_eq {e u : ℕ} (he : e < counts.length)
    (hu : u < entry (fatTiles counts cap tile) e) :
    localTileOf counts cap tile (prefixSum (entry (fatTiles counts cap tile)) e + u) = u := by
  have hlen : e < (fatTiles counts cap tile).length := by rwa [length_fatTiles]
  rw [localTileOf, segExpertOf_eq he hu, entry_exclCumsum hlen, Nat.add_sub_cancel_left]

/-- The segment tables as one table of triples. -/
theorem segTables_zip :
    let t := fatTables counts cap tokenSorted weightSorted rowsCap tile
    t.segExpert.zip (t.segRow0.zip t.segRows) =
      (List.range ((rowsCap + tile - 1) / tile + counts.length)).map fun seg =>
        (segExpertOf counts cap tile seg,
          entry (exclCumsum (fatRows counts cap)) (segExpertOf counts cap tile seg) +
            localTileOf counts cap tile seg * tile,
          min tile (entry (fatRows counts cap) (segExpertOf counts cap tile seg) -
            localTileOf counts cap tile seg * tile)) := by
  intro t
  show ((List.range _).map _).zip (((List.range _).map _).zip ((List.range _).map _)) = _
  rw [List.zip_map', List.zip_map']

/-- The first `num_segs` entries of the segment tables. -/
def segments (t : FatTables W) : List (ℕ × ℕ × ℕ) :=
  gather (t.segExpert.zip (t.segRow0.zip t.segRows)) (List.range t.liveSegs)

/-- **The segments in order**: tile `u` of expert `e`, for every expert and tile. -/
theorem segments_eq (htile : 0 < tile) (hcap : counts.sum ≤ rowsCap) :
    segments (fatTables counts cap tokenSorted weightSorted rowsCap tile) =
      (List.range counts.length).flatMap fun e =>
        (List.range (entry (fatTiles counts cap tile) e)).map fun u =>
          (e, prefixSum (entry (fatRows counts cap)) e + u * tile,
            min tile (entry (fatRows counts cap) e - u * tile)) := by
  have htlen : (fatTiles counts cap tile).length = counts.length := length_fatTiles _ _ _
  -- every live segment has a place in the padded tables
  have hroom : ∀ seg ∈ List.range (fatTiles counts cap tile).sum,
      seg < (rowsCap + tile - 1) / tile + counts.length := fun seg hseg =>
    Nat.lt_of_lt_of_le (List.mem_range.mp hseg) (sum_fatTiles_le htile hcap)
  rw [segments, segTables_zip, liveSegs_fatTables, gather_range_map _ hroom,
    sum_eq_prefixSum, htlen, range_prefixSum, List.map_flatMap]
  -- expert by expert, tile by tile
  refine List.flatMap_congr fun e he => ?_
  have he : e < counts.length := List.mem_range.mp he
  have hfat : e < (fatRows counts cap).length := length_fatRows counts cap ▸ he
  rw [List.map_map]
  refine List.map_congr_left fun u hu => ?_
  have hu : u < entry (fatTiles counts cap tile) e := List.mem_range.mp hu
  simp only [Function.comp, segExpertOf_eq he hu, localTileOf_eq he hu, entry_exclCumsum hfat]

/-- **The segments tile the fat rows**, in order and each with its own expert. -/
theorem flatMap_segments (htile : 0 < tile) (hcap : counts.sum ≤ rowsCap) :
    ((segments (fatTables counts cap tokenSorted weightSorted rowsCap tile)).flatMap
      fun seg => (List.range seg.2.2).map fun row => (seg.2.1 + row, seg.1)) =
      fatRowList counts cap := by
  -- the blocks of one expert are its rows in order
  rw [segments_eq htile hcap, List.flatMap_assoc, fatRowList]
  refine List.flatMap_congr fun e he => ?_
  have hfit : entry (fatRows counts cap) e ≤ entry (fatTiles counts cap tile) e * tile :=
    fatRows_le_fatTiles htile (List.mem_range.mp he)
  rw [List.flatMap_map]
  calc ((List.range (entry (fatTiles counts cap tile) e)).flatMap fun u =>
        (List.range (min tile (entry (fatRows counts cap) e - u * tile))).map fun row =>
          (prefixSum (entry (fatRows counts cap)) e + u * tile + row, e))
      = ((List.range (entry (fatTiles counts cap tile) e)).flatMap fun u =>
          (List.range (min tile (entry (fatRows counts cap) e - u * tile))).map
            (prefixSum (entry (fatRows counts cap)) e + u * tile + ·)).map
              fun row => (row, e) := by
        rw [List.map_flatMap]
        refine List.flatMap_congr fun u _ => ?_
        rw [List.map_map]
        rfl
    _ = _ := by
        rw [flatMap_blocks hfit, List.map_map]
        rfl

/-- No segment is longer than a tile. -/
theorem rows_le_of_mem_segments (htile : 0 < tile) (hcap : counts.sum ≤ rowsCap)
    {seg : ℕ × ℕ × ℕ} (h : seg ∈
      segments (fatTables counts cap tokenSorted weightSorted rowsCap tile)) :
    seg.2.2 ≤ tile := by
  rw [segments_eq htile hcap] at h
  obtain ⟨e, -, h⟩ := List.mem_flatMap.mp h
  obtain ⟨u, -, rfl⟩ := List.mem_map.mp h
  exact Nat.min_le_left _ _

/-- **The segments cover the fat rows**: a launch over the segments visits each fat
row once, with its own expert. -/
theorem segTasks_perm {mb : ℕ} (hmb : 0 < mb) (hcap : counts.sum ≤ rowsCap) :
    (segTasks (fatTables counts cap tokenSorted weightSorted rowsCap (mb * 16))
      mb).Perm (fatRowList counts cap) := by
  have hTpos : 0 < mb * 16 := Nat.mul_pos hmb (by decide)
  set t := fatTables counts cap tokenSorted weightSorted rowsCap (mb * 16) with ht
  set block : ℕ × ℕ × ℕ → List (ℕ × ℕ) := fun seg => (List.range mb).flatMap fun b =>
    (List.range (min 16 (seg.2.2 - b * 16))).map fun row => (seg.2.1 + b * 16 + row, seg.1)
    with hblock
  -- the grid visits every segment once
  have hgrid : 0 < fmGridY t.segExpert.length := by
    rw [fmGridY]
    omega
  have hvisit : (segTasks t mb).Perm ((segments t).flatMap block) := by
    have h := (flatMap_stride_perm hgrid t.liveSegs).filterMap
      ((t.segExpert.zip (t.segRow0.zip t.segRows))[·]?)
    rw [List.filterMap_flatMap] at h
    have h' := h.flatMap_right block
    rw [List.flatMap_assoc] at h'
    exact h'
  -- and a segment in blocks of 16 rows is its rows
  refine hvisit.trans (.of_eq ?_)
  rw [← flatMap_segments hTpos hcap]
  refine List.flatMap_congr fun seg hseg => ?_
  rw [hblock]
  dsimp only
  rw [segment_blocks (rows_le_of_mem_segments hTpos hcap hseg), List.map_map]
  rfl

theorem mem_fatRowList {e t : ℕ} (he : e < counts.length)
    (ht : t < entry (fatRows counts cap) e) :
    (prefixSum (entry (fatRows counts cap)) e + t, e) ∈ fatRowList counts cap :=
  List.mem_flatMap.mpr ⟨e, List.mem_range.mpr he,
    List.mem_map.mpr ⟨t, List.mem_range.mpr ht, rfl⟩⟩

/-- **A launch over the fat rows writes each row once**, whatever the order. -/
theorem scatterWrite_fatRows {α : Type*} {buf : ℕ → α} {tasks : List (ℕ × ℕ)}
    (hp : tasks.Perm (fatRowList counts cap)) (f : ℕ × ℕ → Option α) {e t : ℕ}
    (he : e < counts.length) (ht : t < entry (fatRows counts cap) e) {v : α}
    (hf : f (prefixSum (entry (fatRows counts cap)) e + t, e) = some v) :
    scatterWrite buf (tasks.filterMap fun w => (f w).map (w.1, ·))
      (prefixSum (entry (fatRows counts cap)) e + t) = v := by
  have hnd : (tasks.map Prod.fst).Nodup := by
    rw [(hp.map Prod.fst).nodup_iff, map_fst_fatRowList]
    exact List.nodup_range
  exact scatterWrite_tasks hnd f (hp.mem_iff.mpr (mem_fatRowList he ht)) hf

/-- **The gather grid visits every fat row once**, with its own expert. -/
theorem gatherTasks_perm (hcap : counts.sum ≤ tokenSorted.length) {grid : ℕ} (hgrid : 0 < grid) :
    let t := fatTables counts cap tokenSorted weightSorted tokenSorted.length tile
    (((List.range grid).flatMap fun b => (List.range fmWarps).flatMap fun warp =>
      stride (b * fmWarps + warp) (grid * fmWarps) t.liveRows).filterMap fun row =>
        t.rowExpert[row]?.map (row, ·)).Perm (fatRowList counts cap) := by
  intro t
  -- the warps of the grid start at the numbers below grid * fmWarps
  have hstarts : (List.range grid).flatMap (fun b => (List.range fmWarps).map (b * fmWarps + ·)) =
      List.range (grid * fmWarps) := by
    rw [← tileRows_eq_range (le_refl (grid * fmWarps))]
    refine List.flatMap_congr fun b hb => ?_
    have hb : b < grid := List.mem_range.mp hb
    have hroom : (b + 1) * fmWarps ≤ grid * fmWarps := Nat.mul_le_mul_right _ hb
    rw [Nat.succ_mul] at hroom
    rw [tileRows, Nat.min_eq_left (by omega)]
  -- so each row is taken by one warp
  have hrows : ((List.range grid).flatMap fun b => (List.range fmWarps).flatMap fun warp =>
      stride (b * fmWarps + warp) (grid * fmWarps) t.liveRows).Perm (List.range t.liveRows) := by
    have h := flatMap_stride_perm (Nat.mul_pos hgrid (show 0 < fmWarps by decide)) t.liveRows
    rw [← hstarts, List.flatMap_assoc] at h
    simpa only [List.flatMap_map] using h
  refine (hrows.filterMap _).trans (.of_eq ?_)
  rw [show t.liveRows = _ from liveRows_fatTables, sum_eq_prefixSum,
    range_prefixSum, length_fatRows, List.filterMap_flatMap, fatRowList]
  refine List.flatMap_congr fun e he => ?_
  -- what a warp reads beside its row is the row's expert
  rw [List.filterMap_map, ← List.filterMap_eq_map]
  refine List.filterMap_congr fun row hrow => ?_
  have ht : row < entry (fatRows counts cap) e := List.mem_range.mp hrow
  have h := (rowTables hcap (List.mem_range.mp he) ht (le_refl tokenSorted.length)).1
  show (((List.range tokenSorted.length).map (rowExpertOf counts cap))[_]?).map _ = _
  rw [h]
  rfl

end Tables

/-! ### What arrives in the output -/

section Kernels

variable {l : Layer S} {d : Device S W} {cap : ℕ} {r : Routing W}

theorem sum_counts_le (hsort : IsArgsort d.argsort) :
    ((sortRoutes l d.argsort d.half r).counts l).sum ≤
      (sortRoutes l d.argsort d.half r).tokenSorted.length := by
  have hlen : l.nLocal ≤ (sortRoutes l d.argsort d.half r).expertCount.length := by
    simp [sortRoutes]
  rw [← sum_expertCount hsort, SortedRoutes.counts, sum_take_eq_prefixSum, sum_eq_prefixSum]
  exact prefixSum_le_prefixSum _ hlen

/-- The tables of sorted routes are built without an error. -/
theorem buildGroupedFatTables_counts (hlocal : 0 < l.nLocal) (tile : ℕ) :
    let s := sortRoutes l d.argsort d.half r
    buildGroupedFatTables (s.counts l) cap s.tokenSorted s.weightSorted s.tokenSorted.length tile
      = .ok (fatTables (s.counts l) cap s.tokenSorted s.weightSorted
          s.tokenSorted.length tile) := by
  intro s
  have hcounts : s.counts l ≠ [] := by
    rw [← List.length_pos_iff, length_counts]
    exact hlocal
  exact buildGroupedFatTables_eq_ok hcounts (le_refl _) (le_of_eq length_weightSorted.symm)

/-- The row tables at a fat row hold the slot at its place in the bucket. -/
theorem rowTables_bucket (hsort : IsArgsort d.argsort) {e t : ℕ} (he : e < l.nLocal)
    (ht : t < entry (fatRows ((sortRoutes l d.argsort d.half r).counts l) cap) e)
    {c : ℕ × ℕ} (hc : (bucket l d.argsort r e)[t]? = some c) (tileRows : ℕ) :
    let s := sortRoutes l d.argsort d.half r
    let tables := fatTables (s.counts l) cap s.tokenSorted s.weightSorted
      s.tokenSorted.length tileRows
    let row := prefixSum (entry (fatRows (s.counts l) cap)) e + t
    tables.rowToken[row]? = some c.1 ∧ tables.rowWeight[row]? = some (d.half (r.weight c)) := by
  intro s tables row
  have he' : e < (s.counts l).length := by
    rw [length_counts]
    exact he
  -- the slot of the row in the sorted order, with its token and weight
  have hlt : t < (bucket l d.argsort r e).length := (List.getElem?_eq_some_iff.mp hc).1
  have hstart := prefixSum_counts (r := r) hsort d.half he.le
  have htok := congrArg (·[t]?) (slice_tokenSorted (r := r) hsort d.half (Nat.lt_succ_of_lt he))
  have hwt := congrArg (·[t]?) (slice_weightSorted (r := r) hsort d.half (Nat.lt_succ_of_lt he))
  simp only [getElem?_slice _ _ hlt, List.getElem?_map, hc, Option.map_some] at htok hwt
  constructor
  · rw [← htok, ← hstart]
    exact (rowTables (sum_counts_le hsort) he' ht (le_refl s.tokenSorted.length)).2
  · rw [← hwt, ← hstart]
    exact (rowTables (sum_counts_le hsort) he' ht (le_of_eq length_weightSorted.symm)).2

/-- The gathered row of a slot. -/
theorem fmGather_eq (hd : d.Sound l cap) (suh : ℕ → S) {e t : ℕ} (he : e < l.nLocal)
    (ht : t < entry (fatRows ((sortRoutes l d.argsort d.half r).counts l) cap) e)
    {c : ℕ × ℕ} (hc : (bucket l d.argsort r e)[t]? = some c) (tile : ℕ) :
    let s := sortRoutes l d.argsort d.half r
    fmGather d (fatTables (s.counts l) cap s.tokenSorted s.weightSorted
        s.tokenSorted.length tile) suh (prefixSum (entry (fatRows (s.counts l) cap)) e + t) =
      ⟨c.1, suh e⟩ := by
  intro s
  -- the grid is never empty
  have hgrid : ∀ n, 0 < fmGridX n := fun n => Nat.lt_of_lt_of_le Nat.one_pos (Nat.le_max_right _ _)
  have he' : e < (s.counts l).length := by
    rw [length_counts]
    exact he
  have htok := (rowTables_bucket hd.argsort he ht hc tile).1
  refine scatterWrite_fatRows
    ((hd.sched _).trans (gatherTasks_perm (sum_counts_le hd.argsort) (hgrid _))) _ he' ht ?_
  dsimp only
  rw [htok]
  rfl

/-- The activation row of a slot. -/
theorem fmGateup_eq (hd : d.Sound l cap) (h13g h13u : ℕ → Hidden S) {e t : ℕ}
    (he : e < l.nLocal)
    (ht : t < entry (fatRows ((sortRoutes l d.argsort d.half r).counts l) cap) e) :
    let s := sortRoutes l d.argsort d.half r
    let row := prefixSum (entry (fatRows (s.counts l) cap)) e + t
    fmGateup d (fatTables (s.counts l) cap s.tokenSorted s.weightSorted
        s.tokenSorted.length (fmMbGateup * 16)) h13g h13u row = ⟨h13g row, h13u row, e⟩ := by
  intro s row
  have he' : e < (s.counts l).length := by
    rw [length_counts]
    exact he
  exact scatterWrite_fatRows ((hd.sched _).trans
    (segTasks_perm (show 0 < fmMbGateup by decide) (sum_counts_le hd.argsort))) _ he' ht rfl

/-- **The grouped kernels** add the routes to the fat experts. -/
theorem grouped_perm [DecidableEq S] (hd : d.Sound l cap) :
    (applyExl3GroupedFat d l (sortRoutes l d.argsort d.half r)
        ((sortRoutes l d.argsort d.half r).counts l) cap).Perm
      (routes l r (fun c => d.half (r.weight c))
        fun e => cap < (bucket l d.argsort r e).length) := by
  set s := sortRoutes l d.argsort d.half r with hs
  set tg := fatTables (s.counts l) cap s.tokenSorted s.weightSorted
    s.tokenSorted.length (fmMbGateup * 16) with htg
  set h13 := fmGather d tg l.gateSuh with hh13
  set h13u := if l.sharedW13Suh then h13 else fmGather d tg l.upSuh with hh13u
  set F := entry (fatRows (s.counts l) cap) with hF
  -- the tables hold one count for each local expert
  have hlen : (s.counts l).length = l.nLocal := length_counts d.half
  -- the row the down kernel adds for a slot
  have hrow : ∀ e < l.nLocal, ∀ t < F e, ∀ c, (bucket l d.argsort r e)[t]? = some c →
      ((tg.rowToken.zip tg.rowWeight)[prefixSum F e + t]?.map fun row =>
        (⟨row.1, row.2, fmGateup d tg h13 h13u (prefixSum F e + t), e⟩ : Contribution S W)) =
          some (routeRow l e c.1 (d.half (r.weight c))) := by
    intro e he t ht c hc
    obtain ⟨htok, hwt⟩ := rowTables_bucket hd.argsort he ht hc (fmMbGateup * 16)
    have hzip : (tg.rowToken.zip tg.rowWeight)[prefixSum F e + t]? =
        some (c.1, d.half (r.weight c)) := by
      rw [List.getElem?_zip_eq_some]
      exact ⟨htok, hwt⟩
    have hgate : h13 (prefixSum F e + t) = ⟨c.1, l.gateSuh e⟩ := fmGather_eq hd _ he ht hc _
    have hup : h13u (prefixSum F e + t) = ⟨c.1, l.upSuh e⟩ := by
      rw [hh13u]
      by_cases hshared : l.sharedW13Suh = true
      · rw [if_pos hshared, hgate, Layer.upSuh_eq_of_shared hshared he]
      · rw [if_neg hshared]
        exact fmGather_eq hd _ he ht hc _
    have hact := fmGateup_eq hd h13 h13u he ht
    rw [hzip, hact, hgate, hup]
    rfl
  -- the segments of the down kernel are the fat rows, in some order
  have hdown : (applyExl3GroupedFat d l s (s.counts l) cap).Perm
      ((fatRowList (s.counts l) cap).filterMap fun w =>
        (tg.rowToken.zip tg.rowWeight)[w.1]?.map fun row =>
          (⟨row.1, row.2, fmGateup d tg h13 h13u w.1, w.2⟩ : Contribution S W)) :=
    (segTasks_perm (show 0 < fmMbDown by decide) (sum_counts_le hd.argsort)).filterMap _
  refine hdown.trans (List.Perm.trans (.of_eq ?_)
    (buckets_perm hd.argsort (fun c => d.half (r.weight c)) _))
  rw [fatRowList, List.filterMap_flatMap, hlen]
  refine List.flatMap_congr fun e he => ?_
  have he := List.mem_range.mp he
  -- a fat expert keeps all its rows, a thin one none
  have hFe : F e = if cap < (bucket l d.argsort r e).length then
      (bucket l d.argsort r e).length else 0 := by
    rw [hF, entry_fatRows (hlen ▸ he), entry_counts hd.argsort d.half he]
  by_cases hfat : cap < (bucket l d.argsort r e).length
  · rw [if_pos hfat] at hFe
    rw [if_pos (by simpa using hfat), List.filterMap_map]
    calc _ = (List.range (F e)).filterMap fun t => ((bucket l d.argsort r e)[t]?).map fun c =>
          routeRow l e c.1 (d.half (r.weight c)) := by
          refine List.filterMap_congr fun t ht => ?_
          have ht := List.mem_range.mp ht
          obtain ⟨c, hc⟩ : ∃ c, (bucket l d.argsort r e)[t]? = some c :=
            ⟨_, List.getElem?_eq_getElem (hFe ▸ ht)⟩
          rw [hc]
          exact hrow e he t ht c hc
      _ = (gather (bucket l d.argsort r e) (List.range (F e))).map fun c =>
          routeRow l e c.1 (d.half (r.weight c)) := by
          rw [gather, List.map_filterMap]
      _ = _ := by rw [hFe, gather_range]
  · rw [if_neg hfat] at hFe
    rw [if_neg (by simpa using hfat), show entry (fatRows (s.counts l) cap) e = 0 from hFe]
    rfl

end Kernels

end Dsv41Overlay.Experts
