import Dsv41Overlay.Experts.Grouped
import Mathlib.Data.Set.Function

/-!
# The tables of the grouped fat kernels tile the fat rows

`build_grouped_fat_tables` is given the counts of the experts and the routes sorted by
expert, the routes to the sentinel last (`SortedSlots`). It knows the counts only: where
an expert's slots start, where its fat rows start and where its segments start are three
prefix sums, and the tables are read from them with right-sided searches.

`grouped_tables_tile` says what the tables are. The segments are consecutive intervals of
rows of one expert (`flatMap_segments`), and the rows are, one to one, the slots of the
fat experts (`bijOn_srcOf`). Thin experts have empty intervals in both layouts, which the
searches step over (`searchsorted_cumsum`).
-/

namespace Dsv41Overlay.Experts

variable {W : Type*}

/-! ### The sorted slots -/

/-- `experts` lists the experts of the sorted slots: `counts` says how many slots each has,
and the sentinel is `counts.length`. -/
structure SortedSlots (counts experts : List ℕ) : Prop where
  sorted : experts.Pairwise fun x y => x ≤ y
  count : ∀ e < counts.length, experts.count e = entry counts e
  le_sentinel : ∀ e ∈ experts, e ≤ counts.length

section Slots

variable {counts experts : List ℕ} {cap rowsCap : ℕ}

/-- The slots of one expert. -/
def slotsOf (experts : List ℕ) (e : ℕ) : List ℕ := experts.filter (· = e)

theorem SortedSlots.flatMap_slotsOf (h : SortedSlots counts experts) :
    (List.range (counts.length + 1)).flatMap (slotsOf experts) = experts :=
  flatMap_filter_of_sorted h.sorted fun e he => Nat.lt_succ_of_le (h.le_sentinel e he)

theorem SortedSlots.length_slotsOf (h : SortedSlots counts experts) {e : ℕ}
    (he : e < counts.length) : (slotsOf experts e).length = entry counts e := by
  rw [← h.count e he, slotsOf, List.count, List.countP_eq_length_filter]
  rfl

theorem SortedSlots.prefixSum_eq (h : SortedSlots counts experts) {e : ℕ}
    (he : e ≤ counts.length) :
    prefixSum (fun k => (slotsOf experts k).length) e = prefixSum (entry counts) e :=
  prefixSum_congr fun _ hk => h.length_slotsOf (Nat.lt_of_lt_of_le hk he)

/-- Slot `t` of expert `e`. -/
theorem SortedSlots.getElem?_eq (h : SortedSlots counts experts) {e t : ℕ}
    (he : e < counts.length) (ht : t < entry counts e) :
    experts[prefixSum (entry counts) e + t]? = some e := by
  have hlen : t < (slotsOf experts e).length := by rwa [h.length_slotsOf he]
  -- the window of expert e starts where the slots of the earlier experts end
  have hread := getElem?_flatMap_range (slotsOf experts) (Nat.lt_succ_of_lt he) hlen
  rw [h.flatMap_slotsOf, h.prefixSum_eq he.le] at hread
  have hmem : (slotsOf experts e)[t] ∈ slotsOf experts e := List.getElem_mem hlen
  have heq : (slotsOf experts e)[t] = e := by
    have := (List.mem_filter.mp hmem).2
    exact of_decide_eq_true this
  rw [hread, List.getElem?_eq_getElem hlen, heq]

/-- Every slot of expert `e` is one of them. -/
theorem SortedSlots.exists_eq (h : SortedSlots counts experts) {e j : ℕ}
    (he : e < counts.length) (hj : experts[j]? = some e) :
    ∃ t < entry counts e, j = prefixSum (entry counts) e + t := by
  obtain ⟨hlt, hget⟩ := List.getElem?_eq_some_iff.mp hj
  have hbound : j < prefixSum (fun k => (slotsOf experts k).length) (counts.length + 1) := by
    rwa [← length_flatMap_range, h.flatMap_slotsOf]
  obtain ⟨k, hk, t, ht, rfl⟩ := exists_segment _ hbound
  -- the slot lies in the window of its own expert
  have hread := getElem?_flatMap_range (slotsOf experts) hk ht
  rw [h.flatMap_slotsOf, hj, List.getElem?_eq_getElem ht] at hread
  have hmem : (slotsOf experts k)[t] ∈ slotsOf experts k := List.getElem_mem ht
  have hke : (slotsOf experts k)[t] = k := of_decide_eq_true (List.mem_filter.mp hmem).2
  obtain rfl : e = k := (Option.some.inj hread).trans hke
  refine ⟨t, ?_, ?_⟩
  · rwa [← h.length_slotsOf he]
  · rw [h.prefixSum_eq he.le]

/-- The experts' slots are some of the slots. -/
theorem SortedSlots.sum_le (h : SortedSlots counts experts) : counts.sum ≤ experts.length := by
  have hlen : experts.length
      = prefixSum (fun k => (slotsOf experts k).length) (counts.length + 1) := by
    rw [← length_flatMap_range, h.flatMap_slotsOf]
  rw [hlen, prefixSum_succ, h.prefixSum_eq (le_refl _), ← sum_eq_prefixSum]
  exact Nat.le_add_right _ _

/-- Every fat row is row `t` of some fat expert. -/
theorem exists_fatRow {r : ℕ} (hr : r < (fatRows counts cap).sum) :
    ∃ e < counts.length, ∃ t < entry (fatRows counts cap) e,
      r = prefixSum (entry (fatRows counts cap)) e + t := by
  rw [sum_eq_prefixSum, length_fatRows] at hr
  exact exists_segment _ hr

/-- Only a fat expert has fat rows. -/
theorem fat_of_row {e t : ℕ} (he : e < counts.length)
    (ht : t < entry (fatRows counts cap) e) :
    cap < entry counts e ∧ entry (fatRows counts cap) e = entry counts e := by
  rw [entry_fatRows he] at ht ⊢
  split at ht
  · next hfat => exact ⟨hfat, if_pos hfat⟩
  · exact absurd ht (Nat.not_lt_zero t)

/-- **The fat rows are the slots of the fat experts.** -/
theorem bijOn_srcOf (h : SortedSlots counts experts) (hcap : counts.sum ≤ rowsCap) :
    Set.BijOn (srcOf counts cap rowsCap) {r | r < (fatRows counts cap).sum}
      {j | ∃ e < counts.length, experts[j]? = some e ∧ cap < entry counts e} := by
  -- into the fat slots, one slot a row, and every fat slot reached
  refine ⟨?_, ?_, ?_⟩
  · intro r hr
    obtain ⟨e, he, t, ht, rfl⟩ := exists_fatRow hr
    obtain ⟨hfat, hrows⟩ := fat_of_row he ht
    rw [srcOf_eq hcap he ht]
    exact ⟨e, he, h.getElem?_eq he (hrows ▸ ht), hfat⟩
  · intro r hr r' hr' heq
    obtain ⟨e, he, t, ht, rfl⟩ := exists_fatRow hr
    obtain ⟨e', he', t', ht', rfl⟩ := exists_fatRow hr'
    rw [srcOf_eq hcap he ht, srcOf_eq hcap he' ht'] at heq
    -- one slot has one expert
    have hslot := h.getElem?_eq he ((fat_of_row he ht).2 ▸ ht)
    have hslot' := h.getElem?_eq he' ((fat_of_row he' ht').2 ▸ ht')
    rw [heq, hslot'] at hslot
    obtain rfl : e' = e := Option.some.inj hslot
    have htt : t = t' := Nat.add_left_cancel heq
    rw [htt]
  -- the slot is row t of its expert, and that expert keeps all its rows
  · rintro j ⟨e, he, hj, hfat⟩
    obtain ⟨t, ht, rfl⟩ := h.exists_eq he hj
    have hrows : entry (fatRows counts cap) e = entry counts e := by
      rw [entry_fatRows he, if_pos hfat]
    have ht' : t < entry (fatRows counts cap) e := by rwa [hrows]
    exact ⟨prefixSum (entry (fatRows counts cap)) e + t, (fatRow_lt hcap he ht').1,
      srcOf_eq hcap he ht'⟩

end Slots

/-! ### The segments -/

section Segments

variable {counts : List ℕ} {cap tile rowsCap : ℕ} {tokenSorted : List ℕ} {weightSorted : List W}

/-- An expert's tile starts inside its rows. -/
theorem tile_lt (htile : 0 < tile) {e u : ℕ} (he : e < counts.length)
    (hu : u < entry (fatTiles counts cap tile) e) :
    u * tile < entry (fatRows counts cap) e := by
  rw [entry_fatTiles he] at hu
  have hle : (u + 1) * tile ≤ entry (fatRows counts cap) e + (tile - 1) :=
    (Nat.le_div_iff_mul_le htile).mp hu
  rw [Nat.succ_mul] at hle
  omega

/-- **A segment past the last has no rows.** -/
theorem padding_rows (htile : 0 < tile) {seg : ℕ} (hseg : (fatTiles counts cap tile).sum ≤ seg) :
    entry (fatRows counts cap) (segExpertOf counts cap tile seg)
      - localTileOf counts cap tile seg * tile = 0 := by
  have hall : segExpertOf counts cap tile seg = counts.length - 1 := by
    rw [segExpertOf, searchsorted_cumsum_of_sum_le hseg, length_fatTiles]
    omega
  by_cases hempty : counts.length = 0
  · -- without experts there are no rows at all
    have hlen : (fatRows counts cap).length ≤ segExpertOf counts cap tile seg := by
      rw [length_fatRows, hempty]
      exact Nat.zero_le _
    rw [entry_of_length_le hlen, Nat.zero_sub]
  · have he : counts.length - 1 < counts.length := by omega
    have hlen : counts.length - 1 < (fatTiles counts cap tile).length := by rwa [length_fatTiles]
    -- the segment lies above every tile of the last expert
    have hend := prefixSum_succ (entry (fatTiles counts cap tile)) (counts.length - 1)
    have hsucc : counts.length - 1 + 1 = (fatTiles counts cap tile).length := by
      rw [length_fatTiles]
      omega
    rw [hsucc, ← sum_eq_prefixSum] at hend
    have hlocal : entry (fatTiles counts cap tile) (counts.length - 1)
        ≤ localTileOf counts cap tile seg := by
      rw [localTileOf, hall, entry_exclCumsum hlen]
      omega
    have hfit : entry (fatRows counts cap) (counts.length - 1)
        ≤ entry (fatTiles counts cap tile) (counts.length - 1) * tile :=
      fatRows_le_fatTiles htile he
    -- no row of the last expert is left at that tile
    rw [hall]
    exact Nat.sub_eq_zero_of_le (hfit.trans (Nat.mul_le_mul_right tile hlocal))

/-- An entry of a segment table. -/
theorem getElem?_segTable {α : Type*} (f : ℕ → α) {n seg : ℕ} (hseg : seg < n) :
    ((List.range n).map f)[seg]? = some (f seg) := by
  rw [List.getElem?_map, List.getElem?_range hseg]
  rfl

/-- The rows of a segment belong to its expert. -/
theorem rowExpertOf_tile {e u r : ℕ} (he : e < counts.length)
    (hlo : prefixSum (entry (fatRows counts cap)) e + u * tile ≤ r)
    (hhi : r < prefixSum (entry (fatRows counts cap)) e + u * tile +
      min tile (entry (fatRows counts cap) e - u * tile)) :
    rowExpertOf counts cap r = e ∧ r < (fatRows counts cap).sum := by
  obtain ⟨t, rfl⟩ : ∃ t, r = prefixSum (entry (fatRows counts cap)) e + t :=
    ⟨r - prefixSum (entry (fatRows counts cap)) e, by omega⟩
  have ht : t < entry (fatRows counts cap) e := by omega
  exact ⟨rowExpertOf_eq he ht, (fatRow_lt (le_refl counts.sum) he ht).1⟩

/-- The table entries of an expert's tile `u`: the expert, its first row and its rows. -/
theorem getElem?_segment (htile : 0 < tile) (hcap : counts.sum ≤ rowsCap) {e u : ℕ}
    (he : e < counts.length) (hu : u < entry (fatTiles counts cap tile) e) :
    let t := fatTables counts cap tokenSorted weightSorted rowsCap tile
    let s := prefixSum (entry (fatTiles counts cap tile)) e + u
    t.segExpert[s]? = some e ∧
      t.segRow0[s]? = some (prefixSum (entry (fatRows counts cap)) e + u * tile) ∧
      t.segRows[s]? = some (min tile (entry (fatRows counts cap) e - u * tile)) := by
  intro t s
  -- a live segment has a place in the padded table
  have hlive : s < (fatTiles counts cap tile).sum := by
    have hend := prefixSum_add_le (entry (fatTiles counts cap tile)) he
    rw [sum_eq_prefixSum, length_fatTiles]
    omega
  have hmax := Nat.lt_of_lt_of_le hlive (sum_fatTiles_le htile hcap)
  -- the three tables are read at one place
  refine ⟨?_, ?_, ?_⟩
  · exact (getElem?_segTable _ hmax).trans (congrArg some (segExpertOf_eq he hu))
  · refine (getElem?_segTable _ hmax).trans (congrArg some ?_)
    show entry _ (segExpertOf counts cap tile s) + localTileOf counts cap tile s * tile = _
    rw [segExpertOf_eq he hu, localTileOf_eq he hu, entry_exclCumsum (by rwa [length_fatRows])]
  · refine (getElem?_segTable _ hmax).trans (congrArg some ?_)
    show min tile (entry _ (segExpertOf counts cap tile s) -
      localTileOf counts cap tile s * tile) = _
    rw [segExpertOf_eq he hu, localTileOf_eq he hu]

/-- The live segments without their experts. -/
theorem map_snd_segments (htile : 0 < tile) (hcap : counts.sum ≤ rowsCap) :
    let t := fatTables counts cap tokenSorted weightSorted rowsCap tile
    (segments t).map Prod.snd
      = (t.segRow0.zip t.segRows).take (fatTiles counts cap tile).sum := by
  intro t
  -- the take keeps exactly the live segments
  have hsegs : (fatTiles counts cap tile).sum ≤ (rowsCap + tile - 1) / tile + counts.length :=
    sum_fatTiles_le htile hcap
  have hroom : ∀ seg ∈ List.range (fatTiles counts cap tile).sum,
      seg < (rowsCap + tile - 1) / tile + counts.length := fun seg hseg =>
    Nat.lt_of_lt_of_le (List.mem_range.mp hseg) hsegs
  rw [segments, segTables_zip, liveSegs_fatTables, gather_range_map _ hroom, List.map_map]
  show _ = (((List.range _).map _).zip ((List.range _).map _)).take _
  rw [List.zip_map', ← List.map_take, List.take_range, Nat.min_eq_left hsegs]
  rfl

/-- **The live segments partition the fat rows**, in order. -/
theorem flatMap_rows (htile : 0 < tile) (hcap : counts.sum ≤ rowsCap) :
    let t := fatTables counts cap tokenSorted weightSorted rowsCap tile
    ((t.segRow0.zip t.segRows).take (fatTiles counts cap tile).sum).flatMap
      (fun seg => (List.range seg.2).map (seg.1 + ·)) = List.range (fatRows counts cap).sum := by
  intro t
  calc ((t.segRow0.zip t.segRows).take (fatTiles counts cap tile).sum).flatMap
        (fun seg => (List.range seg.2).map (seg.1 + ·))
      = ((segments t).flatMap fun seg =>
          (List.range seg.2.2).map fun row => (seg.2.1 + row, seg.1)).map Prod.fst := by
        rw [← map_snd_segments htile hcap, List.flatMap_map, List.map_flatMap]
        refine List.flatMap_congr fun seg _ => ?_
        rw [List.map_map]
        rfl
    _ = List.range (fatRows counts cap).sum := by
        rw [flatMap_segments htile hcap]
        exact map_fst_fatRowList

theorem sum_fatRows : (fatRows counts cap).sum = (counts.filter fun c => decide (cap < c)).sum := by
  unfold fatRows
  induction counts with
  | nil => rfl
  | cons c counts ih =>
    rw [List.map_cons, List.sum_cons, ih, List.filter_cons]
    -- a thin expert adds no row
    by_cases hc : cap < c
    · rw [if_pos hc, if_pos (decide_eq_true hc), List.sum_cons]
    · rw [if_neg hc, Nat.zero_add, if_neg (by simpa using hc)]

end Segments

/-! ### The result -/

/-- **The tables tile the fat rows exactly.** For routes sorted by expert, the sentinel's
last, at least one expert and a capacity that holds every route to an expert: a capacity
above the sorted buffers raises, and otherwise the tables are built. The live segments fit
the tables and cut the fat rows into consecutive intervals of at most a tile, each of one
expert; the segments past them are empty; and the fat rows are, one to one, the sorted
slots of the experts with more than `cap` routes, each with the expert, the token and the
weight of its slot. -/
theorem grouped_tables_tile {counts experts tokenSorted : List ℕ} {weightSorted : List W}
    (hslots : SortedSlots counts experts) (hcounts : counts ≠ [])
    (htok : tokenSorted.length = experts.length) (hwt : weightSorted.length = experts.length)
    (cap rowsCap tile : ℕ) (hroutes : counts.sum ≤ rowsCap) (htile : 1 ≤ tile) :
    let maxSegs := (rowsCap + tile - 1) / tile + counts.length
    (experts.length < rowsCap →
      buildGroupedFatTables counts cap tokenSorted weightSorted rowsCap tile
        = .error .outOfRange) ∧
    (rowsCap ≤ experts.length → ∃ (t : FatTables W) (numRows numSegs : ℕ),
      buildGroupedFatTables counts cap tokenSorted weightSorted rowsCap tile = .ok t ∧
      t.numRows = [numRows] ∧ t.numSegs = [numSegs] ∧
      numRows = (counts.filter fun c => decide (cap < c)).sum ∧ numRows ≤ rowsCap ∧
      numSegs ≤ maxSegs ∧
      ((t.segRow0.zip t.segRows).take numSegs).flatMap
        (fun seg => (List.range seg.2).map (seg.1 + ·)) = List.range numRows ∧
      (∀ s < numSegs, ∃ e row0 rows, e < counts.length ∧ t.segExpert[s]? = some e ∧
        t.segRow0[s]? = some row0 ∧ t.segRows[s]? = some rows ∧ 1 ≤ rows ∧ rows ≤ tile ∧
        ∀ r, row0 ≤ r → r < row0 + rows → t.rowExpert[r]? = some e) ∧
      (∀ s, numSegs ≤ s → s < maxSegs → t.segRows[s]? = some 0) ∧
      ∃ slot : ℕ → ℕ,
        Set.BijOn slot {r | r < numRows}
          {j | ∃ e < counts.length, experts[j]? = some e ∧ cap < entry counts e} ∧
        ∀ r < numRows, t.rowExpert[r]? = experts[slot r]? ∧
          t.rowToken[r]? = tokenSorted[slot r]? ∧ t.rowWeight[r]? = weightSorted[slot r]?) := by
  intro maxSegs
  -- the rows and the segments fit their buffers
  have hrows : (fatRows counts cap).sum ≤ rowsCap := sum_fatRows_le.trans hroutes
  have hsegs : (fatTiles counts cap tile).sum ≤ maxSegs := sum_fatTiles_le htile hroutes
  have hfat : fatRows counts cap ≠ [] := by
    rwa [← List.length_pos_iff, length_fatRows, List.length_pos_iff]
  have htiles : fatTiles counts cap tile ≠ [] := by
    rwa [← List.length_pos_iff, length_fatTiles, List.length_pos_iff]
  constructor
  · intro hover
    -- the fat rows fit the buffers, so the capacity exceeds them too
    have hsum : (fatRows counts cap).sum ≤ experts.length := sum_fatRows_le.trans hslots.sum_le
    exact buildGroupedFatTables_eq_error (by omega) (by omega)
  intro hbuf
  refine ⟨fatTables counts cap tokenSorted weightSorted rowsCap tile, _, _,
    buildGroupedFatTables_eq_ok hcounts (by omega) (by omega), lastSlice_cumsum hfat,
    lastSlice_cumsum htiles, sum_fatRows, hrows, hsegs, flatMap_rows htile hroutes, ?_, ?_,
    srcOf counts cap rowsCap, bijOn_srcOf hslots hroutes, ?_⟩
  · intro s hs
    have hs' : s < prefixSum (entry (fatTiles counts cap tile)) counts.length := by
      rw [← length_fatTiles counts cap tile, ← sum_eq_prefixSum]
      exact hs
    obtain ⟨e, he, u, hu, rfl⟩ := exists_segment _ hs'
    -- a live segment is a tile that starts inside the rows of its expert
    have hstart := tile_lt htile he hu
    obtain ⟨hexpert, hrow0, hsegRows⟩ := getElem?_segment htile hroutes he hu
    refine ⟨e, _, _, he, hexpert, hrow0, hsegRows, by omega, Nat.min_le_left _ _, ?_⟩
    intro r hlo hhi
    obtain ⟨howner, hr⟩ := rowExpertOf_tile he hlo hhi
    exact (getElem?_segTable _ (Nat.lt_of_lt_of_le hr hrows)).trans (congrArg some howner)
  · intro s hlo hhi
    refine (getElem?_segTable _ hhi).trans (congrArg some ?_)
    show min tile (entry _ (segExpertOf counts cap tile s) -
      localTileOf counts cap tile s * tile) = 0
    rw [padding_rows htile hlo]
    exact Nat.min_zero tile
  · intro r hr
    have hrcap : r < rowsCap := Nat.lt_of_lt_of_le hr hrows
    refine ⟨?_, ?_, ?_⟩
    · -- the expert of a row is that of its slot
      obtain ⟨e, he, u, hu, rfl⟩ := exists_fatRow hr
      rw [srcOf_eq hroutes he hu, hslots.getElem?_eq he ((fat_of_row he hu).2 ▸ hu)]
      exact (getElem?_segTable _ hrcap).trans (congrArg some (rowExpertOf_eq he hu))
    · exact getElem?_gather_srcOf (by rwa [htok]) hrcap
    · exact getElem?_gather_srcOf (by rwa [hwt]) hrcap

/-- Four experts, of which two have more than one route, and a route to the sentinel. -/
theorem grouped_tables_tile_four :
    ∃ t, buildGroupedFatTables [0, 3, 1, 2] 1 [0, 1, 2, 0, 1, 2, 3]
        [(), (), (), (), (), (), ()] 7 2 = .ok t ∧ t.numRows = [5] := by
  have hslots : SortedSlots [0, 3, 1, 2] [1, 1, 1, 2, 3, 3, 4] :=
    ⟨by decide, by decide, by decide⟩
  have htok : [0, 1, 2, 0, 1, 2, 3].length = [1, 1, 1, 2, 3, 3, 4].length := by decide
  have hwt : [(), (), (), (), (), (), ()].length = [1, 1, 1, 2, 3, 3, 4].length := by decide
  obtain ⟨t, numRows, -, hbuild, hnum, -, hsum, -⟩ :=
    (grouped_tables_tile hslots (by decide) htok hwt 1 7 2 (by decide) (by decide)).2 (by decide)
  exact ⟨t, hbuild, hnum.trans (congrArg (fun n => [n]) hsum)⟩

/-- A capacity of two rows over buffers of one slot, and slots without any expert: both
builds raise. -/
theorem grouped_tables_overrun :
    SortedSlots [1] [0] ∧ [1].sum ≤ 2 ∧
      buildGroupedFatTables [1] 0 [7] [()] 2 1 = .error .outOfRange ∧
    SortedSlots [] [0] ∧ ([] : List ℕ).sum ≤ 1 ∧
      buildGroupedFatTables [] 0 [7] [()] 1 1 = .error .outOfRange :=
  ⟨⟨by decide, by decide, by decide⟩, by decide, rfl, ⟨by decide, by decide, by decide⟩,
    by decide, rfl⟩

end Dsv41Overlay.Experts
