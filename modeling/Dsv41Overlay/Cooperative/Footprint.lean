import Dsv41Overlay.Lib.Visits
import Dsv41Overlay.Cooperative.Runs
import Dsv41Overlay.Cooperative.Kernels

/-!
# What the kernels store and where they arrive

The blocks of kernels A and B visit every pair of an active slot and a column group
once (`visits_perm`). Their stores and arrivals are read off these pairs: no cell has
two writers (`nodup_written_a`, `nodup_written_b`), and a counter gets as many arrivals
as its blocks expect (`arrivals_a`, `arrivals_b`). The rotation kernel has one warp for
each of its cells (`nodup_written_rot`).
-/

namespace Dsv41Overlay.Cooperative

open Completion

variable {V : Type*} {C : Call V} {T : RunTable}

/-! ### Geometry -/

theorem tileGpc_pos (wide : Bool) : 0 < tileGpc wide := by cases wide <;> decide

theorem ngA_eq (C : Call V) : C.ngA = 9 * tileGpc C.wideA := by
  rw [Call.ngA]
  cases C.wideA <;> rfl

theorem ngB_eq (C : Call V) : C.ngB = 40 * tileGpc C.wideB := by
  rw [Call.ngB]
  cases C.wideB <;> rfl

theorem ngA_pos (C : Call V) : 0 < C.ngA := by
  have := tileGpc_pos C.wideA
  rw [ngA_eq]
  omega

/-- Blocks of kernel A for one run. -/
def Call.perA (C : Call V) : ℕ := C.ngA * 2

theorem gridA_eq (C : Call V) : C.gridA = C.slots * C.perA := by
  rw [Call.gridA, Call.slots, Call.perA, Nat.mul_comm C.ngA 2]
  exact Nat.mul_assoc ..

theorem gridB_eq (C : Call V) : C.gridB = C.slots * C.ngB := rfl

/-- A group below the number of groups lies in one of the chunks. -/
theorem chunkA_lt {group : ℕ} (h : group < C.ngA) : group / tileGpc C.wideA < 9 := by
  rw [ngA_eq] at h
  exact Nat.div_lt_of_lt_mul (by rwa [Nat.mul_comm] at h)

theorem chunkB_lt {group : ℕ} (h : group < C.ngB) : group / tileGpc C.wideB < 40 := by
  rw [ngB_eq] at h
  exact Nat.div_lt_of_lt_mul (by rwa [Nat.mul_comm] at h)

/-! ### Programs read cell by cell -/

theorem cells_resets (ctr : ℕ → Counter) (len grid block : ℕ) (ts : List ℕ) :
    (resets ctr len grid block ts : Program V).filterMap Op.cell? = [] := by
  refine List.filterMap_eq_nil_iff.mpr fun op hop => ?_
  obtain ⟨t, -, ht⟩ := List.mem_flatMap.mp hop
  obtain ⟨i, -, rfl⟩ := List.mem_map.mp ht
  rfl

theorem keys_resets (ctr : ℕ → Counter) (len grid block : ℕ) (ts : List ℕ) :
    (resets ctr len grid block ts : Program V).filterMap Op.key? = [] := by
  refine List.filterMap_eq_nil_iff.mpr fun op hop => ?_
  obtain ⟨t, -, ht⟩ := List.mem_flatMap.mp hop
  obtain ⟨i, -, rfl⟩ := List.mem_map.mp ht
  rfl

theorem cells_gemvTile (C : Call V) (rows : List ℕ) (cell : ℕ → Cell) (f : ℕ → (Cell → V) → V) :
    (gemvTile C rows cell f).filterMap Op.cell? = rows.map cell := by
  calc (gemvTile C rows cell f).filterMap Op.cell?
      = rows.zipIdx.filterMap fun sr => some (cell sr.1) := by
        rw [gemvTile, List.filterMap_map]
        rfl
    _ = (rows.zipIdx.map Prod.fst).map cell := by
        rw [List.filterMap_eq_map', List.map_map]
        rfl
    _ = rows.map cell := by rw [List.zipIdx_map_fst]

theorem keys_gemvTile (C : Call V) (rows : List ℕ) (cell : ℕ → Cell) (f : ℕ → (Cell → V) → V) :
    (gemvTile C rows cell f).filterMap Op.key? = [] := by
  refine List.filterMap_eq_nil_iff.mpr fun op hop => ?_
  obtain ⟨sr, -, rfl⟩ := List.mem_map.mp hop
  rfl

theorem cells_empty (C : Call V) (row : ℕ) (chunks : List ℕ) :
    (chunks.map (writeEmptyRowChunk C row)).filterMap Op.cell? = chunks.map (.out row) := by
  rw [List.filterMap_map]
  exact congrFun List.filterMap_eq_map' _

theorem keys_empty (C : Call V) (row : ℕ) (chunks : List ℕ) :
    (chunks.map (writeEmptyRowChunk C row)).filterMap Op.key? = [] := by
  refine List.filterMap_eq_nil_iff.mpr fun op hop => ?_
  obtain ⟨oc, -, rfl⟩ := List.mem_map.mp hop
  rfl

theorem cells_aTile (C : Call V) (isGate : Bool) (group : ℕ) (rows : List ℕ) :
    (aTile C isGate group rows).filterMap Op.cell? = rows.map (.gu isGate · group) := by
  rw [aTile, List.filterMap_append, cells_gemvTile, List.filterMap_map]
  refine (congrArg _ (List.filterMap_eq_nil_iff.mpr fun s _ => ?_)).trans (List.append_nil _)
  rfl

theorem keys_aTile (C : Call V) (isGate : Bool) (group : ℕ) (rows : List ℕ) :
    (aTile C isGate group rows).filterMap Op.key? =
      rows.map fun s => .a (s * 9 + group / tileGpc C.wideA) := by
  rw [aTile, List.filterMap_append, keys_gemvTile, List.nil_append, List.filterMap_map]
  exact congrFun List.filterMap_eq_map' _

theorem cells_bTile (C : Call V) (group : ℕ) (rows : List ℕ) :
    (bTile C group rows).filterMap Op.cell? = rows.map (.dOut · group) := by
  rw [bTile, List.filterMap_append, cells_gemvTile, List.filterMap_map]
  refine (congrArg _ (List.filterMap_eq_nil_iff.mpr fun s _ => ?_)).trans (List.append_nil _)
  rfl

theorem keys_bTile (C : Call V) (group : ℕ) (rows : List ℕ) :
    (bTile C group rows).filterMap Op.key? =
      rows.map fun s => .b (s / 6 * 40 + group / tileGpc C.wideB) := by
  rw [bTile, List.filterMap_append, keys_gemvTile, List.nil_append, List.filterMap_map]
  exact congrFun List.filterMap_eq_map' _

/-! ### Kernel A -/

/-- The cell of a gate/up tile: visit `(s, j)` has group `j / 2`, and is a gate visit when
`j` is even. -/
def aCell (v : ℕ × ℕ) : Cell := .gu (v.2 % 2 == 0) v.1 (v.2 / 2)

/-- The counter that a gate/up visit arrives at. -/
def aKey (C : Call V) (v : ℕ × ℕ) : Counter := .a (v.1 * 9 + v.2 / 2 / tileGpc C.wideA)

/-- A block of kernel A by its run and its place in it. -/
def aBlockAt (C : Call V) (T : RunTable) (item i j : ℕ) : List (Program V) :=
  match readRun C T i with
  | none => (List.range 16).map fun warp =>
      resets .b 320 C.gridA item (lanes warp) ++ aIdle C (j % 2 == 0) i (j / 2) warp
  | some rows =>
    [resets .b 320 C.gridA item (List.range threads) ++ aTile C (j % 2 == 0) (j / 2) rows]

theorem aBlock_eq (C : Call V) (T : RunTable) (item : ℕ) :
    aBlock C T item = aBlockAt C T item (item / C.perA) (item % C.perA) := by
  have hrun : item / 2 / C.ngA = item / C.perA := by
    rw [Nat.div_div_eq_div_mul, Nat.mul_comm, Call.perA]
  have hgroup : item / 2 % C.ngA = item % C.perA / 2 := (Nat.mod_mul_left_div_self ..).symm
  have hproj : item % 2 = item % C.perA % 2 := (Nat.mod_mul_left_mod ..).symm
  rw [aBlock, hrun, hgroup, hproj]
  rfl

/-- The output chunks that the idle blocks of a run store. -/
def idleCells (C : Call V) (T : RunTable) (i j : ℕ) : List Cell :=
  if readRun C T i = none then
    (List.range 16).flatMap fun warp =>
      (aIdle C (j % 2 == 0) i (j / 2) warp).filterMap Op.cell?
  else []

theorem cells_aBlockAt (C : Call V) (T : RunTable) (item i j : ℕ) :
    (aBlockAt C T item i j).flatMap (List.filterMap Op.cell?) =
      ((runRows C T i).map fun s => aCell (s, j)) ++ idleCells C T i j := by
  rw [aBlockAt, runRows, idleCells]
  cases readRun C T i with
  | none =>
    rw [if_pos rfl, List.flatMap_map, Option.getD_none, List.map_nil, List.nil_append]
    refine List.flatMap_congr fun warp _ => ?_
    rw [List.filterMap_append, cells_resets, List.nil_append]
  | some rows =>
    rw [if_neg (Option.some_ne_none rows), List.flatMap_singleton, List.filterMap_append,
      cells_resets, List.nil_append, cells_aTile, List.append_nil]
    rfl

theorem keys_aBlockAt (C : Call V) (T : RunTable) (item i j : ℕ) :
    (aBlockAt C T item i j).flatMap (List.filterMap Op.key?) =
      (runRows C T i).map fun s => aKey C (s, j) := by
  rw [aBlockAt, runRows]
  cases readRun C T i with
  -- an idle item touches no counter
  | none =>
    rw [List.flatMap_map]
    refine List.flatMap_eq_nil_iff.mpr fun warp _ => ?_
    rw [List.filterMap_append, keys_resets, List.nil_append, aIdle]
    split
    · exact keys_empty ..
    · rfl
  -- a tile arrives once for each of its rows
  | some rows =>
    rw [List.flatMap_singleton, List.filterMap_append, keys_resets, List.nil_append, keys_aTile]
    rfl

/-- What the idle blocks of kernel A store. -/
def idleWrites (C : Call V) (T : RunTable) : List Cell :=
  (List.range C.slots).flatMap fun i => (List.range C.perA).flatMap (idleCells C T i)

/-- **The stores of kernel A**: a tile for each visit, and the idle blocks' chunks. -/
theorem written_a_perm (C : Call V) (T : RunTable) :
    (written (aPrograms C T)).Perm
      ((visits (runRows C T) C.slots C.perA).map aCell ++ idleWrites C T) := by
  -- an item writes the cells of its tile, or those of an idle one
  have hblocks : written (aPrograms C T) = (List.range (C.slots * C.perA)).flatMap fun item =>
      ((runRows C T (item / C.perA)).map fun s => aCell (s, item % C.perA)) ++
        idleCells C T (item / C.perA) (item % C.perA) := by
    rw [written, aPrograms, gridA_eq, List.flatMap_assoc]
    refine List.flatMap_congr fun item _ => ?_
    rw [aBlock_eq, cells_aBlockAt]
  -- the tiles by run and item
  have htiles : ((List.range (C.slots * C.perA)).flatMap fun item =>
      (runRows C T (item / C.perA)).map fun s => aCell (s, item % C.perA)) =
        (visits (runRows C T) C.slots C.perA).map aCell := by
    rw [visits, List.map_flatMap]
    refine List.flatMap_congr fun item _ => ?_
    rw [List.map_map]
    rfl
  -- the idle cells the same way
  have hidle : ((List.range (C.slots * C.perA)).flatMap fun item =>
      idleCells C T (item / C.perA) (item % C.perA)) = idleWrites C T :=
    flatMap_range_mul (idleCells C T) C.slots C.perA
  rw [hblocks, ← htiles, ← hidle]
  -- each block writes both kinds; as multisets they can be told apart
  exact (List.flatMap_append_perm _ _ _).symm

theorem arrived_a (C : Call V) (T : RunTable) :
    arrived (aPrograms C T) = (visits (runRows C T) C.slots C.perA).map (aKey C) := by
  rw [arrived, aPrograms, gridA_eq, List.flatMap_assoc, visits, List.map_flatMap]
  refine List.flatMap_congr fun item _ => ?_
  rw [aBlock_eq, keys_aBlockAt, List.map_map]
  rfl

/-- A token of a single row without an active slot has no run. -/
theorem readRun_of_empty {i : ℕ} (hrows : ¬ 1 < C.rows) (hi : i < C.slots) (h6 : i % 6 = 0)
    (hempty : tokenActiveSlots C (i / 6) = 0) : readRun C T i = none := by
  have hinactive := List.countP_eq_zero.mp hempty 0 (by decide)
  have hslot : i / 6 * 6 + 0 = i := by omega
  rw [hslot] at hinactive
  rw [readRun, if_pos (Nat.le_of_not_lt hrows), if_neg (Nat.not_le_of_lt hi), if_neg hinactive]

/-- What an idle block stores: a strided part of an empty row, when the call has one row and
the block is one of the up projection. -/
theorem idleCells_eq (C : Call V) (T : RunTable) {i : ℕ} (hi : i < C.slots) (j : ℕ) :
    idleCells C T i j =
      if ¬ 1 < C.rows ∧ j % 2 ≠ 0 ∧ i % 6 = 0 ∧ tokenActiveSlots C (i / 6) = 0 then
        (List.range 16).flatMap fun warp =>
          (stride (j / 2 + warp * C.ngA) (C.ngA * 16) 40).map (.out (i / 6))
      else [] := by
  by_cases h : ¬ 1 < C.rows ∧ j % 2 ≠ 0 ∧ i % 6 = 0 ∧ tokenActiveSlots C (i / 6) = 0
  -- an idle item of an empty token: every warp writes its chunks
  · obtain ⟨hrows, hj, h6, hempty⟩ := h
    rw [if_pos ⟨hrows, hj, h6, hempty⟩, idleCells, if_pos (readRun_of_empty hrows hi h6 hempty)]
    refine List.flatMap_congr fun warp _ => ?_
    rw [aIdle, if_pos ⟨hrows, hi, beq_eq_false_iff_ne.mpr hj, h6, hempty⟩, cells_empty]
  -- any other idle item writes nothing
  · rw [if_neg h, idleCells]
    split
    · refine List.flatMap_eq_nil_iff.mpr fun warp _ => ?_
      rw [aIdle, if_neg]
      · rfl
      · rintro ⟨hrows, -, hj, h6, hempty⟩
        exact h ⟨hrows, beq_eq_false_iff_ne.mp hj, h6, hempty⟩
    · rfl

/-- The strides of the groups and warps of one run cover a row's chunks. -/
theorem strides_perm {ng : ℕ} (hng : 0 < ng) :
    ((List.range ng).flatMap fun g => (List.range 16).flatMap fun warp =>
      stride (g + warp * ng) (ng * 16) 40).Perm (List.range 40) := by
  -- the blocks of the grid, warp by warp, are the numbers below `16 * ng`
  have hblocks : ((List.range 16).flatMap fun warp => (List.range ng).flatMap fun g =>
      stride (g + warp * ng) (ng * 16) 40) =
        (List.range (16 * ng)).flatMap fun b => stride b (16 * ng) 40 := by
    rw [← flatMap_range_mul (fun warp g => stride (g + warp * ng) (ng * 16) 40)]
    refine List.flatMap_congr fun b _ => ?_
    rw [Nat.mod_add_div', Nat.mul_comm ng 16]
  calc (List.range ng).flatMap (fun g => (List.range 16).flatMap fun warp =>
          stride (g + warp * ng) (ng * 16) 40)
      |>.Perm ((List.range 16).flatMap fun warp => (List.range ng).flatMap fun g =>
          stride (g + warp * ng) (ng * 16) 40) := flatMap_flatMap_perm _ _ _
    _ = (List.range (16 * ng)).flatMap fun b => stride b (16 * ng) 40 := hblocks
    _ |>.Perm (List.range 40) := flatMap_stride_perm (Nat.mul_pos (by decide) hng) 40

/-- **The idle blocks of kernel A** write an empty row's chunks, each once, when the call
has one row. -/
theorem idleWrites_perm (C : Call V) (T : RunTable) :
    (idleWrites C T).Perm
      (if ¬ 1 < C.rows ∧ tokenActiveSlots C 0 = 0 then (List.range 40).map (Cell.out 0)
      else []) := by
  by_cases h : ¬ 1 < C.rows ∧ tokenActiveSlots C 0 = 0
  · have hslots : C.slots = 6 := by
      have := C.rows_pos
      have := h.1
      unfold Call.slots
      omega
    -- of the six runs only run `0` has chunks to write
    have hrest : ∀ i ∈ (List.range 5).map Nat.succ,
        (List.range C.perA).flatMap (idleCells C T i) = [] := by
      intro i hi
      obtain ⟨k, hk, rfl⟩ := List.mem_map.mp hi
      have hk := List.mem_range.mp hk
      refine List.flatMap_eq_nil_iff.mpr fun j _ => ?_
      rw [idleCells_eq C T (by omega), if_neg]
      rintro ⟨-, -, h6, -⟩
      omega
    have hrun : (List.range C.perA).flatMap (idleCells C T 0) =
        (List.range C.ngA).flatMap fun g => (List.range 16).flatMap fun warp =>
          (stride (g + warp * C.ngA) (C.ngA * 16) 40).map (Cell.out 0) := by
      -- the items of run `0` come in pairs, and only the second of a pair writes
      have hpairs := flatMap_range_mul (fun g p => if p ≠ 0 then
        (List.range 16).flatMap fun warp =>
          (stride (g + warp * C.ngA) (C.ngA * 16) 40).map (Cell.out 0) else []) C.ngA 2
      refine Eq.trans (List.flatMap_congr fun j _ => ?_) (hpairs.trans ?_)
      · rw [idleCells_eq C T (by omega)]
        by_cases hj : j % 2 ≠ 0
        · rw [if_pos ⟨h.1, hj, rfl, h.2⟩, if_pos hj]
        · rw [if_neg fun h' => hj h'.2.1, if_neg hj]
      · exact List.flatMap_congr fun g _ => List.append_nil _
    have hzero : idleWrites C T = (List.range C.perA).flatMap (idleCells C T 0) := by
      rw [idleWrites, hslots, List.range_succ_eq_map, List.flatMap_cons,
        List.flatMap_eq_nil_iff.mpr hrest, List.append_nil]
    -- together the strides cover the 40 chunks
    have hstrides := (strides_perm (ngA_pos C)).map (Cell.out 0)
    simp only [List.map_flatMap] at hstrides
    rw [if_pos h, hzero, hrun]
    exact hstrides
  -- no run is the first one of an empty token
  · rw [if_neg h]
    refine List.Perm.of_eq (List.flatMap_eq_nil_iff.mpr fun i hi => ?_)
    have hi := List.mem_range.mp hi
    refine List.flatMap_eq_nil_iff.mpr fun j _ => ?_
    rw [idleCells_eq C T hi, if_neg]
    rintro ⟨hrows, -, -, hempty⟩
    have hzero : i / 6 = 0 := by
      unfold Call.slots at hi
      omega
    rw [hzero] at hempty
    exact h ⟨hrows, hempty⟩

/-- The visits are the pairs of an active slot and a place. -/
theorem visits_slots_perm (hT : TableOk C T) (per : ℕ) :
    (visits (runRows C T) C.slots per).Perm (C.activeSlots ×ˢ List.range per) :=
  (visits_perm _ _ _).trans ((runRows_perm hT).product_right _)

theorem nodup_visits (hT : TableOk C T) (per : ℕ) : (visits (runRows C T) C.slots per).Nodup :=
  (visits_slots_perm hT per).nodup_iff.mpr ((nodup_activeSlots C).product List.nodup_range)

theorem mem_visits (hT : TableOk C T) {per : ℕ} {v : ℕ × ℕ} :
    v ∈ visits (runRows C T) C.slots per ↔ v.1 ∈ C.activeSlots ∧ v.2 < per := by
  rw [(visits_slots_perm hT per).mem_iff, ← List.mem_range]
  exact List.mem_product

/-- **No two writers in kernel A.** -/
theorem nodup_written_a (hT : TableOk C T) : (written (aPrograms C T)).Nodup := by
  -- a tile of the gate and one of the up projection have cells of their own
  have htiles : ((visits (runRows C T) C.slots C.perA).map aCell).Nodup := by
    refine (nodup_visits hT C.perA).map fun v w h => ?_
    simp only [aCell, Cell.gu.injEq] at h
    obtain ⟨hgate, hslot, hgroup⟩ := h
    have hparity : v.2 % 2 = 0 ↔ w.2 % 2 = 0 := by
      rw [← beq_iff_eq, hgate, beq_iff_eq]
    exact Prod.ext hslot (by omega)
  -- the empty token's chunks are written once
  have hidle : (idleWrites C T).Nodup := by
    refine (idleWrites_perm C T).nodup_iff.mpr ?_
    split
    · exact List.nodup_range.map fun _ _ h => (Cell.out.inj h).2
    · exact List.nodup_nil
  refine (written_a_perm C T).nodup_iff.mpr (List.nodup_append'.mpr ⟨htiles, hidle, ?_⟩)
  -- a tile and an idle item write cells of different kinds
  intro c hc hc'
  obtain ⟨v, -, rfl⟩ := List.mem_map.mp hc
  have hmem := (idleWrites_perm C T).mem_iff.mp hc'
  split at hmem
  · obtain ⟨oc, -, h⟩ := List.mem_map.mp hmem
    cases h
  · exact List.not_mem_nil hmem

/-- Visits with a given key, when the key is given by the slot and the place apart. -/
theorem count_map_visits (hT : TableOk C T) (per : ℕ) (key : ℕ × ℕ → Counter) (k : Counter)
    (p q : ℕ → Bool)
    (h : ∀ s j, s ∈ C.activeSlots → j < per → (key (s, j) = k ↔ p s = true ∧ q j = true)) :
    ((visits (runRows C T) C.slots per).map key).count k =
      C.activeSlots.countP p * (List.range per).countP q := by
  rw [List.count_eq_countP, List.countP_map, (visits_slots_perm hT per).countP_eq, ← countP_product]
  refine List.countP_congr fun v hv => ?_
  obtain ⟨hs, hj⟩ := List.mem_product.mp hv
  rw [Function.comp_apply, beq_iff_eq, Bool.and_eq_true]
  exact h v.1 v.2 hs (List.mem_range.mp hj)

/-- **A counter of kernel A** gets an arrival from each gate and up tile of its chunk. -/
theorem arrivals_a (hT : TableOk C T) {s chunk : ℕ} (hs : s ∈ C.activeSlots) (hc : chunk < 9) :
    arrivals (aPrograms C T) (.a (s * 9 + chunk)) = tileGpc C.wideA * 2 := by
  -- nine chunks, each with the tiles of both projections
  have hper : C.perA = 9 * (2 * tileGpc C.wideA) := by
    rw [Call.perA, ngA_eq, Nat.mul_assoc, Nat.mul_comm (tileGpc C.wideA) 2]
  -- the slot is visited once for each of its items
  have hslot : C.activeSlots.countP (fun t => decide (t = s)) = 1 := by
    have hcount := List.count_eq_one_of_mem (nodup_activeSlots C) hs
    rwa [List.count_eq_countP] at hcount
  have hcount := count_map_visits hT C.perA (aKey C) (.a (s * 9 + chunk))
    (fun t => decide (t = s)) (fun j => decide (j / (2 * tileGpc C.wideA) = chunk)) ?_
  · rw [arrivals_eq_count, arrived_a, hcount, hslot, hper, countP_div _ hc, Nat.one_mul,
      Nat.mul_comm]
  -- item `j` of slot `t` arrives at the counter when both quotients fit
  · intro t j _ hj
    have hlt : j / (2 * tileGpc C.wideA) < 9 := by
      rw [hper] at hj
      exact Nat.div_lt_of_lt_mul (by rwa [Nat.mul_comm] at hj)
    rw [aKey, Nat.div_div_eq_div_mul, Counter.a.injEq, decide_eq_true_eq, decide_eq_true_eq]
    change t * 9 + j / (2 * tileGpc C.wideA) = s * 9 + chunk ↔ _
    generalize j / (2 * tileGpc C.wideA) = c at hlt
    omega

/-- Only these counters get arrivals. -/
theorem arrivals_a_pos (hT : TableOk C T) {k : Counter} (h : 0 < arrivals (aPrograms C T) k) :
    ∃ s ∈ C.activeSlots, ∃ chunk < 9, k = .a (s * 9 + chunk) := by
  rw [arrivals_eq_count, arrived_a] at h
  obtain ⟨v, hv, rfl⟩ := List.mem_map.mp (List.count_pos_iff.mp h)
  obtain ⟨hs, hj⟩ := (mem_visits hT).mp hv
  have hgroup : v.2 / 2 < C.ngA := Nat.div_lt_of_lt_mul (by rwa [Call.perA, Nat.mul_comm] at hj)
  exact ⟨v.1, hs, _, chunkA_lt hgroup, rfl⟩

/-! ### Kernel B -/

/-- The cell of a down tile. -/
def bCell (v : ℕ × ℕ) : Cell := .dOut v.1 v.2

/-- The counter that a down visit arrives at. -/
def bKey (C : Call V) (v : ℕ × ℕ) : Counter := .b (v.1 / 6 * 40 + v.2 / tileGpc C.wideB)

theorem cells_bBlock (C : Call V) (T : RunTable) (item : ℕ) :
    (bBlock C T item).flatMap (List.filterMap Op.cell?) =
      (runRows C T (item / C.ngB)).map fun s => bCell (s, item % C.ngB) := by
  rw [bBlock, runRows]
  cases readRun C T (item / C.ngB) with
  | none =>
    rw [List.flatMap_singleton, cells_resets]
    rfl
  | some rows =>
    rw [List.flatMap_singleton, List.filterMap_append, cells_resets, List.nil_append, cells_bTile]
    rfl

theorem keys_bBlock (C : Call V) (T : RunTable) (item : ℕ) :
    (bBlock C T item).flatMap (List.filterMap Op.key?) =
      (runRows C T (item / C.ngB)).map fun s => bKey C (s, item % C.ngB) := by
  rw [bBlock, runRows]
  cases readRun C T (item / C.ngB) with
  | none =>
    rw [List.flatMap_singleton, keys_resets]
    rfl
  | some rows =>
    rw [List.flatMap_singleton, List.filterMap_append, keys_resets, List.nil_append, keys_bTile]
    rfl

/-- **The stores of kernel B**: a tile for each visit. -/
theorem written_b (C : Call V) (T : RunTable) :
    written (bPrograms C T) = (visits (runRows C T) C.slots C.ngB).map bCell := by
  rw [written, bPrograms, gridB_eq, List.flatMap_assoc, visits, List.map_flatMap]
  refine List.flatMap_congr fun item _ => ?_
  rw [cells_bBlock, List.map_map]
  rfl

theorem arrived_b (C : Call V) (T : RunTable) :
    arrived (bPrograms C T) = (visits (runRows C T) C.slots C.ngB).map (bKey C) := by
  rw [arrived, bPrograms, gridB_eq, List.flatMap_assoc, visits, List.map_flatMap]
  refine List.flatMap_congr fun item _ => ?_
  rw [keys_bBlock, List.map_map]
  rfl

/-- **No two writers in kernel B.** -/
theorem nodup_written_b (hT : TableOk C T) : (written (bPrograms C T)).Nodup := by
  rw [written_b]
  refine (nodup_visits hT C.ngB).map fun v w h => ?_
  exact Prod.ext (Cell.dOut.inj h).1 (Cell.dOut.inj h).2

/-- The active slots of a row. -/
theorem countP_row (C : Call V) {row : ℕ} (h : row < C.rows) :
    C.activeSlots.countP (fun s => decide (s / 6 = row)) = tokenActiveSlots C row := by
  rw [Call.activeSlots, List.countP_filter, Call.slots]
  exact countP_block 6 h C.isActive

/-- **A counter of kernel B** gets an arrival from each down tile of its row's chunk. -/
theorem arrivals_b (hT : TableOk C T) {row chunk : ℕ} (hr : row < C.rows) (hc : chunk < 40) :
    arrivals (bPrograms C T) (.b (row * 40 + chunk)) =
      tokenActiveSlots C row * tileGpc C.wideB := by
  have hcount := count_map_visits hT C.ngB (bKey C) (.b (row * 40 + chunk))
    (fun t => decide (t / 6 = row)) (fun j => decide (j / tileGpc C.wideB = chunk)) ?_
  · rw [arrivals_eq_count, arrived_b, hcount, countP_row C hr, ngB_eq, countP_div _ hc]
  · intro t j _ hj
    have hlt := chunkB_lt hj
    rw [bKey, Counter.b.injEq, decide_eq_true_eq, decide_eq_true_eq]
    change t / 6 * 40 + j / tileGpc C.wideB = row * 40 + chunk ↔ _
    generalize j / tileGpc C.wideB = c at hlt
    omega

/-- Only these counters get arrivals. -/
theorem arrivals_b_pos (hT : TableOk C T) {k : Counter} (h : 0 < arrivals (bPrograms C T) k) :
    ∃ s ∈ C.activeSlots, ∃ chunk < 40, k = .b (s / 6 * 40 + chunk) := by
  rw [arrivals_eq_count, arrived_b] at h
  obtain ⟨v, hv, rfl⟩ := List.mem_map.mp (List.count_pos_iff.mp h)
  obtain ⟨hs, hj⟩ := (mem_visits hT).mp hv
  exact ⟨v.1, hs, _, chunkB_lt hj, rfl⟩

/-- A row with an active slot has at least one. -/
theorem tokenActiveSlots_pos {s : ℕ} (hs : s ∈ C.activeSlots) : 0 < tokenActiveSlots C (s / 6) := by
  refine List.countP_pos_iff.mpr ⟨s % 6, List.mem_range.mpr (Nat.mod_lt s (by decide)), ?_⟩
  rw [Nat.div_add_mod']
  exact (mem_activeSlots.mp hs).2

/-- The row of a slot. -/
theorem row_lt {s : ℕ} (hs : s ∈ C.activeSlots) : s / 6 < C.rows := by
  have hlt := (mem_activeSlots.mp hs).1
  unfold Call.slots at hlt
  omega

/-! ### Rotation kernel -/

/-- What the warp of an item stores. -/
def rotCells (C : Call V) (item : ℕ) : List Cell := (rotItem C item).filterMap Op.cell?

theorem written_rot (C : Call V) :
    written (rotPrograms C) = (List.range (C.slots * 80)).flatMap (rotCells C) := by
  -- one item for each slot, chunk and projection
  have hitems : C.rows * 6 * 40 * 2 = C.slots * 80 := by
    unfold Call.slots
    omega
  have hle := le_ceilDiv_mul (show 0 < 16 by decide) (C.slots * 80)
  obtain ⟨m, hm⟩ := Nat.exists_eq_add_of_le hle
  -- the items behind the last one write nothing
  have hpast : ((List.range m).map (C.slots * 80 + ·)).flatMap (fun item =>
      if C.slots * 80 ≤ item then [] else rotCells C item) = [] := by
    refine List.flatMap_eq_nil_iff.mpr fun item hitem => ?_
    obtain ⟨i, -, rfl⟩ := List.mem_map.mp hitem
    exact if_pos (Nat.le_add_right _ i)
  calc written (rotPrograms C)
      = (List.range ((C.slots * 80 + (16 - 1)) / 16)).flatMap fun block =>
          (List.range 16).flatMap fun warp =>
            if C.slots * 80 ≤ block * 16 + warp then [] else rotCells C (block * 16 + warp) := by
        rw [written, rotPrograms, hitems, List.flatMap_assoc]
        refine List.flatMap_congr fun block _ => ?_
        rw [List.flatMap_map]
        refine List.flatMap_congr fun warp _ => ?_
        split <;> rfl
    _ = (List.range ((C.slots * 80 + (16 - 1)) / 16 * 16)).flatMap fun item =>
          if C.slots * 80 ≤ item then [] else rotCells C item := by
        rw [← flatMap_range_mul fun block warp =>
          if C.slots * 80 ≤ block * 16 + warp then [] else rotCells C (block * 16 + warp)]
        simp only [Nat.div_add_mod']
    _ = (List.range (C.slots * 80)).flatMap (rotCells C) := by
        rw [hm, List.range_add, List.flatMap_append, hpast, List.append_nil]
        refine List.flatMap_congr fun item hitem => ?_
        exact if_neg (Nat.not_le_of_lt (List.mem_range.mp hitem))

/-- What a program of the rotation kernel does, it does for one item. -/
theorem exists_rotItem {p : Program V} (hp : p ∈ rotPrograms C) {op : Op Cell Counter V}
    (hop : op ∈ p) : ∃ item, op ∈ rotItem C item := by
  obtain ⟨block, -, hp⟩ := List.mem_flatMap.mp hp
  obtain ⟨warp, -, rfl⟩ := List.mem_map.mp hp
  split at hop
  · exact absurd hop List.not_mem_nil
  · exact ⟨_, hop⟩

theorem arrived_rot (C : Call V) : arrived (rotPrograms C) = [] := by
  refine List.flatMap_eq_nil_iff.mpr fun p hp => List.filterMap_eq_nil_iff.mpr fun op hop => ?_
  obtain ⟨item, hop⟩ := exists_rotItem hp hop
  simp only [rotItem] at hop
  split at hop
  · rw [List.mem_singleton.mp hop]
    rfl
  · split at hop
    · obtain ⟨oc, -, rfl⟩ := List.mem_map.mp hop
      rfl
    · exact absurd hop List.not_mem_nil

theorem mem_stride {c oc n : ℕ} (h : oc ∈ stride c n n) : c ≤ oc ∧ oc < n ∧ (oc - c) % n = 0 := by
  obtain ⟨hlt, hcond⟩ := List.mem_filter.mp h
  rw [Bool.and_eq_true, decide_eq_true_eq, decide_eq_true_eq] at hcond
  exact ⟨hcond.1, List.mem_range.mp hlt, hcond.2⟩

/-- What a warp of the rotation kernel stores: the input chunk of an active slot, or a chunk
of an empty row. -/
theorem mem_rotCells {item : ℕ} {c : Cell} (h : c ∈ rotCells C item) :
    (C.isActive (item / 80) = true ∧
      c = .had (item % 80 % 2 == 0) (item / 80) (item % 80 / 2)) ∨
    (item % 80 % 2 = 0 ∧ item / 80 % 6 = 0 ∧ tokenActiveSlots C (item / 80 / 6) = 0 ∧
      c = .out (item / 80 / 6) (item % 80 / 2)) := by
  simp only [rotCells, rotItem] at h
  split at h
  -- an active slot's chunk of hidden rows
  · next hactive => exact .inl ⟨hactive, List.mem_singleton.mp h⟩
  -- an inactive slot writes for its token only if that has no active slot
  · split at h
    · next hempty =>
      obtain ⟨hgate, hfirst, hrow⟩ := hempty
      rw [cells_empty] at h
      obtain ⟨oc, hoc, rfl⟩ := List.mem_map.mp h
      obtain ⟨hle, hlt, hmod⟩ := mem_stride hoc
      have hoc' : oc = item % 80 / 2 := by omega
      exact .inr ⟨hgate, hfirst, hrow, by rw [hoc']; rfl⟩
    · exact absurd h List.not_mem_nil

/-- The item that stores a cell. -/
def rotSource : Cell → ℕ
  | .had gate s c => s * 80 + c * 2 + if gate then 0 else 1
  | .out row chunk => row * 6 * 80 + chunk * 2
  | _ => 0

theorem rotSource_eq {item : ℕ} {c : Cell} (h : c ∈ rotCells C item) : rotSource c = item := by
  obtain ⟨-, rfl⟩ | ⟨hgate, hfirst, -, rfl⟩ := mem_rotCells h
  · simp only [rotSource, beq_iff_eq]
    split <;> omega
  · simp only [rotSource]
    omega

/-- **No two writers in the rotation kernel.** -/
theorem nodup_written_rot (C : Call V) : (written (rotPrograms C)).Nodup := by
  rw [written_rot]
  refine nodup_flatMap_of_source List.nodup_range rotSource (fun item _ => ?_)
    fun item _ c hc => rotSource_eq hc
  simp only [rotCells, rotItem]
  split
  · exact List.nodup_singleton _
  · split
    · rw [cells_empty]
      exact (List.nodup_range.filter _).map fun _ _ h => (Cell.out.inj h).2
    · exact List.nodup_nil

/-- The rotation kernel stores the inputs of every active slot. -/
theorem had_mem_rot {s c : ℕ} (hs : s ∈ C.activeSlots) (hc : c < 40) (gate : Bool) :
    .had gate s c ∈ written (rotPrograms C) := by
  obtain ⟨hlt, hactive⟩ := mem_activeSlots.mp hs
  rw [written_rot]
  -- the item that writes it
  refine List.mem_flatMap.mpr ⟨s * 80 + (c * 2 + if gate then 0 else 1), ?_, ?_⟩
  · refine List.mem_range.mpr ?_
    split <;> omega
  -- its number within the slot, and what the item makes of it
  · have hrem : c * 2 + (if gate then 0 else 1) < 80 := by split <;> omega
    have hdiv : (s * 80 + (c * 2 + if gate then 0 else 1)) / 80 = s := by omega
    have hmod : (s * 80 + (c * 2 + if gate then 0 else 1)) % 80 =
        c * 2 + if gate then 0 else 1 := by omega
    have hc2 : (c * 2 + if gate then 0 else 1) / 2 = c := by split <;> omega
    have hgate : ((c * 2 + if gate then 0 else 1) % 2 == 0) = gate := by
      cases gate
      · exact beq_eq_false_iff_ne.mpr (by simp)
      · exact beq_iff_eq.mpr (by simp)
    have hslot : (slotInfo C s).active = true := hactive
    simp only [rotCells, rotItem, show 40 * 2 = 80 from rfl, hdiv, hmod, hc2, hgate, hslot, if_true]
    exact List.mem_singleton_self _

/-- The rotation kernel stores every chunk of a row without an active slot. -/
theorem out_mem_rot {row chunk : ℕ} (hr : row < C.rows) (hc : chunk < 40)
    (hempty : tokenActiveSlots C row = 0) : .out row chunk ∈ written (rotPrograms C) := by
  have hdiv : (row * 6 * 80 + chunk * 2) / 80 = row * 6 := by omega
  have hmod : (row * 6 * 80 + chunk * 2) % 80 = chunk * 2 := by omega
  -- no slot of an empty token is active
  have hinactive : ¬ (slotInfo C (row * 6)).active = true :=
    List.countP_eq_zero.mp hempty 0 (by decide)
  have hrow : (slotInfo C (row * 6)).row = row := Nat.mul_div_cancel row (by decide)
  rw [written_rot]
  -- the first slot of the token writes its chunks
  refine List.mem_flatMap.mpr ⟨row * 6 * 80 + chunk * 2, ?_, ?_⟩
  · refine List.mem_range.mpr ?_
    unfold Call.slots
    omega
  -- the item is the one of the gate
  · simp only [rotCells, rotItem, show 40 * 2 = 80 from rfl, hdiv, hmod, if_neg hinactive, hrow]
    rw [if_pos ⟨Nat.mul_mod_left chunk 2, Nat.mul_mod_left row 6, hempty⟩, cells_empty,
      Nat.mul_div_cancel chunk (by decide)]
    refine List.mem_map.mpr ⟨chunk, List.mem_filter.mpr ⟨List.mem_range.mpr hc, ?_⟩, rfl⟩
    simp

end Dsv41Overlay.Cooperative
