import Dsv41Overlay.Cooperative.Footprint

/-!
# The launches are sound

`value` is what each cell should hold, computed from the call alone: rotated inputs,
gate/up tiles, activations, down tiles, and output chunks, each the fixed-order sum over
the row's active slots (`rowValue`). On a memory that holds the values of the kernels
before, each kernel is a `Completion.Sound` launch with these values (`rot_sound`,
`a_sound`, `b_sound`).
-/

namespace Dsv41Overlay.Cooperative

open Completion

variable {V : Type*} {C : Call V} {T : RunTable}

/-! ### Values -/

/-- A slot's rotated input chunk. -/
def hadValue (C : Call V) (gate : Bool) (s c : ℕ) : V :=
  C.arith.rotate gate (slotInfo C s).localId c (C.x (s / 6) c)

/-- A slot's row of a gate or up tile. -/
def guValue (C : Call V) (gate : Bool) (s group : ℕ) : V :=
  C.arith.gemv gate (slotInfo C s).localId group ((List.range 40).map (hadValue C gate s))

/-- A slot's activation chunk. -/
def actValue (C : Call V) (s chunk : ℕ) : V :=
  let gpc := tileGpc C.wideA
  let chunkOf := fun gate =>
    loadSum C ((List.range gpc).map fun j => guValue C gate s (chunk * gpc + j))
  C.arith.epilogue (slotInfo C s).localId chunk (chunkOf true) (chunkOf false)

/-- A slot's row of a down tile. -/
def dOutValue (C : Call V) (s group : ℕ) : V :=
  C.arith.down (slotInfo C s).localId group ((List.range 9).map (actValue C s))

/-- What a slot adds to a chunk of its row. -/
def slotTerm (C : Call V) (s chunk : ℕ) : V :=
  let gpc := tileGpc C.wideB
  C.arith.term (slotInfo C s).localId chunk
    (loadSum C ((List.range gpc).map fun j => dOutValue C s (chunk * gpc + j)))

/-- The sum of a row's chunk in its fixed order: the parts of the sixteen warps, of which
warp `k` below six has the weighted term of slot `k`, if it is active. -/
def rowSum (C : Call V) (row chunk : ℕ) : V :=
  (List.range 16).foldl (fun o k => C.arith.add o
    (if k < 6 ∧ C.isActive (row * 6 + k) = true then
      C.arith.axpy (slotInfo C (row * 6 + k)).w (slotTerm C (row * 6 + k) chunk) C.arith.zero
    else C.arith.zero)) C.arith.zero

/-- An output chunk: zero for a row without an active slot. -/
def rowValue (C : Call V) (row chunk : ℕ) : V :=
  if tokenActiveSlots C row = 0 then C.arith.zero else rowSum C row chunk

/-- What every cell should hold. -/
def value (C : Call V) : Cell → V
  | .had gate s c => hadValue C gate s c
  | .gu gate s group => guValue C gate s group
  | .act s chunk => actValue C s chunk
  | .dOut s group => dOutValue C s group
  | .out row chunk => rowValue C row chunk

/-- The cell that the last arrival at a counter stores. -/
def target : Counter → Cell
  | .a i => .act (i / 9) (i % 9)
  | .b i => .out (i / 40) (i % 40)

theorem target_inj : ∀ k k', target k = target k' → k = k' := by
  intro k k' h
  -- a counter of kernel A stands for a chunk of activations, one of kernel B for a chunk of output
  cases k with
  | a i =>
    cases k' with
    | a i' =>
      obtain ⟨hdiv, hmod⟩ := Cell.act.inj h
      exact congrArg _ (by omega)
    | b i' => cases h
  | b i =>
    cases k' with
    | a i' => cases h
    | b i' =>
      obtain ⟨hdiv, hmod⟩ := Cell.out.inj h
      exact congrArg _ (by omega)

/-! ### Parts of programs -/

theorem mem_resets {ctr : ℕ → Counter} {len grid block : ℕ} {ts : List ℕ} {op : Op Cell Counter V}
    (h : op ∈ resets ctr len grid block ts) : ∃ i < len, op = .zero (ctr i) := by
  obtain ⟨t, -, ht⟩ := List.mem_flatMap.mp h
  obtain ⟨i, hi, rfl⟩ := List.mem_map.mp ht
  exact ⟨i, List.mem_range.mp (List.mem_filter.mp hi).1, rfl⟩

/-- Block `0` resets every counter: thread `i` the counter `i`. -/
theorem zero_mem_resets (ctr : ℕ → Counter) {len i : ℕ} (grid : ℕ) (hi : i < len) {ts : List ℕ}
    (ht : i ∈ ts) : (.zero (ctr i) : Op Cell Counter V) ∈ resets ctr len grid 0 ts := by
  refine List.mem_flatMap.mpr ⟨i, ht, List.mem_map.mpr ⟨i, ?_, rfl⟩⟩
  refine List.mem_filter.mpr ⟨List.mem_range.mpr hi, ?_⟩
  simp

theorem mem_gemvTile {rows : List ℕ} {cell : ℕ → Cell} {f : ℕ → (Cell → V) → V}
    {op : Op Cell Counter V} (h : op ∈ gemvTile C rows cell f) :
    ∃ s ∈ rows, ∃ r < rows.length,
      op = .put (cell s) fun m => if r < 8 then f s m else C.arith.junk := by
  obtain ⟨⟨s, r⟩, hmem, rfl⟩ := List.mem_map.mp h
  obtain ⟨hr, hs⟩ := List.mem_zipIdx' hmem
  exact ⟨s, hs ▸ List.getElem_mem hr, r, hr, rfl⟩

/-- A tile and the arrivals of its rows, operation by operation. -/
theorem mem_tile {rows : List ℕ} {cell : ℕ → Cell} {f : ℕ → (Cell → V) → V}
    {arrival : ℕ → Op Cell Counter V} {op : Op Cell Counter V}
    (h : op ∈ gemvTile C rows cell f ++ rows.map arrival) :
    ∃ s ∈ rows, (∃ r < rows.length,
      op = .put (cell s) fun m => if r < 8 then f s m else C.arith.junk) ∨ op = arrival s := by
  rcases List.mem_append.mp h with h | h
  · obtain ⟨s, hs, r, hr, rfl⟩ := mem_gemvTile h
    exact ⟨s, hs, .inl ⟨r, hr, rfl⟩⟩
  · obtain ⟨s, hs, rfl⟩ := List.mem_map.mp h
    exact ⟨s, hs, .inr rfl⟩

/-- The rows of a tile are each stored. -/
theorem put_mem_gemvTile (C : Call V) {rows : List ℕ} (cell : ℕ → Cell) (f : ℕ → (Cell → V) → V)
    {s : ℕ} (hs : s ∈ rows) : ∃ g, .put (cell s) g ∈ gemvTile C rows cell f := by
  obtain ⟨r, hr, rfl⟩ := List.mem_iff_getElem.mp hs
  exact ⟨_, List.mem_map.mpr ⟨(rows[r], r), List.mem_zipIdx_iff_getElem?.mpr (by simp), rfl⟩⟩

theorem mem_aIdle {isGate : Bool} {i group warp : ℕ} {op : Op Cell Counter V}
    (h : op ∈ aIdle C isGate i group warp) :
    ∃ row chunk, tokenActiveSlots C row = 0 ∧ op = writeEmptyRowChunk C row chunk := by
  rw [aIdle] at h
  split at h
  · next hcond =>
    obtain ⟨chunk, -, rfl⟩ := List.mem_map.mp h
    exact ⟨i / 6, chunk, hcond.2.2.2.2, rfl⟩
  · exact absurd h List.not_mem_nil

/-- A slot of the run that a block reads, with the block's expert. -/
theorem mem_run (hT : TableOk C T) {i : ℕ} (hi : i < C.slots) {rows : List ℕ}
    (h : readRun C T i = some rows) {s : ℕ} (hs : s ∈ rows) :
    s ∈ C.activeSlots ∧ (slotInfo C (rows.headD 0)).localId = (slotInfo C s).localId := by
  have hmem : s ∈ runRows C T i := by rwa [runRows, h]
  exact ⟨mem_runRows hT hi hmem, ((readRun_sound hT h).2.2 s hs).symm⟩

/-- The run of an active slot. -/
theorem exists_readRun (hT : TableOk C T) {s : ℕ} (hs : s ∈ C.activeSlots) :
    ∃ i < C.slots, ∃ rows, readRun C T i = some rows ∧ s ∈ rows := by
  obtain ⟨i, hi, hmem⟩ := exists_run hT hs
  rw [runRows] at hmem
  cases h : readRun C T i with
  | none =>
    rw [h] at hmem
    exact absurd hmem List.not_mem_nil
  | some rows =>
    rw [h] at hmem
    exact ⟨i, hi, rows, h, hmem⟩

/-! ### Kernel A -/

theorem perA_pos (C : Call V) : 0 < C.perA := Nat.mul_pos (ngA_pos C) (by decide)

/-- A program of kernel A: resets, and the stores of an idle warp or a tile with its
arrivals. -/
theorem aPrograms_cases {p : Program V} (hp : p ∈ aPrograms C T) :
    ∃ item ts, (∃ isGate i group warp,
        p = resets .b 320 C.gridA item ts ++ aIdle C isGate i group warp) ∨
      ∃ i < C.slots, ∃ j < C.perA, ∃ rows, readRun C T i = some rows ∧
        p = resets .b 320 C.gridA item ts ++ aTile C (j % 2 == 0) (j / 2) rows := by
  obtain ⟨item, hitem, hp⟩ := List.mem_flatMap.mp hp
  -- the run of an item is one of the launch's slots
  have hi : item / C.perA < C.slots := by
    have hlt := List.mem_range.mp hitem
    rw [gridA_eq, Nat.mul_comm] at hlt
    exact Nat.div_lt_of_lt_mul hlt
  rw [aBlock_eq, aBlockAt] at hp
  -- without rows the item is idle, with rows it is a tile
  cases h : readRun C T (item / C.perA) with
  | none =>
    simp only [h] at hp
    obtain ⟨warp, -, rfl⟩ := List.mem_map.mp hp
    exact ⟨item, _, .inl ⟨_, _, _, warp, rfl⟩⟩
  | some rows =>
    simp only [h, List.mem_singleton] at hp
    exact ⟨item, _, .inr ⟨_, hi, _, Nat.mod_lt item (perA_pos C), rows, h, hp⟩⟩

/-- **What kernel A can do**: reset a counter of kernel B, write a chunk of an empty row, or
for a slot of a run store a row of the tile or arrive. -/
theorem aOp_cases {p : Program V} (hp : p ∈ aPrograms C T) {op : Op Cell Counter V} (hop : op ∈ p) :
    (∃ i < 320, op = .zero (.b i)) ∨
    (∃ row chunk, tokenActiveSlots C row = 0 ∧ op = writeEmptyRowChunk C row chunk) ∨
    ∃ i < C.slots, ∃ j < C.perA, ∃ rows, readRun C T i = some rows ∧ ∃ s ∈ rows,
      (∃ r < rows.length, op = .put (.gu (j % 2 == 0) s (j / 2)) fun m =>
        if r < 8 then C.arith.gemv (j % 2 == 0) (slotInfo C (rows.headD 0)).localId (j / 2)
          (aInput C (j % 2 == 0) rows s m) else C.arith.junk) ∨
      op = aArrival C (j / 2) rows s := by
  obtain ⟨item, ts, ⟨isGate, i, group, warp, rfl⟩ | ⟨i, hi, j, hj, rows, hrun, rfl⟩⟩ :=
    aPrograms_cases hp
  · rcases List.mem_append.mp hop with hop | hop
    · exact .inl (mem_resets hop)
    · exact .inr (.inl (mem_aIdle hop))
  · rcases List.mem_append.mp hop with hop | hop
    · exact .inl (mem_resets hop)
    · exact .inr (.inr ⟨i, hi, j, hj, rows, hrun, mem_tile hop⟩)

/-- The block of a run and a place. -/
theorem aTile_mem {i j : ℕ} (hi : i < C.slots) (hj : j < C.perA) {rows : List ℕ}
    (h : readRun C T i = some rows) :
    ∃ item, resets .b 320 C.gridA item (List.range threads) ++ aTile C (j % 2 == 0) (j / 2) rows ∈
      aPrograms C T := by
  -- the item with this run and this place
  have hdiv : (i * C.perA + j) / C.perA = i := by
    rw [Nat.mul_comm, Nat.mul_add_div (perA_pos C), Nat.div_eq_of_lt hj, Nat.add_zero]
  have hmod : (i * C.perA + j) % C.perA = j := by
    rw [Nat.mul_comm, Nat.mul_add_mod, Nat.mod_eq_of_lt hj]
  have hlt : i * C.perA + j < C.slots * C.perA :=
    calc i * C.perA + j < i * C.perA + C.perA := Nat.add_lt_add_left hj _
      _ = (i + 1) * C.perA := (Nat.succ_mul i C.perA).symm
      _ ≤ C.slots * C.perA := Nat.mul_le_mul_right _ hi
  refine ⟨i * C.perA + j, List.mem_flatMap.mpr ⟨i * C.perA + j, ?_, ?_⟩⟩
  · rw [gridA_eq]
    exact List.mem_range.mpr hlt
  · rw [aBlock_eq, hdiv, hmod, aBlockAt]
    simp only [h]
    exact List.mem_singleton_self _

theorem mem_written_a {c : Cell} (h : c ∈ written (aPrograms C T)) :
    (∃ gate s group, c = .gu gate s group) ∨
      ∃ chunk < 40, c = .out 0 chunk ∧ ¬ 1 < C.rows ∧ tokenActiveSlots C 0 = 0 := by
  rcases List.mem_append.mp ((written_a_perm C T).mem_iff.mp h) with h | h
  · obtain ⟨v, -, rfl⟩ := List.mem_map.mp h
    exact .inl ⟨_, _, _, rfl⟩
  · have hmem := (idleWrites_perm C T).mem_iff.mp h
    split at hmem
    · next hcond =>
      obtain ⟨chunk, hchunk, rfl⟩ := List.mem_map.mp hmem
      exact .inr ⟨chunk, List.mem_range.mp hchunk, rfl, hcond⟩
    · exact absurd hmem List.not_mem_nil

/-- With a single row every slot of a run is of row `0`; with more, the inputs are in
memory. Either way a tile multiplies the slot's rotated chunks. -/
theorem aInput_eq (hT : TableOk C T) {i : ℕ} (hi : i < C.slots) {rows : List ℕ}
    (h : readRun C T i = some rows) {s : ℕ} (hs : s ∈ rows) (isGate : Bool) {m : Cell → V}
    (hm : 1 < C.rows → ∀ c < 40, m (.had isGate s c) = hadValue C isGate s c) :
    aInput C isGate rows s m = (List.range 40).map (hadValue C isGate s) := by
  by_cases hrows : 1 < C.rows
  -- several rows: the rotation kernel has stored the inputs
  · simp only [aInput, if_pos hrows]
    exact List.map_congr_left fun c hc => hm hrows c (List.mem_range.mp hc)
  -- one row: the block rotates the token of its first slot, which is the token of all
  · have hfirst : rows.headD 0 ∈ rows := by
      cases rows with
      | nil => exact absurd hs List.not_mem_nil
      | cons a rows => exact List.mem_cons_self
    -- all slots of a run have one expert
    obtain ⟨hactive, hexpert⟩ := mem_run hT hi h hs
    obtain ⟨hfirstActive, -⟩ := mem_run hT hi h hfirst
    have hrow : rows.headD 0 / 6 = s / 6 := by
      have h₁ := row_lt hactive
      have h₂ := row_lt hfirstActive
      omega
    simp only [aInput, if_neg hrows]
    refine List.map_congr_left fun c _ => ?_
    rw [hadValue, hexpert, ← hrow]
    rfl

theorem group_lt {chunk gpc n j : ℕ} (hc : chunk < n) (hj : j < gpc) :
    chunk * gpc + j < n * gpc ∧ (chunk * gpc + j) / gpc = chunk := by
  constructor
  · calc chunk * gpc + j < chunk * gpc + gpc := Nat.add_lt_add_left hj _
      _ = (chunk + 1) * gpc := (Nat.succ_mul chunk gpc).symm
      _ ≤ n * gpc := Nat.mul_le_mul_right _ hc
  · rw [Nat.mul_comm, Nat.mul_add_div (Nat.zero_lt_of_lt hj), Nat.div_eq_of_lt hj, Nat.add_zero]

/-- **Covered**: the gate and up tiles of a slot's chunk are stored before arrivals at the
chunk's counter. -/
theorem covered_a (hT : TableOk C T) {s chunk j : ℕ} (hs : s ∈ C.activeSlots) (hc : chunk < 9)
    (hj : j < tileGpc C.wideA) (gate : Bool) :
    Covered (aPrograms C T) (.a (s * 9 + chunk))
      (.gu gate s (chunk * tileGpc C.wideA + j)) := by
  -- the run that holds the slot, and the tile of the chunk
  obtain ⟨i, hi, rows, hrun, hmem⟩ := exists_readRun hT hs
  obtain ⟨hlt, hchunk⟩ := group_lt hc hj
  set group := chunk * tileGpc C.wideA + j with hgroup
  -- the item's place tells the group and the projection
  have hplace : group * 2 + (if gate then 0 else 1) < C.perA := by
    rw [Call.perA, ngA_eq]
    split <;> omega
  have hhalf : (group * 2 + if gate then 0 else 1) / 2 = group := by split <;> omega
  have hgate : ((group * 2 + if gate then 0 else 1) % 2 == 0) = gate := by
    cases gate
    · exact beq_eq_false_iff_ne.mpr (by simp)
    · exact beq_iff_eq.mpr (by simp)
  obtain ⟨item, hp⟩ := aTile_mem hi hplace hrun
  rw [hhalf, hgate, aTile, ← List.append_assoc] at hp
  -- the tile stores the cell before it arrives at the chunk's counter
  obtain ⟨g, hput⟩ := put_mem_gemvTile C (Cell.gu gate · group) (fun s m =>
    C.arith.gemv gate (slotInfo C (rows.headD 0)).localId group (aInput C gate rows s m)) hmem
  have harr : aArrival C group rows s ∈ rows.map (aArrival C group rows) :=
    List.mem_map_of_mem hmem
  have hkey : Counter.a (s * 9 + chunk) = .a (s * 9 + group / tileGpc C.wideA) := by rw [hchunk]
  rw [hkey]
  exact covered_of_append hp harr (List.mem_append_right _ hput)

/-- **Kernel A is sound** on a memory that holds the rotated inputs. -/
theorem a_sound (hT : TableOk C T) {cells : Cell → V}
    (hhad : 1 < C.rows → ∀ s ∈ C.activeSlots, ∀ gate, ∀ c < 40,
      cells (.had gate s c) = hadValue C gate s c) :
    Sound cells (aPrograms C T) target (value C) := by
  have hcount : ∀ c, stores (aPrograms C T) c = (written (aPrograms C T)).count c :=
    stores_eq_count _
  -- kernel A does not write the inputs
  have hkept : ∀ gate s c, ¬ Written (aPrograms C T) target (.had gate s c) := by
    rintro gate s c (h | ⟨k, -, htarget⟩)
    · rw [hcount] at h
      obtain ⟨_, _, _, h⟩ | ⟨_, _, h, -⟩ := mem_written_a (List.count_pos_iff.mp h)
      · cases h
      · cases h
    · cases k <;> cases htarget
  constructor
  -- a cell is stored once, and by no arrival
  case put_once =>
    intro c
    rw [hcount]
    exact List.nodup_iff_count_le_one.mp (nodup_written_a hT) c
  case target_inj => exact fun k k' _ _ h => target_inj k k' h
  case target_not_put =>
    intro k hk
    obtain ⟨s, hs, chunk, hc, rfl⟩ := arrivals_a_pos hT hk
    rw [hcount]
    refine List.count_eq_zero.mpr fun h => ?_
    obtain ⟨_, _, _, h⟩ | ⟨_, _, h, -⟩ := mem_written_a h
    · cases h
    · cases h
  -- kernel A resets the counters of kernel B
  case zero_unused =>
    intro p hp k hz
    by_contra hne
    obtain ⟨s, -, chunk, -, rfl⟩ := arrivals_a_pos hT (Nat.pos_of_ne_zero hne)
    obtain ⟨_, -, h⟩ | ⟨_, _, -, h⟩ | ⟨_, _, _, _, _, _, _, _, ⟨_, _, h⟩ | h⟩ := aOp_cases hp hz
    · cases h
    · cases h
    · cases h
    · cases h
  -- a chunk of an empty token is zero, a tile is a product of the rotated row
  case put_val =>
    intro p hp c f hput m hm
    obtain ⟨_, -, h⟩ | ⟨row, chunk, hempty, h⟩ |
      ⟨i, hi, j, hj, rows, hrun, s, hs, ⟨r, hr, h⟩ | h⟩ := aOp_cases hp hput
    · cases h
    · cases h
      exact (if_pos hempty).symm
    · cases h
      obtain ⟨hactive, hexpert⟩ := mem_run hT hi hrun hs
      have hlen := (readRun_sound hT hrun).2.1
      -- the rotated row is one of the rotation kernel's, or was built by this block
      have hinput := aInput_eq hT hi hrun hs (j % 2 == 0) fun hrows c hc =>
        (hm _ (hkept _ _ _)).trans (hhad hrows s hactive _ c hc)
      change (if r < 8 then C.arith.gemv _ _ _ _ else _) = _
      rw [if_pos (Nat.lt_of_lt_of_le hr hlen), hinput, hexpert]
      rfl
    · cases h
  -- the last arrival at a chunk computes its activations
  case arrive_val =>
    intro p hp k n c f harr
    obtain ⟨_, -, h⟩ | ⟨_, _, -, h⟩ |
      ⟨i, hi, j, hj, rows, hrun, s, hs, ⟨_, _, h⟩ | h⟩ := aOp_cases hp harr
    · cases h
    · cases h
    · cases h
    · cases h
      obtain ⟨hactive, hexpert⟩ := mem_run hT hi hrun hs
      have hgroup : j / 2 < C.ngA :=
        Nat.div_lt_of_lt_mul (by rwa [Call.perA, Nat.mul_comm] at hj)
      have hchunk := chunkA_lt hgroup
      refine ⟨(arrivals_a hT hactive hchunk).symm, ?_, fun m _ hcov => ?_⟩
      · simp only [target]
        generalize j / 2 / tileGpc C.wideA = chunk at hchunk
        exact congrArg₂ _ (by omega) (by omega)
      -- the last arrival of a chunk reads its tiles after all of them are stored
      · have htiles : ∀ gate, chunkTiles C gate s (j / 2 / tileGpc C.wideA) m =
            (List.range (tileGpc C.wideA)).map fun k =>
              guValue C gate s (j / 2 / tileGpc C.wideA * tileGpc C.wideA + k) :=
          fun gate => List.map_congr_left fun k hk =>
            hcov _ (covered_a hT hactive hchunk (List.mem_range.mp hk) gate)
        dsimp only
        rw [htiles, htiles, hexpert]
        rfl

/-! ### Kernel B -/

/-- **What kernel B can do**: reset a counter of kernel A, or for a slot of a run store a
row of the tile or arrive. -/
theorem bOp_cases {p : Program V} (hp : p ∈ bPrograms C T) {op : Op Cell Counter V} (hop : op ∈ p) :
    (∃ i < 432, op = .zero (.a i)) ∨
    ∃ i < C.slots, ∃ j < C.ngB, ∃ rows, readRun C T i = some rows ∧ ∃ s ∈ rows,
      (∃ r < rows.length, op = .put (.dOut s j) fun m =>
        if r < 8 then C.arith.down (slotInfo C (rows.headD 0)).localId j
          ((List.range 9).map fun c => m (.act s c)) else C.arith.junk) ∨
      op = bArrival C j s := by
  obtain ⟨item, hitem, hp⟩ := List.mem_flatMap.mp hp
  have hlt := List.mem_range.mp hitem
  rw [gridB_eq, Nat.mul_comm] at hlt
  rw [bBlock] at hp
  -- an idle item only resets, a tile stores and arrives
  cases hrun : readRun C T (item / C.ngB) with
  | none =>
    simp only [hrun, List.mem_singleton] at hp
    subst hp
    exact .inl (mem_resets hop)
  | some rows =>
    simp only [hrun, List.mem_singleton] at hp
    subst hp
    rcases List.mem_append.mp hop with hop | hop
    · exact .inl (mem_resets hop)
    · have hpos : 0 < C.ngB := Nat.pos_of_ne_zero fun h => by simp [h] at hlt
      have hj : item % C.ngB < C.ngB := Nat.mod_lt item hpos
      exact .inr ⟨_, Nat.div_lt_of_lt_mul hlt, _, hj, rows, hrun, mem_tile hop⟩

/-- The block of a run and a group. -/
theorem bTile_mem {i j : ℕ} (hi : i < C.slots) (hj : j < C.ngB) {rows : List ℕ}
    (h : readRun C T i = some rows) :
    ∃ item, resets .a 432 C.gridB item (List.range threads) ++ bTile C j rows ∈
      bPrograms C T := by
  obtain ⟨hlt, hdiv⟩ := group_lt hi hj
  have hmod : (i * C.ngB + j) % C.ngB = j := by
    rw [Nat.mul_comm, Nat.mul_add_mod, Nat.mod_eq_of_lt hj]
  refine ⟨i * C.ngB + j, List.mem_flatMap.mpr ⟨i * C.ngB + j, ?_, ?_⟩⟩
  · rw [gridB_eq]
    exact List.mem_range.mpr hlt
  · rw [bBlock, hdiv, hmod]
    simp only [h]
    exact List.mem_singleton_self _

/-- **Covered**: the down tiles of a row's active slots are stored before arrivals at the
counter of the row's chunk. -/
theorem covered_b (hT : TableOk C T) {s chunk j : ℕ} (hs : s ∈ C.activeSlots) (hc : chunk < 40)
    (hj : j < tileGpc C.wideB) :
    Covered (bPrograms C T) (.b (s / 6 * 40 + chunk))
      (.dOut s (chunk * tileGpc C.wideB + j)) := by
  -- the run that holds the slot, and the tile of the chunk
  obtain ⟨i, hi, rows, hrun, hmem⟩ := exists_readRun hT hs
  obtain ⟨hlt, hchunk⟩ := group_lt hc hj
  set group := chunk * tileGpc C.wideB + j with hgroup
  obtain ⟨item, hp⟩ := bTile_mem hi (by rwa [ngB_eq]) hrun (j := group)
  rw [bTile, ← List.append_assoc] at hp
  -- the tile stores the cell before it arrives at the token's counter
  obtain ⟨g, hput⟩ := put_mem_gemvTile C (Cell.dOut · group) (fun s m =>
    C.arith.down (slotInfo C (rows.headD 0)).localId group
      ((List.range 9).map fun c => m (.act s c))) hmem
  have harr : bArrival C group s ∈ rows.map (bArrival C group) := List.mem_map_of_mem hmem
  have hkey : Counter.b (s / 6 * 40 + chunk) = .b (s / 6 * 40 + group / tileGpc C.wideB) := by
    rw [hchunk]
  rw [hkey]
  exact covered_of_append hp harr (List.mem_append_right _ hput)

/-- A warp of the reduction has at most one slot. -/
theorem stride_warp (w : ℕ) : stride w 16 6 = if w < 6 then [w] else [] := by
  by_cases hw : w < 6
  · have hall : ∀ w < 6, stride w 16 6 = [w] := by decide
    rw [if_pos hw, hall w hw]
  · rw [if_neg hw]
    refine List.filter_eq_nil_iff.mpr fun r hr => ?_
    have hr := List.mem_range.mp hr
    simp only [Bool.and_eq_true, decide_eq_true_eq, not_and]
    omega

/-- **The reduction** of a memory that holds the row's down tiles is the fixed-order sum. -/
theorem reduceRow_eq {row : ℕ} (chunk : ℕ) {m : Cell → V} (hr : row < C.rows)
    (hm : ∀ s ∈ C.activeSlots, s / 6 = row → ∀ j < tileGpc C.wideB,
      m (.dOut s (chunk * tileGpc C.wideB + j)) = dOutValue C s (chunk * tileGpc C.wideB + j)) :
    reduceRow C row chunk m = rowSum C row chunk := by
  -- the term of an active slot reads what the tiles stored
  have hterm : ∀ k, k < 6 → C.isActive (row * 6 + k) = true →
      C.arith.term (slotInfo C (row * 6 + k)).localId chunk
        (loadSum C ((List.range (tileGpc C.wideB)).map fun j =>
          m (.dOut (row * 6 + k) (chunk * tileGpc C.wideB + j)))) =
        slotTerm C (row * 6 + k) chunk := by
    intro k hk hactive
    have hmem : row * 6 + k ∈ C.activeSlots := by
      refine mem_activeSlots.mpr ⟨?_, hactive⟩
      unfold Call.slots
      omega
    rw [slotTerm, List.map_congr_left fun j hj =>
      hm _ hmem (by omega) j (List.mem_range.mp hj)]
  -- warp `w` adds the slots `w`, `w + 16` and so on, of which a token has at most one
  rw [reduceRow, rowSum]
  refine congrArg (fun f => (List.range 16).foldl f C.arith.zero) (funext₂ fun o w => ?_)
  refine congrArg (C.arith.add o) ?_
  dsimp only
  rw [stride_warp]
  by_cases hw : w < 6
  · rw [if_pos hw, List.foldl_cons, List.foldl_nil]
    -- an inactive slot adds nothing
    by_cases hactive : C.isActive (row * 6 + w) = true
    · have hinfo : (slotInfo C (row * 6 + w)).active = true := hactive
      refine (if_pos hinfo).trans ?_
      rw [hterm w hw hactive]
      exact (if_pos ⟨hw, hactive⟩).symm
    · have hinfo : ¬ (slotInfo C (row * 6 + w)).active = true := hactive
      exact (if_neg hinfo).trans (if_neg fun h => hactive h.2).symm
  · rw [if_neg hw, if_neg fun h => hw h.1, List.foldl_nil]

/-- **Kernel B is sound** on a memory that holds the activations. -/
theorem b_sound (hT : TableOk C T) {cells : Cell → V}
    (hact : ∀ s ∈ C.activeSlots, ∀ c < 9, cells (.act s c) = actValue C s c) :
    Sound cells (bPrograms C T) target (value C) := by
  have hwritten : ∀ c, c ∈ written (bPrograms C T) → ∃ s group, c = .dOut s group := by
    intro c hc
    rw [written_b] at hc
    obtain ⟨v, -, rfl⟩ := List.mem_map.mp hc
    exact ⟨_, _, rfl⟩
  -- kernel B does not write the activations
  have hkept : ∀ s c, ¬ Written (bPrograms C T) target (.act s c) := by
    rintro s c (h | ⟨k, hk, htarget⟩)
    · rw [stores_eq_count] at h
      obtain ⟨_, _, h⟩ := hwritten _ (List.count_pos_iff.mp h)
      cases h
    · obtain ⟨_, _, _, _, rfl⟩ := arrivals_b_pos hT hk
      cases htarget
  constructor
  -- a cell is stored once, and by no arrival
  case put_once =>
    intro c
    rw [stores_eq_count]
    exact List.nodup_iff_count_le_one.mp (nodup_written_b hT) c
  case target_inj => exact fun k k' _ _ h => target_inj k k' h
  case target_not_put =>
    intro k hk
    obtain ⟨_, _, _, _, rfl⟩ := arrivals_b_pos hT hk
    rw [stores_eq_count]
    refine List.count_eq_zero.mpr fun h => ?_
    obtain ⟨_, _, h⟩ := hwritten _ h
    cases h
  -- kernel B resets the counters of kernel A
  case zero_unused =>
    intro p hp k hz
    by_contra hne
    obtain ⟨_, _, _, _, rfl⟩ := arrivals_b_pos hT (Nat.pos_of_ne_zero hne)
    obtain ⟨_, -, h⟩ | ⟨_, _, _, _, _, _, _, _, ⟨_, _, h⟩ | h⟩ := bOp_cases hp hz
    · cases h
    · cases h
    · cases h
  -- a tile is a product of the slot's activations
  case put_val =>
    intro p hp c f hput m hm
    obtain ⟨_, -, h⟩ | ⟨i, hi, j, hj, rows, hrun, s, hs, ⟨r, hr, h⟩ | h⟩ := bOp_cases hp hput
    · cases h
    · cases h
      obtain ⟨hactive, hexpert⟩ := mem_run hT hi hrun hs
      have hlen := (readRun_sound hT hrun).2.1
      have hinput : ((List.range 9).map fun c => m (.act s c)) =
          (List.range 9).map (actValue C s) :=
        List.map_congr_left fun c hc =>
          (hm _ (hkept _ _)).trans (hact s hactive c (List.mem_range.mp hc))
      change (if r < 8 then C.arith.down _ _ _ else _) = _
      rw [if_pos (Nat.lt_of_lt_of_le hr hlen), hinput, hexpert]
      rfl
    · cases h
  -- an arrival at a token's counter computes its row
  case arrive_val =>
    intro p hp k n c f harr
    obtain ⟨_, -, h⟩ | ⟨i, hi, j, hj, rows, hrun, s, hs, ⟨_, _, h⟩ | h⟩ := bOp_cases hp harr
    · cases h
    · cases h
    · cases h
      obtain ⟨hactive, -⟩ := mem_run hT hi hrun hs
      have hchunk := chunkB_lt hj
      refine ⟨(arrivals_b hT (row_lt hactive) hchunk).symm, ?_, fun m _ hcov => ?_⟩
      · simp only [target]
        generalize j / tileGpc C.wideB = chunk at hchunk
        exact congrArg₂ _ (by omega) (by omega)
      -- an arrival sums the token's row after all its slots are stored
      · have hne : tokenActiveSlots C (s / 6) ≠ 0 := Nat.ne_of_gt (tokenActiveSlots_pos hactive)
        refine Eq.trans (reduceRow_eq _ (row_lt hactive) fun t ht hrow k hk => ?_) (if_neg hne).symm
        have hcovered := covered_b hT ht hchunk hk
        rw [hrow] at hcovered
        exact hcov _ hcovered

/-! ### Rotation kernel -/

/-- What the rotation kernel can do. -/
theorem rotOp_cases {p : Program V} (hp : p ∈ rotPrograms C) {op : Op Cell Counter V}
    (hop : op ∈ p) :
    (∃ isGate s c, op = .put (.had isGate s c) fun _ => hadValue C isGate s c) ∨
      ∃ row chunk, tokenActiveSlots C row = 0 ∧ op = writeEmptyRowChunk C row chunk := by
  obtain ⟨item, hop⟩ := exists_rotItem hp hop
  simp only [rotItem] at hop
  split at hop
  · exact .inl ⟨_, _, _, List.mem_singleton.mp hop⟩
  · split at hop
    · next hempty =>
      obtain ⟨chunk, -, rfl⟩ := List.mem_map.mp hop
      exact .inr ⟨_, chunk, hempty.2.2, rfl⟩
    · exact absurd hop List.not_mem_nil

theorem arrivals_rot (C : Call V) (k : Counter) : arrivals (rotPrograms C) k = 0 := by
  rw [arrivals_eq_count, arrived_rot, List.count_nil]

/-- **The rotation kernel is sound.** -/
theorem rot_sound (C : Call V) (cells : Cell → V) :
    Sound cells (rotPrograms C) target (value C) := by
  constructor
  -- no cell is stored twice, and nothing arrives anywhere
  case put_once =>
    intro c
    rw [stores_eq_count]
    exact List.nodup_iff_count_le_one.mp (nodup_written_rot C) c
  case target_inj => exact fun k k' _ _ h => target_inj k k' h
  case target_not_put =>
    intro k hk
    rw [arrivals_rot] at hk
    exact absurd hk (Nat.lt_irrefl 0)
  case zero_unused => exact fun p hp k _ => arrivals_rot C k
  -- a rotated chunk, or a zero of an empty token
  case put_val =>
    intro p hp c f hput m _
    obtain ⟨_, _, _, h⟩ | ⟨row, chunk, hempty, h⟩ := rotOp_cases hp hput
    · cases h
      rfl
    · cases h
      exact (if_pos hempty).symm
  case arrive_val =>
    intro p hp k n c f harr
    obtain ⟨_, _, _, h⟩ | ⟨_, _, -, h⟩ := rotOp_cases hp harr
    · cases h
    · cases h

/-! ### Resets -/

theorem range_threads_mem {i : ℕ} (h : i < 512) : i ∈ List.range threads := by
  rw [threads_eq]
  exact List.mem_range.mpr h

/-- Kernel A resets the counters of kernel B. -/
theorem reset_mem_a (C : Call V) (T : RunTable) {i : ℕ} (hi : i < 320) :
    ∃ p ∈ aPrograms C T, .zero (.b i) ∈ p := by
  -- there is a first block, and it resets all counters
  have hpos : 0 < C.gridA := by
    rw [gridA_eq]
    have := C.rows_pos
    exact Nat.mul_pos (by unfold Call.slots; omega) (perA_pos C)
  have hblock : ∀ p ∈ aBlock C T 0, p ∈ aPrograms C T := fun p hp =>
    List.mem_flatMap.mpr ⟨0, List.mem_range.mpr hpos, hp⟩
  rw [aBlock] at hblock
  cases hrun : readRun C T (0 / 2 / C.ngA) with
  | none =>
    -- thread `i` is a lane of warp `i / 32`
    simp only [hrun] at hblock
    have hwarp : i / 32 ∈ List.range 16 := List.mem_range.mpr (by omega)
    refine ⟨_, hblock _ (List.mem_map_of_mem hwarp), List.mem_append_left _ ?_⟩
    refine zero_mem_resets _ _ hi (List.mem_map.mpr ⟨i % 32, ?_, Nat.div_add_mod' i 32⟩)
    exact List.mem_range.mpr (Nat.mod_lt i (by decide))
  | some rows =>
    simp only [hrun] at hblock
    refine ⟨_, hblock _ (List.mem_singleton_self _), List.mem_append_left _ ?_⟩
    exact zero_mem_resets _ _ hi (range_threads_mem (by omega))

/-- Kernel B resets the counters of kernel A. -/
theorem reset_mem_b (C : Call V) (T : RunTable) {i : ℕ} (hi : i < 432) :
    ∃ p ∈ bPrograms C T, .zero (.a i) ∈ p := by
  -- there is a first block, and it resets all counters
  have hpos : 0 < C.gridB := by
    rw [gridB_eq, ngB_eq]
    have := C.rows_pos
    have := tileGpc_pos C.wideB
    exact Nat.mul_pos (by unfold Call.slots; omega) (by omega)
  have hblock : ∀ p ∈ bBlock C T 0, p ∈ bPrograms C T := fun p hp =>
    List.mem_flatMap.mpr ⟨0, List.mem_range.mpr hpos, hp⟩
  have hzero : (.zero (.a i) : Op Cell Counter V) ∈
      resets .a 432 C.gridB 0 (List.range threads) :=
    zero_mem_resets _ _ hi (range_threads_mem (by omega))
  rw [bBlock] at hblock
  cases hrun : readRun C T (0 / C.ngB) with
  | none =>
    simp only [hrun] at hblock
    exact ⟨_, hblock _ (List.mem_singleton_self _), hzero⟩
  | some rows =>
    simp only [hrun] at hblock
    exact ⟨_, hblock _ (List.mem_singleton_self _), List.mem_append_left _ hzero⟩

end Dsv41Overlay.Cooperative
