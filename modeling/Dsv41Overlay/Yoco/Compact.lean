import Dsv41Overlay.Yoco.Plan
import Dsv41Overlay.Yoco.Window

/-!
# The compact decoder step equals the masked full step

`YocoPrefill.attach` hands the decoder layers of a truncated step a compacted
batch: the kept rows only, `query_start_loc` replaced by `compact_qsl`,
`seq_lens` unchanged, and the slots of placeholder rows set to `-1`. The kernel
then recovers each row's position from these arrays and the clamp raises its
window start.

`compactRow` is one row of that step and `maskRow` the row of the full step it
stands for: same position, window start raised to `N - KEEP`, stored only
inside the rectangle. The lemmas here evaluate the arrays behind both at row `t`
of request `i` (`plan_keepIdx_getElem?`, `kernelSwaRow_compact`); they rest on the
closed form of the plan (`buildKeepPlan_eq`) and on reading flat arrays segment by
segment. That the two rows are equal is in `Dsv41Overlay.Yoco.MaskEq`.
-/

namespace Dsv41Overlay
namespace Yoco

/-- One request of a step, as the input batch describes it. The position of its
scheduled row `t` is `seqLen - numRows + t`. -/
structure BatchReq where
  startPos : ℕ
  prefillLen : ℕ
  isPrefilling : Bool
  numRows : ℕ
  seqLen : ℕ
  blockTable : BlockTable
  numRows_pos : 0 < numRows
  numRows_le : numRows ≤ seqLen
  /-- For a prefilling request the runner's `num_computed_prefill_tokens` is the
  number of computed tokens. -/
  seqLen_eq : isPrefilling = true → seqLen = startPos + numRows

instance : Inhabited BatchReq :=
  ⟨⟨0, 1, true, 1, 1, ⟨fun _ => 0, 1⟩, Nat.zero_lt_one, by decide, fun _ => rfl⟩⟩

/-- The request with `numComputed` computed tokens, as `gather_batch_req_state`
reads it: `num_computed_prefill_tokens` is clipped to `prefill_len`. -/
def BatchReq.ofRunner (numComputed prefillLen numRows : ℕ) (blockTable : BlockTable)
    (h : 0 < numRows) : BatchReq where
  startPos := min numComputed prefillLen
  prefillLen := prefillLen
  isPrefilling := decide (min numComputed prefillLen < prefillLen)
  numRows := numRows
  seqLen := numComputed + numRows
  blockTable := blockTable
  numRows_pos := h
  numRows_le := by omega
  seqLen_eq := fun hp => by rw [decide_eq_true_eq] at hp; omega

namespace BatchReq

/-- The position of scheduled row `t`. -/
def pos (r : BatchReq) (t : ℕ) : ℕ := r.seqLen - r.numRows + t

/-- The window start of the reference: `N - KEEP`, or `0` for a request that is
decoding or has `N <= KEEP`. -/
def maskLower (keep : ℕ) (r : BatchReq) : ℕ :=
  if r.isPrefilling && decide (keep < r.prefillLen) then r.prefillLen - keep else 0

/-- `rowPlan` of the request. -/
def rowPlan (keep : ℕ) (r : BatchReq) : RowPlan :=
  Yoco.rowPlan keep r.startPos r.prefillLen r.isPrefilling r.numRows

/-- The number of rows the plan keeps. -/
def numKept (keep : ℕ) (r : BatchReq) : ℕ := r.numRows - (r.rowPlan keep).first

end BatchReq

/-- The requests of one step, in batch order. -/
abbrev Batch := List BatchReq

namespace Batch

variable (batch : Batch)

/-- Request `i` of the batch. -/
abbrev req (i : ℕ) : BatchReq := batch.getD i default

/-- Where the rows of request `i` start in the full batch. -/
def rowStart (i : ℕ) : ℕ := prefixSum (fun k => (req batch k).numRows) i

/-- `query_start_loc_np[: num_reqs + 1]`. -/
def queryStartLoc : List ℕ := (List.range (batch.length + 1)).map (rowStart batch)

/-- The arrays `attach` passes to `build_keep_plan`. -/
def arrays : BatchArrays where
  queryStartLoc := queryStartLoc batch
  startPos := batch.map (·.startPos)
  prefillLen := batch.map (·.prefillLen)
  isPrefilling := batch.map (·.isPrefilling)

/-- `input_batch.positions`. -/
def positions : List ℕ :=
  (List.range batch.length).flatMap fun i =>
    (List.range (req batch i).numRows).map (req batch i).pos

/-- The slot mapping of the full step. -/
def slotMapping : List ℤ :=
  (List.range batch.length).flatMap fun i =>
    (List.range (req batch i).numRows).map fun t =>
      (req batch i).blockTable.slot ((req batch i).pos t)

end Batch

/-- `np.repeat(arange(num_reqs), diff(qsl))`: the request of each row. -/
def tokenToReq (qsl : List ℕ) : List ℕ :=
  (List.range (qsl.length - 1)).flatMap fun i =>
    List.replicate (qsl.getD (i + 1) 0 - qsl.getD i 0) i

/-- One row of a decoder step: its position, the slot it stores to (`-1` =
none) and the slots it attends to. -/
structure DecoderRow where
  pos : ℕ
  slot : ℤ
  swa : SwaRow
deriving Repr, DecidableEq

section Steps

variable (window width keep : ℕ) (batch : Batch)

/-- Row `f` of the stock step. -/
def fullRow (f : ℕ) : DecoderRow :=
  let qsl := Batch.queryStartLoc batch
  let i := (tokenToReq qsl).getD f 0
  let r := Batch.req batch i
  let slot := (Batch.slotMapping batch).getD f (-1)
  { pos := (Batch.positions batch).getD f 0
    slot := slot
    swa := kernelSwaRow r.blockTable.slot window width (qsl.getD i 0) (qsl.getD (i + 1) 0)
      r.seqLen f (decide (0 ≤ slot)) }

/-- Row `j` of the compact step of `attach`. The clamp is applied to the decode
rows and the prefill rows of the step separately; it acts row by row. -/
def compactRow (plan : KeepPlan) (j : ℕ) : DecoderRow :=
  let f := plan.keepIdx.getD j 0
  let i := (tokenToReq plan.compactQsl).getD j 0
  let r := Batch.req batch i
  let pos := (Batch.positions batch).getD f 0
  -- a placeholder stores nothing, and the kernel leaves its row empty
  let slot := if plan.placeholder.getD j false then -1 else (Batch.slotMapping batch).getD f (-1)
  { pos := pos
    slot := slot
    swa := clampSwaRow
      (kernelSwaRow r.blockTable.slot window width (plan.compactQsl.getD i 0)
        (plan.compactQsl.getD (i + 1) 0) r.seqLen j (decide (0 ≤ slot)))
      pos (plan.lowerBound.getD j 0) }

/-- `YocoPrefill.attach`: the decoder rows of one step. Without a prefill, or
without one longer than `KEEP`, the stock metadata is returned as it is. -/
def attach : Except String (List DecoderRow) :=
  let full := (List.range (Batch.positions batch).length).map (fullRow window width batch)
  -- without a prefill the stock metadata is returned
  if !(batch.any (·.isPrefilling)) then .ok full
  else
    match buildKeepPlan (Batch.arrays batch) keep with
    | .error e => .error e
    | .ok plan =>
      if plan.needed then
        .ok ((List.range plan.keepIdx.length).map (compactRow window width batch plan))
      else .ok full

/-- `_dsv41_yoco_need_eager`: the runner's gate for running a step eager. -/
def needEager : Bool :=
  if !(batch.any (·.isPrefilling)) then false
  else (batch.filter (·.isPrefilling)).any fun r => decide (keep < r.prefillLen)

/-- Row `t` of request `r` in the full-row reference: the window start is raised
to `N - KEEP` and only rows inside the rectangle are stored. -/
def maskRow (r : BatchReq) (t : ℕ) : DecoderRow where
  pos := r.pos t
  slot := if r.maskLower keep ≤ r.pos t then r.blockTable.slot (r.pos t) else -1
  swa :=
    windowRow r.blockTable.slot width (max (r.pos t - (window - 1)) (r.maskLower keep)) (r.pos t)

end Steps

/-! ### Reading the batch arrays -/

namespace Batch

variable {batch : Batch} {i : ℕ}

theorem queryStartLoc_getD (h : i ≤ batch.length) :
    (queryStartLoc batch).getD i 0 = rowStart batch i := by
  simp [queryStartLoc, List.getD_eq_getElem?_getD, Nat.lt_succ_iff.mpr h]

theorem arrays_numRows (h : i < batch.length) :
    (arrays batch).numRows i = (req batch i).numRows := by
  unfold BatchArrays.numRows arrays
  dsimp only
  rw [queryStartLoc_getD (by omega), queryStartLoc_getD (by omega), rowStart, rowStart,
    prefixSum_succ]
  omega

theorem arrays_rowPlan (keep : ℕ) (h : i < batch.length) :
    (arrays batch).rowPlan keep i = (req batch i).rowPlan keep := by
  unfold BatchArrays.rowPlan BatchReq.rowPlan
  rw [arrays_numRows h]
  simp [arrays, req, List.getD_eq_getElem?_getD, h]

theorem arrays_kept (keep : ℕ) (h : i < batch.length) :
    (arrays batch).kept keep i
      = List.range' (rowStart batch i + ((req batch i).rowPlan keep).first)
          ((req batch i).numKept keep) := by
  unfold BatchArrays.kept BatchReq.numKept
  rw [arrays_numRows h, arrays_rowPlan keep h]
  congr 2
  exact queryStartLoc_getD (by omega)

@[simp] theorem arrays_kept_length (keep : ℕ) (h : i < batch.length) :
    ((arrays batch).kept keep i).length = (req batch i).numKept keep := by
  rw [arrays_kept keep h, List.length_range']

theorem length_queryStartLoc : (queryStartLoc batch).length = batch.length + 1 := by
  simp [queryStartLoc]

theorem positions_getElem? {t : ℕ} (hi : i < batch.length) (ht : t < (req batch i).numRows) :
    (positions batch)[rowStart batch i + t]? = some ((req batch i).pos t) := by
  have h := getElem?_flatMap_range
    (fun k => (List.range (req batch k).numRows).map (req batch k).pos) hi (t := t)
      (by simpa using ht)
  simp only [List.length_map, List.length_range] at h
  rw [positions, rowStart, h, List.getElem?_map, List.getElem?_range ht]
  rfl

theorem slotMapping_getElem? {t : ℕ} (hi : i < batch.length) (ht : t < (req batch i).numRows) :
    (slotMapping batch)[rowStart batch i + t]?
      = some ((req batch i).blockTable.slot ((req batch i).pos t)) := by
  have h := getElem?_flatMap_range
    (fun k => (List.range (req batch k).numRows).map fun t =>
      (req batch k).blockTable.slot ((req batch k).pos t)) hi (t := t) (by simpa using ht)
  simp only [List.length_map, List.length_range] at h
  rw [slotMapping, rowStart, h, List.getElem?_map, List.getElem?_range ht]
  rfl

theorem length_positions : (positions batch).length = rowStart batch batch.length := by
  rw [positions, length_flatMap_range]
  simp [rowStart]

end Batch

/-- The request of row `t` of segment `i`. -/
theorem tokenToReq_getElem? {f : ℕ → ℕ} {n i t : ℕ} (hi : i < n) (ht : t < f i) :
    (tokenToReq ((List.range (n + 1)).map (prefixSum f)))[prefixSum f i + t]? = some i := by
  -- entry `k` of the list is the prefix sum of `k`
  have hget : ∀ k ≤ n, ((List.range (n + 1)).map (prefixSum f)).getD k 0 = prefixSum f k := by
    intro k hk
    simp [List.getD_eq_getElem?_getD, Nat.lt_succ_iff.mpr hk]
  -- so segment `k` has `f k` rows
  have hseg : ∀ k < n, (List.replicate
      (((List.range (n + 1)).map (prefixSum f)).getD (k + 1) 0
        - ((List.range (n + 1)).map (prefixSum f)).getD k 0) k).length = f k := by
    intro k hk
    rw [hget k (by omega), hget (k + 1) (by omega), prefixSum_succ, List.length_replicate]
    omega
  unfold tokenToReq
  rw [List.length_map, List.length_range, Nat.add_sub_cancel,
    ← prefixSum_congr fun k hk => hseg k (by omega),
    getElem?_flatMap_range _ hi (by rw [hseg i hi]; exact ht)]
  rw [List.getElem?_replicate, if_pos]
  have := hseg i hi
  rw [List.length_replicate] at this
  omega

/-! ### Reading the plan of a batch -/

namespace Batch

variable (keep : ℕ) (batch : Batch)

/-- The plan `build_keep_plan` returns for the batch. -/
def plan : KeepPlan := keepPlanUpTo (arrays batch) keep batch.length

/-- Where the kept rows of request `i` start in the compact batch. -/
def keptStart (i : ℕ) : ℕ := prefixSum (fun k => (req batch k).numKept keep) i

theorem buildKeepPlan_arrays : buildKeepPlan (arrays batch) keep = .ok (plan keep batch) := by
  have hlen : (arrays batch).queryStartLoc.length - 1 = batch.length := by
    simp [arrays, length_queryStartLoc]
  rw [buildKeepPlan_eq, hlen]
  · rfl
  · intro r hr
    rw [arrays_numRows (by omega)]
    exact (req batch r).numRows_pos

variable {keep batch} {i : ℕ}

theorem prefixSum_kept (h : i ≤ batch.length) :
    prefixSum (fun r => ((arrays batch).kept keep r).length) i = keptStart keep batch i :=
  prefixSum_congr fun _ hk => arrays_kept_length keep (by omega)

theorem plan_compactQsl : (plan keep batch).compactQsl
    = (List.range (batch.length + 1)).map (keptStart keep batch) :=
  List.map_congr_left fun _ hk => prefixSum_kept (Nat.lt_succ_iff.mp (List.mem_range.mp hk))

theorem plan_compactQsl_getD (h : i ≤ batch.length) :
    (plan keep batch).compactQsl.getD i 0 = keptStart keep batch i := by
  rw [plan_compactQsl]
  simp [List.getD_eq_getElem?_getD, Nat.lt_succ_iff.mpr h]

theorem length_plan_keepIdx :
    (plan keep batch).keepIdx.length = keptStart keep batch batch.length := by
  rw [plan, keepPlanUpTo, length_flatMap_range, prefixSum_kept le_rfl]

theorem keptStart_succ : keptStart keep batch (i + 1)
    = keptStart keep batch i + (req batch i).numKept keep := prefixSum_succ _ _

theorem rowStart_succ : rowStart batch (i + 1) = rowStart batch i + (req batch i).numRows :=
  prefixSum_succ _ _

section Segment

variable {t : ℕ}

theorem plan_keepIdx_getElem? (hi : i < batch.length) (ht : t < (req batch i).numKept keep) :
    (plan keep batch).keepIdx[keptStart keep batch i + t]?
      = some (rowStart batch i + ((req batch i).rowPlan keep).first + t) := by
  rw [← prefixSum_kept (by omega), plan, keepPlanUpTo, getElem?_flatMap_range _ hi
    (by rw [arrays_kept_length keep hi]; exact ht), arrays_kept keep hi, List.getElem?_range' ht,
    Nat.one_mul]

/-- A per-request constant spread over the kept rows. -/
theorem plan_replicate_getElem? {α : Type*} (g : ℕ → α) (hi : i < batch.length)
    (ht : t < (req batch i).numKept keep) :
    ((List.range batch.length).flatMap fun r =>
      List.replicate ((arrays batch).kept keep r).length (g r))[keptStart keep batch i + t]?
      = some (g i) := by
  have h := getElem?_flatMap_range
    (fun r => List.replicate ((arrays batch).kept keep r).length (g r)) hi (t := t)
    (by rw [List.length_replicate, arrays_kept_length keep hi]; exact ht)
  simp only [List.length_replicate] at h
  rw [← prefixSum_kept (by omega), h, List.getElem?_replicate, if_pos]
  rw [arrays_kept_length keep hi]
  exact ht

theorem plan_lowerBound_getElem? (hi : i < batch.length) (ht : t < (req batch i).numKept keep) :
    (plan keep batch).lowerBound[keptStart keep batch i + t]?
      = some ((req batch i).rowPlan keep).lb := by
  rw [← arrays_rowPlan keep hi]
  exact plan_replicate_getElem? (fun r => ((arrays batch).rowPlan keep r).lb) hi ht

theorem plan_placeholder_getElem? (hi : i < batch.length) (ht : t < (req batch i).numKept keep) :
    (plan keep batch).placeholder[keptStart keep batch i + t]?
      = some ((req batch i).rowPlan keep).placeholder := by
  rw [← arrays_rowPlan keep hi]
  exact plan_replicate_getElem? (fun r => ((arrays batch).rowPlan keep r).placeholder) hi ht

theorem tokenToReq_compact (hi : i < batch.length) (ht : t < (req batch i).numKept keep) :
    (tokenToReq (plan keep batch).compactQsl)[keptStart keep batch i + t]? = some i := by
  rw [plan_compactQsl]
  exact tokenToReq_getElem? hi ht

end Segment

end Batch

/-! ### One request of the compact step -/

namespace BatchReq

variable {r : BatchReq} {keep t : ℕ}

theorem first_lt (keep : ℕ) (r : BatchReq) : (r.rowPlan keep).first < r.numRows :=
  rowPlan_first_lt r.numRows_pos

theorem numKept_pos : 0 < r.numKept keep := by
  have := first_lt keep r
  unfold numKept
  omega

/-- The plan's lower bound is the window start of the reference. -/
theorem rowPlan_lb : (r.rowPlan keep).lb = r.maskLower keep := by
  unfold rowPlan maskLower Yoco.rowPlan
  split
  · dsimp only
    split <;> rfl
  · rfl

/-- The position of a scheduled row of a prefilling request. -/
theorem pos_of_prefilling (h : r.isPrefilling = true) : r.pos t = r.startPos + t := by
  have := r.seqLen_eq h
  unfold pos
  omega

/-- A kept row that is not a placeholder lies inside the rectangle. -/
theorem maskLower_le_pos (h : (r.rowPlan keep).placeholder = false)
    (ht : (r.rowPlan keep).first ≤ t) : r.maskLower keep ≤ r.pos t := by
  by_cases hp : r.isPrefilling = true
  · have := rowPlan_lb_le r.numRows_pos h
    rw [pos_of_prefilling hp, ← rowPlan_lb]
    unfold rowPlan at this ht ⊢
    omega
  · simp [maskLower, hp]

/-- A dropped row lies before the rectangle. -/
theorem pos_lt_maskLower (ht : t < (r.rowPlan keep).first) : r.pos t < r.maskLower keep := by
  by_cases hp : r.isPrefilling = true
  · rw [pos_of_prefilling hp, ← rowPlan_lb]
    exact lt_rowPlan_lb r.numRows_pos ht
  · rw [rowPlan, rowPlan_of_not_needed (fun h => hp h.1)] at ht
    simp at ht

/-- A placeholder only ever stands for a chunk wholly before the rectangle. -/
theorem pos_lt_of_placeholder (h : (r.rowPlan keep).placeholder = true) (ht : t < r.numRows) :
    r.pos t < r.maskLower keep := by
  by_cases hc : r.isPrefilling = true ∧ keep < r.prefillLen
  · by_cases hr : r.prefillLen - keep < r.startPos + r.numRows
    · rw [rowPlan, rowPlan_of_reaching r.numRows_pos hc.1 hc.2 hr] at h
      simp at h
    · rw [pos_of_prefilling hc.1, maskLower, if_pos (by simp [hc.1, hc.2])]
      omega
  · rw [rowPlan, rowPlan_of_not_needed hc] at h
    simp at h

end BatchReq

end Yoco
end Dsv41Overlay
