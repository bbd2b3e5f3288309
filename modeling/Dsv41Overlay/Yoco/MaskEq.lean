import Dsv41Overlay.Yoco.Compact

/-!
# Compact equals mask

The statement `CompactEqMask` collects what the compact step owes the full-row
reference on one batch, and `compact_eq_mask` proves it for every batch.

Row `t` of request `i` of the compact step is row `first + t` of the request's
scheduled rows, where `first` is the plan's cut. `compactRow_kept` evaluates it
to the reference row `maskRow` when the request is not held by a placeholder,
and `compactRow_placeholder` to a row that stores and sees nothing otherwise.
Every other clause is read off the closed form of the plan.
-/

namespace Dsv41Overlay
namespace Yoco

open Batch

section Row

variable {window width keep i t : ℕ} {batch : Batch}

/-- The position the kernel recovers for a compact row is that of the full row
it stands for: `seq_lens` is unchanged while `query_start_loc` shrinks to the
kept suffix. -/
theorem kernelPos_compact (ht : t < (req batch i).numKept keep) :
    kernelPos (keptStart keep batch i) (keptStart keep batch (i + 1)) (req batch i).seqLen
        (keptStart keep batch i + t)
      = (req batch i).pos (((req batch i).rowPlan keep).first + t) := by
  have h₁ := (req batch i).numRows_le
  have h₂ := (req batch i).first_lt keep
  unfold kernelPos BatchReq.pos
  rw [keptStart_succ]
  unfold BatchReq.numKept at ht ⊢
  omega

/-- The kernel's row for a compact row with a valid slot, before the clamp. -/
theorem kernelSwaRow_compact (hi : i < batch.length) (ht : t < (req batch i).numKept keep) :
    kernelSwaRow (req batch i).blockTable.slot window width
        ((plan keep batch).compactQsl.getD i 0) ((plan keep batch).compactQsl.getD (i + 1) 0)
        (req batch i).seqLen (keptStart keep batch i + t) true
      = windowRow (req batch i).blockTable.slot width
          ((req batch i).pos (((req batch i).rowPlan keep).first + t) - (window - 1))
          ((req batch i).pos (((req batch i).rowPlan keep).first + t)) := by
  rw [plan_compactQsl_getD (by omega), plan_compactQsl_getD (by omega), kernelSwaRow_valid,
    kernelPos_compact ht]

/-- The arrays of the compact step at row `t` of request `i`, before the kernel
runs: its request, its full row, its position, bound and placeholder flag. -/
theorem compact_arrays (hi : i < batch.length) (ht : t < (req batch i).numKept keep) :
    (plan keep batch).keepIdx.getD (keptStart keep batch i + t) 0
        = rowStart batch i + (((req batch i).rowPlan keep).first + t) ∧
      (tokenToReq (plan keep batch).compactQsl).getD (keptStart keep batch i + t) 0 = i ∧
      (plan keep batch).lowerBound.getD (keptStart keep batch i + t) 0
        = (req batch i).maskLower keep ∧
      (plan keep batch).placeholder.getD (keptStart keep batch i + t) false
        = ((req batch i).rowPlan keep).placeholder := by
  refine ⟨?_, ?_, ?_, ?_⟩
  · rw [List.getD_eq_getElem?_getD, plan_keepIdx_getElem? hi ht, Option.getD_some, Nat.add_assoc]
  · rw [List.getD_eq_getElem?_getD, tokenToReq_compact hi ht, Option.getD_some]
  · rw [List.getD_eq_getElem?_getD, plan_lowerBound_getElem? hi ht, Option.getD_some,
      BatchReq.rowPlan_lb]
  · rw [List.getD_eq_getElem?_getD, plan_placeholder_getElem? hi ht, Option.getD_some]

/-- **A kept row equals its reference row.** -/
theorem compactRow_kept (hW : 0 < window) (hw : window ≤ width) (hi : i < batch.length)
    (ht : t < (req batch i).numKept keep)
    (hph : ((req batch i).rowPlan keep).placeholder = false) :
    compactRow window width batch (plan keep batch) (keptStart keep batch i + t)
      = maskRow window width keep (req batch i) (((req batch i).rowPlan keep).first + t) := by
  obtain ⟨hidx, hreq, hlb, hphd⟩ := compact_arrays hi ht
  have hrow : ((req batch i).rowPlan keep).first + t < (req batch i).numRows := by
    unfold BatchReq.numKept at ht
    omega
  -- a row from the cut on lies at or above the bound, so its slot is stored
  have hle := BatchReq.maskLower_le_pos hph (Nat.le_add_right _ t)
  have hpos : (positions batch).getD (rowStart batch i + (((req batch i).rowPlan keep).first + t)) 0
      = (req batch i).pos (((req batch i).rowPlan keep).first + t) := by
    rw [List.getD_eq_getElem?_getD, positions_getElem? hi hrow, Option.getD_some]
  have hslot : (slotMapping batch).getD
      (rowStart batch i + (((req batch i).rowPlan keep).first + t)) (-1)
      = (req batch i).blockTable.slot
        ((req batch i).pos (((req batch i).rowPlan keep).first + t)) := by
    rw [List.getD_eq_getElem?_getD, slotMapping_getElem? hi hrow, Option.getD_some]
  unfold compactRow maskRow
  simp only [hidx, hreq, hlb, hphd, hph, hpos, hslot, BlockTable.slot_nonneg, decide_true,
    Bool.false_eq_true, if_false, if_pos hle, kernelSwaRow_compact hi ht, DecoderRow.mk.injEq,
    true_and]
  exact clampSwaRow_windowRow (by omega) (by omega)

/-- **A placeholder row** stores nothing and sees nothing. -/
theorem compactRow_placeholder (hi : i < batch.length) (ht : t < (req batch i).numKept keep)
    (hph : ((req batch i).rowPlan keep).placeholder = true) :
    (compactRow window width batch (plan keep batch) (keptStart keep batch i + t)).slot = -1 ∧
      (compactRow window width batch (plan keep batch) (keptStart keep batch i + t)).swa.visible
        = [] := by
  obtain ⟨hidx, hreq, hlb, hphd⟩ := compact_arrays hi ht
  unfold compactRow
  simp only [hidx, hreq, hlb, hphd, hph, if_true]
  refine ⟨trivial, ?_⟩
  -- the slot `-1` is what makes the kernel write nothing
  have hval : decide ((0 : ℤ) ≤ -1) = false := by decide
  rw [hval, kernelSwaRow_invalid, clampSwaRow_empty]
  rfl

end Row

/-! ### The whole step -/

section Step

variable (window width keep : ℕ) (batch : Batch)

/-- The full-row reference step: every scheduled row, masked. -/
def maskStep : List DecoderRow :=
  (List.range batch.length).flatMap fun i =>
    (List.range (req batch i).numRows).map (maskRow window width keep (req batch i))

/-- What the compact step owes the masked full step. -/
structure CompactEqMask (plan : KeepPlan) : Prop where
  /-- `keep_idx` is strictly increasing. -/
  increasing : plan.keepIdx.Pairwise (· < ·)
  /-- `compact_qsl` starts at `0` and ends at the number of kept rows. -/
  bounds : plan.compactQsl.length = batch.length + 1 ∧ plan.compactQsl[0]? = some 0 ∧
    plan.compactQsl[batch.length]? = some plan.keepIdx.length
  /-- `compact_qsl` delimits, for each request, a non-empty contiguous suffix of
  its scheduled rows. -/
  suffix : ∀ i < batch.length, ∃ c k, plan.compactQsl[i]? = some c ∧
    plan.compactQsl[i + 1]? = some (c + k) ∧ 0 < k ∧ k ≤ (req batch i).numRows ∧
    ∀ t < k, plan.keepIdx[c + t]? = some (rowStart batch (i + 1) - k + t)
  /-- The kernel recovers the position of the full row. -/
  recovered : ∀ i < batch.length, ∀ j,
    plan.compactQsl.getD i 0 ≤ j → j < plan.compactQsl.getD (i + 1) 0 →
    (positions batch)[plan.keepIdx.getD j 0]? = some
      (kernelPos (plan.compactQsl.getD i 0) (plan.compactQsl.getD (i + 1) 0) (req batch i).seqLen j)
  /-- A kept row that is not a placeholder is its reference row. -/
  kept : ∀ j < plan.keepIdx.length, plan.placeholder.getD j false = false →
    (maskStep window width keep batch)[plan.keepIdx.getD j 0]?
      = some (compactRow window width batch plan j)
  /-- A placeholder row stores and sees nothing. -/
  placeholder : ∀ j < plan.keepIdx.length, plan.placeholder.getD j false = true →
    (compactRow window width batch plan j).slot = -1 ∧
      (compactRow window width batch plan j).swa.visible = []
  /-- A dropped row sees nothing in the reference. -/
  dropped : ∀ f < (positions batch).length, f ∉ plan.keepIdx →
    ∃ row, (maskStep window width keep batch)[f]? = some row ∧ row.swa.visible = []
  /-- `needed` holds iff some prefilling request is longer than `KEEP`. -/
  needed_iff : plan.needed = true ↔ ∃ r ∈ batch, r.isPrefilling = true ∧ keep < r.prefillLen
  /-- The runner's eager gate agrees. -/
  gate : plan.needed = needEager keep batch

variable {window width keep batch}

theorem maskStep_getElem? {i t : ℕ} (hi : i < batch.length) (ht : t < (req batch i).numRows) :
    (maskStep window width keep batch)[rowStart batch i + t]?
      = some (maskRow window width keep (req batch i) t) := by
  have h := getElem?_flatMap_range
    (fun k => (List.range (req batch k).numRows).map (maskRow window width keep (req batch k))) hi
    (t := t) (by simpa using ht)
  simp only [List.length_map, List.length_range] at h
  rw [maskStep, rowStart, h, List.getElem?_map, List.getElem?_range ht]
  rfl

theorem plan_keepIdx_increasing : (plan keep batch).keepIdx.Pairwise (· < ·) := by
  unfold plan keepPlanUpTo
  dsimp only
  rw [List.pairwise_flatMap]
  refine ⟨fun i _ => List.pairwise_lt_range', ?_⟩
  -- rows of an earlier request end before those of a later one begin
  refine List.pairwise_lt_range.imp_of_mem ?_
  intro i j hi hj hij x hx y hy
  rw [List.mem_range] at hi hj
  rw [arrays_kept keep hi, List.mem_range'_1] at hx
  rw [arrays_kept keep hj, List.mem_range'_1] at hy
  have hnext : rowStart batch i + (req batch i).numRows ≤ rowStart batch j := prefixSum_add_le _ hij
  have hcut := (req batch i).first_lt keep
  unfold BatchReq.numKept at hx
  omega

/-- Every compact row belongs to one request. -/
theorem exists_compact_segment {j : ℕ} (hj : j < (plan keep batch).keepIdx.length) :
    ∃ i < batch.length, ∃ t < (req batch i).numKept keep, j = keptStart keep batch i + t :=
  exists_segment _ (by rwa [length_plan_keepIdx] at hj)

/-- Every scheduled row belongs to one request. -/
theorem exists_full_segment {f : ℕ} (hf : f < (positions batch).length) :
    ∃ i < batch.length, ∃ t < (req batch i).numRows, f = rowStart batch i + t :=
  exists_segment _ (by rwa [length_positions] at hf)

theorem plan_needed : (plan keep batch).needed
    = batch.any fun r => r.isPrefilling && decide (keep < r.prefillLen) := by
  -- the arrays at request `i` are those of the `i`-th request
  have h : (plan keep batch).needed
      = (List.range batch.length).any fun i => ((req batch i).rowPlan keep).needed := by
    unfold plan keepPlanUpTo
    dsimp only
    rw [Bool.eq_iff_iff, List.any_eq_true, List.any_eq_true]
    constructor
    · rintro ⟨i, hi, h⟩
      exact ⟨i, hi, by rwa [arrays_rowPlan keep (List.mem_range.mp hi)] at h⟩
    · rintro ⟨i, hi, h⟩
      exact ⟨i, hi, by rwa [arrays_rowPlan keep (List.mem_range.mp hi)]⟩
  rw [h, Bool.eq_iff_iff, List.any_eq_true, List.any_eq_true]
  constructor
  · rintro ⟨i, hi, h⟩
    rw [List.mem_range] at hi
    rw [BatchReq.rowPlan, rowPlan_needed] at h
    refine ⟨req batch i, ?_, h⟩
    rw [req, List.getD_eq_getElem?_getD, List.getElem?_eq_getElem hi]
    exact List.getElem_mem hi
  · rintro ⟨r, hr, h⟩
    obtain ⟨i, hi, rfl⟩ := List.mem_iff_getElem.mp hr
    refine ⟨i, List.mem_range.mpr hi, ?_⟩
    rw [BatchReq.rowPlan, rowPlan_needed, req, List.getD_eq_getElem?_getD,
      List.getElem?_eq_getElem hi]
    exact h

theorem plan_needed_eq_needEager : (plan keep batch).needed = needEager keep batch := by
  rw [plan_needed, needEager]
  split
  · next h =>
    -- without a prefill neither side asks for truncation
    rw [Bool.not_eq_true', List.any_eq_false] at h
    rw [List.any_eq_false]
    intro r hr
    simp [h r hr]
  · rw [List.any_filter]

/-- **Compact equals mask**, for every batch. -/
theorem compact_eq_mask (window width keep : ℕ) (hW : 0 < window) (hw : window ≤ width)
    (batch : Batch) :
    ∃ plan, buildKeepPlan (arrays batch) keep = .ok plan ∧
      CompactEqMask window width keep batch plan := by
  refine ⟨plan keep batch, buildKeepPlan_arrays keep batch, ?_⟩
  constructor
  case increasing => exact plan_keepIdx_increasing
  case bounds =>
    rw [length_plan_keepIdx, plan_compactQsl]
    refine ⟨by simp, by simp [keptStart], by simp⟩
  case suffix =>
    intro i hi
    refine ⟨keptStart keep batch i, (req batch i).numKept keep, ?_, ?_, BatchReq.numKept_pos,
      Nat.sub_le _ _, ?_⟩
    · rw [plan_compactQsl]
      simp [show i < batch.length + 1 by omega]
    · rw [plan_compactQsl, ← keptStart_succ]
      simp [hi]
    · intro t ht
      -- the kept rows end where the request ends
      have hcut := (req batch i).first_lt keep
      rw [plan_keepIdx_getElem? hi ht, rowStart_succ, Option.some.injEq]
      unfold BatchReq.numKept
      omega
  case recovered =>
    intro i hi j hj₁ hj₂
    rw [plan_compactQsl_getD (by omega)] at hj₁ hj₂ ⊢
    rw [plan_compactQsl_getD (by omega)]
    rw [keptStart_succ] at hj₂
    obtain ⟨t, rfl⟩ := Nat.exists_eq_add_of_le hj₁
    have ht : t < (req batch i).numKept keep := by omega
    obtain ⟨hidx, -, -, -⟩ := compact_arrays hi ht
    rw [kernelPos_compact ht, hidx, positions_getElem? hi]
    unfold BatchReq.numKept at ht
    omega
  case kept =>
    intro j hj hph
    obtain ⟨i, hi, t, ht, rfl⟩ := exists_compact_segment hj
    obtain ⟨hidx, -, -, hphd⟩ := compact_arrays hi ht
    rw [hphd] at hph
    rw [compactRow_kept hW hw hi ht hph, hidx, maskStep_getElem? hi]
    unfold BatchReq.numKept at ht
    omega
  case placeholder =>
    intro j hj hph
    obtain ⟨i, hi, t, ht, rfl⟩ := exists_compact_segment hj
    obtain ⟨-, -, -, hphd⟩ := compact_arrays hi ht
    rw [hphd] at hph
    exact compactRow_placeholder hi ht hph
  case dropped =>
    intro f hf hnot
    obtain ⟨i, hi, t, ht, rfl⟩ := exists_full_segment hf
    refine ⟨_, maskStep_getElem? hi ht, ?_⟩
    -- a row at or past the cut is kept, so this one lies before it
    have hcut : t < ((req batch i).rowPlan keep).first := by
      by_contra hge
      refine hnot (List.mem_of_getElem? (i := keptStart keep batch i
        + (t - ((req batch i).rowPlan keep).first)) ?_)
      rw [plan_keepIdx_getElem? hi]
      · rw [Option.some.injEq]
        omega
      · unfold BatchReq.numKept
        omega
    have hlt := BatchReq.pos_lt_maskLower hcut
    unfold maskRow
    rw [windowRow_of_lt (by omega)]
    rfl
  case needed_iff =>
    rw [plan_needed, List.any_eq_true]
    simp only [Bool.and_eq_true, decide_eq_true_eq]
  case gate => exact plan_needed_eq_needEager

/-- The statement at a batch that mixes a decoding request with an early and a
final chunk of two long prompts. -/
theorem compact_eq_mask_mixed :
    ∃ plan, buildKeepPlan (arrays
        [.ofRunner 9 7 2 ⟨id, 4⟩ (by decide), .ofRunner 0 20 5 ⟨id, 4⟩ (by decide),
          .ofRunner 12 16 4 ⟨id, 4⟩ (by decide)]) 6 = .ok plan ∧
      CompactEqMask 3 4 6
        [.ofRunner 9 7 2 ⟨id, 4⟩ (by decide), .ofRunner 0 20 5 ⟨id, 4⟩ (by decide),
          .ofRunner 12 16 4 ⟨id, 4⟩ (by decide)] plan :=
  compact_eq_mask 3 4 6 (by decide) (by decide) _

end Step

end Yoco
end Dsv41Overlay
