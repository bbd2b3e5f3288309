import Dsv41Overlay.Lib.Floor
import Dsv41Overlay.SwaFinal.Checkpoint
import Dsv41Overlay.Yoco.Plan

/-!
# The hit cap and the retained boundary

Under YOCO the last `KEEP` tokens of a prompt are computed on every prefill, so that a
prefix-cache hit ends `KEEP` tokens before the prompt does. Three formulas follow from
this one decision: the cap handed to the lookup, the boundary whose tail sparse retention
keeps for a retry, and the pure model of the hit.

`reachableBlockMask` says which blocks of a prompt are kept (`keptBy_reachableBlockMask`).
The tail of the boundary `N - KEEP - peek` ends at `N - KEEP` or before, so that it
is made of full prompt blocks, and it holds a full window at an aligned length: a retry
under the cap finds it.
-/

namespace Dsv41Overlay
namespace Yoco

open SwaFinal (SwaGroup contiguousBlocksForHit findLongestCacheHit)

/-! ### The three formulas -/

/-- `capped_hit`: the hit under the cap, aligned, with the EAGLE block still inside. -/
def cappedHit (numTokens keep align peek cached : ℕ) : ℤ :=
  let limit : ℤ := (min cached (maxCacheHitLength numTokens keep) : ℕ) - (peek : ℤ)
  max 0 (limit / align * align)

/-- `yoco_reachable_boundary`. -/
def yocoReachableBoundary (numPromptTokens keep blockSize : ℕ) (useEagle : Bool) : ℤ :=
  numPromptTokens - keep - if useEagle then blockSize else 0

/-- The `reachable_boundaries` of `cache_blocks` after the overlay's edit: the replay
boundary, the boundary of a retry under the cap, and a shared-prefix junction if there is
one. -/
def reachableBoundaries (g : SwaGroup) (numPromptTokens sharedPrefixBoundary : ℕ) : List ℤ :=
  let boundary := yocoReachableBoundary numPromptTokens g.keep g.blockSize g.useEagle
  [(numPromptTokens : ℤ) - 1] ++ (if 0 < boundary then [boundary] else [])
    ++ if sharedPrefixBoundary ≠ 0 then [(sharedPrefixBoundary : ℤ)] else []

/-! ### The mask -/

section Mask

variable (g : SwaGroup)

/-- The blocks a hit needs. -/
def need : ℕ := contiguousBlocksForHit g.slidingWindow g.blockSize g.useEagle

/-- One block more under EAGLE, which peeks past the boundary. -/
def shift : ℕ := if g.useEagle then 1 else 0

/-- The right end of a boundary's tail, in blocks. -/
def tailEnd (boundary : ℤ) : ℤ :=
  boundary / g.alignment * g.alignment / g.blockSize + shift g

/-- The blocks of a boundary's tail that lie in `[startBlock, endBlock)`. -/
def tailRange (startBlock endBlock : ℕ) (boundary : ℤ) : List ℕ :=
  let lo := max (startBlock : ℤ) (tailEnd g boundary - need g)
  let hi := min (endBlock : ℤ) (tailEnd g boundary)
  List.range' lo.toNat (hi - lo).toNat

/-- Set the mask of the range from `startBlock` on at the given blocks. -/
def markBlocks (startBlock : ℕ) (mask : List Bool) (blocks : List ℕ) : List Bool :=
  blocks.foldl (fun mask i => mask.set (i - startBlock) true) mask

/-- Block `i` is in the tail of a segment of `perSegment` blocks. -/
def inSegmentTail (perSegment i : ℕ) : Bool :=
  decide (shift g ≤ i ∧ perSegment - need g ≤ (i - shift g) % perSegment)

/-- `reachable_block_mask` of the blocks `[startBlock, endBlock)`; `none` caches every
block. -/
def reachableBlockMask (startBlock endBlock : ℕ) (retentionInterval : Option ℕ)
    (boundaries : List ℤ) : Option (List Bool) :=
  let mask := List.replicate (endBlock - startBlock) false
  let blocks := List.range' startBlock (endBlock - startBlock)
  match retentionInterval with
  | none =>
    -- dense: a tail at every aligned boundary
    let perSegment := g.alignment / g.blockSize
    if perSegment ≤ need g then none
    else some (markBlocks startBlock mask (blocks.filter (inSegmentTail g perSegment)))
  | some 0 => some (boundaries.foldl
      (fun mask b => markBlocks startBlock mask (tailRange g startBlock endBlock b)) mask)
  | some (interval + 1) =>
    let perSegment := (interval + 1) / g.blockSize
    if perSegment ≤ need g then none
    else
      let mask := markBlocks startBlock mask (blocks.filter (inSegmentTail g perSegment))
      some (boundaries.foldl
        (fun mask b => markBlocks startBlock mask (tailRange g startBlock endBlock b)) mask)

/-- What a mask says about block `j` of a range from `startBlock` on. -/
def keptBy (mask : Option (List Bool)) (startBlock j : ℕ) : Bool :=
  match mask with
  | none => true
  | some mask => mask.getD (j - startBlock) false

end Mask

/-! ### What the mask keeps -/

section Kept

variable {g : SwaGroup} {startBlock endBlock j : ℕ} {mask : List Bool}

theorem length_markBlocks (blocks : List ℕ) :
    (markBlocks startBlock mask blocks).length = mask.length :=
  SwaFinal.length_foldl_set (fun _ => true) startBlock blocks mask

/-- A marked block is set, the others stay. -/
theorem markBlocks_getD {blocks : List ℕ} (hlo : ∀ i ∈ blocks, startBlock ≤ i)
    (hj : startBlock ≤ j) (hlen : j - startBlock < mask.length) :
    (markBlocks startBlock mask blocks).getD (j - startBlock) false
      = (decide (j ∈ blocks) || mask.getD (j - startBlock) false) := by
  have h := SwaFinal.getD_foldl_set (fun _ => true) hlo hlen
  rw [Nat.add_sub_cancel' hj] at h
  unfold markBlocks
  rw [h]
  by_cases hmem : j ∈ blocks
  · rw [if_pos hmem, decide_eq_true hmem, Bool.true_or]
  · rw [if_neg hmem, decide_eq_false hmem, Bool.false_or]

/-- Block `j` lies in the boundary's tail. -/
theorem mem_tailRange {boundary : ℤ} (hlo : startBlock ≤ j) (hhi : j < endBlock) :
    j ∈ tailRange g startBlock endBlock boundary ↔
      tailEnd g boundary - need g ≤ j ∧ (j : ℤ) < tailEnd g boundary := by
  unfold tailRange
  dsimp only
  rw [List.mem_range'_1]
  omega

theorem bounds_of_mem_tailRange {boundary : ℤ} {i : ℕ}
    (h : i ∈ tailRange g startBlock endBlock boundary) : startBlock ≤ i ∧ i < endBlock := by
  unfold tailRange at h
  dsimp only at h
  rw [List.mem_range'_1] at h
  omega

/-- The tails of the boundaries are added one after another. -/
theorem foldl_markBlocks_getD {boundaries : List ℤ} (hj : startBlock ≤ j)
    (hlen : j - startBlock < mask.length) :
    (boundaries.foldl
        (fun mask b => markBlocks startBlock mask (tailRange g startBlock endBlock b)) mask).getD
      (j - startBlock) false
      = ((boundaries.any fun b => decide (j ∈ tailRange g startBlock endBlock b))
        || mask.getD (j - startBlock) false) := by
  induction boundaries generalizing mask with
  | nil => rfl
  | cons b boundaries ih =>
    rw [List.foldl_cons, ih (by rwa [length_markBlocks]),
      markBlocks_getD (fun _ h => (bounds_of_mem_tailRange h).1) hj hlen, List.any_cons,
      Bool.or_left_comm, ← Bool.or_assoc]

/-- **Under sparse retention a boundary's tail is kept**, whatever range the call covers. -/
theorem keptBy_reachableBlockMask {interval : ℕ} {boundaries : List ℤ} {boundary : ℤ}
    (hmem : boundary ∈ boundaries) (hlo : startBlock ≤ j) (hhi : j < endBlock)
    (htail : tailEnd g boundary - need g ≤ j ∧ (j : ℤ) < tailEnd g boundary) :
    keptBy (reachableBlockMask g startBlock endBlock (some interval) boundaries) startBlock j
      = true := by
  have hany : (boundaries.any fun b => decide (j ∈ tailRange g startBlock endBlock b)) = true :=
    List.any_eq_true.mpr ⟨boundary, hmem, decide_eq_true ((mem_tailRange hlo hhi).mpr htail)⟩
  have hlen : j - startBlock < (List.replicate (endBlock - startBlock) false).length := by
    rw [List.length_replicate]
    omega
  unfold reachableBlockMask keptBy
  cases interval with
  | zero =>
    dsimp only
    rw [foldl_markBlocks_getD hlo hlen, hany, Bool.true_or]
  | succ interval =>
    dsimp only
    split
    · rfl
    · next mask hmask =>
      split at hmask
      · cases hmask
      · cases hmask
        rw [foldl_markBlocks_getD hlo (by rwa [length_markBlocks]), hany, Bool.true_or]

end Kept

/-! ### The pure model of the hit -/

/-- Rounding a limit down gives the greatest of `0` and of the multiples below it. -/
theorem isGreatest_max_zero_floor {a x : ℤ} (ha : 0 < a) :
    IsGreatest {h | h = 0 ∨ a ∣ h ∧ h ≤ x} (max 0 (x / a * a)) := by
  obtain ⟨hmem, hup⟩ := Floor.isGreatest ha x
  constructor
  · rcases max_choice 0 (x / a * a) with h | h
    · exact .inl h
    · rw [h]
      exact .inr hmem
  · rintro h (rfl | hh)
    · exact le_max_left _ _
    · exact (hup hh).trans (le_max_right _ _)

/-- **What the model of the hit computes.** -/
theorem isGreatest_cappedHit {numTokens keep align peek cached : ℕ} (hkeep : 1 ≤ keep)
    (halign : 0 < align) :
    IsGreatest {h : ℤ | h = 0 ∨ (align : ℤ) ∣ h ∧
        h + peek ≤ min (cached : ℤ) (max 0 ((numTokens : ℤ) - keep))}
      (cappedHit numTokens keep align peek cached) := by
  have hcap : ((min cached (maxCacheHitLength numTokens keep) : ℕ) : ℤ)
      = min (cached : ℤ) (max 0 ((numTokens : ℤ) - keep)) := by
    unfold maxCacheHitLength
    omega
  have hset : {h : ℤ | h = 0 ∨ (align : ℤ) ∣ h ∧
        h + peek ≤ min (cached : ℤ) (max 0 ((numTokens : ℤ) - keep))}
      = {h : ℤ | h = 0 ∨ (align : ℤ) ∣ h ∧
        h ≤ min (cached : ℤ) (max 0 ((numTokens : ℤ) - keep)) - peek} := by
    ext h
    exact or_congr_right (and_congr_right fun _ => le_sub_iff_add_le.symm)
  rw [hset]
  unfold cappedHit
  rw [hcap]
  exact isGreatest_max_zero_floor (Int.natCast_pos.mpr halign)

/-! ### The tail of the boundary -/

section Tail

variable (g : SwaGroup)

/-- EAGLE peeks at one block. -/
theorem peek_eq : g.peek = shift g * g.blockSize := by
  unfold SwaGroup.peek shift
  split
  · exact (Nat.one_mul _).symm
  · exact (Nat.zero_mul _).symm

theorem need_pos {g : SwaGroup} (h : 2 ≤ g.slidingWindow ∨ g.useEagle = true) : 0 < need g := by
  have hle := SwaFinal.le_cdiv_mul (g.slidingWindow - 1) g.blockSize_pos
  unfold need contiguousBlocksForHit
  rcases h with h | h
  · -- no block would hold none of the window
    by_contra hzero
    have hcdiv : SwaFinal.cdiv (g.slidingWindow - 1) g.blockSize = 0 := by omega
    rw [hcdiv, Nat.zero_mul] at hle
    omega
  · rw [if_pos h]
    exact Nat.succ_pos _

/-- The boundary of a retry, when it is positive. -/
theorem exists_boundary {N : ℕ}
    (hpos : 0 < yocoReachableBoundary N g.keep g.blockSize g.useEagle) :
    ∃ m : ℕ, yocoReachableBoundary N g.keep g.blockSize g.useEagle = m ∧
      m + g.keep + g.peek = N := by
  have hcast : yocoReachableBoundary N g.keep g.blockSize g.useEagle
      = (N : ℤ) - g.keep - (g.peek : ℕ) := by
    unfold yocoReachableBoundary SwaGroup.peek
    split
    · rfl
    · rfl
  rw [hcast] at hpos ⊢
  exact ⟨N - g.keep - g.peek, by omega, by omega⟩

/-- The blocks of the aligned part of `m` tokens. -/
def tailBlocks (m : ℕ) : ℕ := m / g.alignment * g.alignment / g.blockSize

theorem tailBlocks_mul (m : ℕ) : tailBlocks g m * g.blockSize = m / g.alignment * g.alignment :=
  Nat.div_mul_cancel (g.blockSize_dvd.trans (Nat.dvd_mul_left _ _))

theorem tailEnd_natCast (m : ℕ) : tailEnd g m = ((tailBlocks g m + shift g : ℕ) : ℤ) := by
  unfold tailEnd tailBlocks
  push_cast
  rfl

/-- **The tail ends before the rectangle.** -/
theorem tail_le {m N j : ℕ} (hm : m + g.keep + g.peek = N)
    (hj : (j : ℤ) < tailEnd g m) : (j + 1) * g.blockSize + g.keep ≤ N := by
  rw [tailEnd_natCast] at hj
  have hle : m / g.alignment * g.alignment ≤ m := Nat.div_mul_le_self _ _
  have hblocks : (j + 1) * g.blockSize ≤ (tailBlocks g m + shift g) * g.blockSize :=
    Nat.mul_le_mul_right _ (by omega)
  rw [Nat.add_mul (tailBlocks g m), tailBlocks_mul, ← peek_eq] at hblocks
  omega

end Tail

/-! ### The retry -/

section Retry

variable {H : Type*} {g : SwaGroup} {cached : H → Bool} {hashes : ℕ → H} {m N : ℕ}

/-- A retry finds the aligned part of the boundary, if the tail is cached. -/
theorem aligned_le_hit (hspan : g.windowBlocks * g.blockSize ≤ g.alignment) (hneed : 0 < need g)
    (hkeep : 1 ≤ g.keep) (hm : m + g.keep + g.peek = N)
    (hcached : ∀ j : ℕ, tailEnd g m - need g ≤ j → (j : ℤ) < tailEnd g m →
      cached (hashes j) = true) :
    m / g.alignment * g.alignment
      ≤ (findLongestCacheHit g cached hashes (maxCacheHitLength N g.keep) g.useEagle).2 := by
  have hwindow : need g = g.windowBlocks + shift g := rfl
  by_cases hzero : m / g.alignment = 0
  · rw [hzero, Nat.zero_mul]
    exact Nat.zero_le _
  · -- the aligned part holds a window
    have hone : g.alignment ≤ m / g.alignment * g.alignment :=
      Nat.le_mul_of_pos_left _ (Nat.pos_of_ne_zero hzero)
    have hblocks : g.windowBlocks ≤ tailBlocks g m := by
      apply Nat.le_of_mul_le_mul_right _ g.blockSize_pos
      rw [tailBlocks_mul]
      exact hspan.trans hone
    -- and it ends, with the EAGLE block, under the cap
    have hmax : tailBlocks g m + shift g ≤ maxCacheHitLength N g.keep / g.blockSize := by
      rw [Nat.le_div_iff_mul_le g.blockSize_pos, Nat.add_mul, tailBlocks_mul, ← peek_eq]
      have hle : m / g.alignment * g.alignment ≤ m := Nat.div_mul_le_self _ _
      unfold maxCacheHitLength
      omega
    have hedge : SwaFinal.EdgeAligned g g.useEagle (tailBlocks g m + shift g) := by
      have hdvd : g.alignment ∣ tailBlocks g m * g.blockSize := by
        rw [tailBlocks_mul]
        exact Nat.dvd_mul_left _ _
      unfold SwaFinal.EdgeAligned shift
      rwa [Nat.add_sub_cancel]
    have hhit := SwaFinal.le_findLongestCacheHit hneed
      (show need g ≤ tailBlocks g m + shift g by omega) hmax hedge
      (fun j hlo hhi => hcached j (by rw [tailEnd_natCast]; unfold need; omega)
        (by rw [tailEnd_natCast]; omega))
    calc m / g.alignment * g.alignment
        = (tailBlocks g m + shift g - shift g) * g.blockSize := by
          rw [Nat.add_sub_cancel, tailBlocks_mul]
      _ ≤ (findLongestCacheHit g cached hashes (maxCacheHitLength N g.keep) g.useEagle).2 := hhit

/-- What the prefill of the prompt leaves in the cache: block `j` went through one call
that covers it, and is cached if the mask of the call says so. -/
def Retained (g : SwaGroup) (N interval sharedPrefixBoundary : ℕ) (cached : H → Bool)
    (hashes : ℕ → H) : Prop :=
  ∀ j < N / g.blockSize, ∃ startBlock endBlock : ℕ, startBlock ≤ j ∧ j < endBlock ∧
    cached (hashes j) = keptBy (reachableBlockMask g startBlock endBlock (some interval)
      (reachableBoundaries g N sharedPrefixBoundary)) startBlock j

/-- A positive boundary is among those the calls are given. -/
theorem mem_reachableBoundaries {shared : ℕ}
    (hpos : 0 < yocoReachableBoundary N g.keep g.blockSize g.useEagle) :
    yocoReachableBoundary N g.keep g.blockSize g.useEagle ∈ reachableBoundaries g N shared := by
  unfold reachableBoundaries
  dsimp only
  rw [if_pos hpos]
  simp

end Retry

/-! ### The result -/

/-- **The cap and the retained boundary fit together.** The model of the hit is the
greatest of `0` and of the aligned hits that fit under the cap with the EAGLE block. If
the boundary of a retry is positive, its tail consists of full prompt blocks and is kept by
every call, and a retry of the prompt that finds no more than the kept blocks is
answered at most with the cap, so that it recomputes the rectangle. Where a lookup needs
a block (not for a window of one token without EAGLE), it is answered with the aligned
part of the boundary or more, and recomputes less than an alignment above what `keep`
and EAGLE force. -/
theorem hit_cap_fits_retention {H : Type*} (g : SwaGroup) (hkeep : 1 ≤ g.keep)
    (hspan : SwaFinal.cdiv (g.slidingWindow - 1) g.blockSize * g.blockSize ≤ g.alignment)
    (N : ℕ) :
    (∀ cached : ℕ, IsGreatest {h : ℤ | h = 0 ∨ (g.alignment : ℤ) ∣ h ∧
        h + g.peek ≤ min (cached : ℤ) (max 0 ((N : ℤ) - g.keep))}
      (cappedHit N g.keep g.alignment g.peek cached)) ∧
    (0 < (N : ℤ) - g.keep - g.peek → ∀ interval shared : ℕ,
      (∀ startBlock endBlock j : ℕ,
        j ∈ tailRange g startBlock endBlock
            (yocoReachableBoundary N g.keep g.blockSize g.useEagle) →
          (j + 1) * g.blockSize ≤ N ∧
          keptBy (reachableBlockMask g startBlock endBlock (some interval)
            (reachableBoundaries g N shared)) startBlock j = true) ∧
      ∀ (cached : H → Bool) (hashes : ℕ → H), Retained g N interval shared cached hashes →
        let hit : ℤ := (findLongestCacheHit g cached hashes
          (maxCacheHitLength N g.keep) g.useEagle).2
        hit ≤ N - g.keep ∧ g.keep ≤ N - hit ∧
          (2 ≤ g.slidingWindow ∨ g.useEagle = true →
            g.alignment * (((N : ℤ) - g.keep - g.peek) / g.alignment) ≤ hit ∧
            N - hit ≤ g.keep + g.peek + g.alignment - 1)) := by
  refine ⟨fun cached => isGreatest_cappedHit hkeep g.alignment_pos, ?_⟩
  intro hpos interval shared
  have hboundary : yocoReachableBoundary N g.keep g.blockSize g.useEagle
      = (N : ℤ) - g.keep - g.peek := by
    unfold yocoReachableBoundary SwaGroup.peek
    split
    · rfl
    · rfl
  have hpos' : 0 < yocoReachableBoundary N g.keep g.blockSize g.useEagle := by
    rwa [hboundary]
  have hmem : yocoReachableBoundary N g.keep g.blockSize g.useEagle
      ∈ reachableBoundaries g N shared := mem_reachableBoundaries hpos'
  obtain ⟨m, hm, hN⟩ := exists_boundary g hpos'
  rw [hm] at hmem ⊢
  constructor
  · intro startBlock endBlock j hj
    obtain ⟨hlo, hhi⟩ := bounds_of_mem_tailRange hj
    have htail := (mem_tailRange hlo hhi).mp hj
    have hle := tail_le g hN htail.2
    exact ⟨by omega, keptBy_reachableBlockMask hmem hlo hhi htail⟩
  · intro cached hashes hretained
    dsimp only
    have hupper := SwaFinal.findLongestCacheHit_le g cached hashes
      (maxCacheHitLength N g.keep) g.useEagle
    have hcap : ((findLongestCacheHit g cached hashes
        (maxCacheHitLength N g.keep) g.useEagle).2 : ℤ) ≤ N - g.keep := by
      unfold maxCacheHitLength at hupper ⊢
      omega
    refine ⟨hcap, by omega, fun hblock => ?_⟩
    -- the tail is kept, so the lookup finds it
    have hcached : ∀ j : ℕ, tailEnd g m - need g ≤ j → (j : ℤ) < tailEnd g m →
        cached (hashes j) = true := by
      intro j hlo hhi
      have hle := tail_le g hN hhi
      have hj : j < N / g.blockSize :=
        (Nat.le_div_iff_mul_le g.blockSize_pos).mpr (show (j + 1) * g.blockSize ≤ N by omega)
      obtain ⟨startBlock, endBlock, hstart, hend, hkept⟩ := hretained j hj
      rw [hkept]
      exact keptBy_reachableBlockMask hmem hstart hend ⟨hlo, hhi⟩
    have hlower := aligned_le_hit hspan (need_pos hblock) hkeep hN hcached
    have hfloor : (g.alignment : ℤ) * (((N : ℤ) - g.keep - g.peek) / g.alignment)
        = ((m / g.alignment * g.alignment : ℕ) : ℤ) := by
      rw [← hboundary, hm, Int.mul_comm]
      push_cast
      rfl
    have hround := Floor.sub_lt (Int.natCast_pos.mpr g.alignment_pos) ((N : ℤ) - g.keep - g.peek)
    rw [Int.mul_comm] at hround
    omega

/-- A window of three tokens in blocks of two, with EAGLE. -/
theorem hit_cap_fits_retention_small :
    let g : SwaGroup := ⟨3, 2, 4, true, 1, 0, by decide, by decide, by decide, by decide⟩
    let cached : ℕ → Bool := fun j =>
      keptBy (reachableBlockMask g j (j + 1) (some 0) (reachableBoundaries g 12 0)) j j
    let hit : ℤ := (findLongestCacheHit g cached id (maxCacheHitLength 12 1) true).2
    4 * (((12 : ℤ) - 1 - 2) / 4) ≤ hit ∧ hit ≤ 12 - 1 ∧ 1 ≤ 12 - hit ∧
      12 - hit ≤ 1 + 2 + 4 - 1 := by
  intro g cached
  have hretained : Retained g 12 0 0 cached id := by
    intro j _
    exact ⟨j, j + 1, Nat.le_refl j, Nat.lt_succ_self j, rfl⟩
  obtain ⟨hcap, hrect, hbounds⟩ :=
    ((hit_cap_fits_retention (H := ℕ) g (by decide) (by decide) 12).2 (by decide) 0 0).2
      cached id hretained
  obtain ⟨hlower, hupper⟩ := hbounds (.inr rfl)
  exact ⟨hlower, hcap, hrect, hupper⟩

/-- A window of one token in blocks of one token, without EAGLE: no block is kept, and
the retry of a prompt of three tokens recomputes all of them. -/
theorem unit_window_retry_recomputes :
    ∃ g : SwaGroup, 1 ≤ g.keep ∧
      SwaFinal.cdiv (g.slidingWindow - 1) g.blockSize * g.blockSize ≤ g.alignment ∧
      0 < (3 : ℤ) - g.keep - g.peek ∧
      ∃ (cached : ℕ → Bool) (hashes : ℕ → ℕ), Retained g 3 0 0 cached hashes ∧
        ¬ ((g.alignment : ℤ) * (((3 : ℤ) - g.keep - g.peek) / g.alignment)
          ≤ (findLongestCacheHit g cached hashes (maxCacheHitLength 3 g.keep) g.useEagle).2) := by
  refine ⟨⟨1, 1, 1, false, 1, 0, by decide, by decide, by decide, by decide⟩, by decide,
    by decide, by decide, fun _ => false, id, ?_, by decide⟩
  intro j hj
  have hj' : j < 3 := hj
  refine ⟨j, j + 1, Nat.le_refl j, Nat.lt_succ_self j, ?_⟩
  obtain rfl | rfl | rfl : j = 0 ∨ j = 1 ∨ j = 2 := by omega
  · rfl
  · rfl
  · rfl

end Yoco
end Dsv41Overlay
