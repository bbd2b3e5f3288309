import Dsv41Overlay.SwaFinal.Tails

/-!
# A short run from block `0`

The tail of a checkpoint below the window is cut at block `0`. The overlay keeps such a
checkpoint because the lookup accepts a run from block `0` even when it is shorter than
the window.

Without a block to drop this is right, and also when a block is as long as the alignment
(`le_findLongestCacheHit_short`). Otherwise the two branches of the lookup differ: a full
run starts where the length is aligned after the EAGLE block is dropped, but the short
branch aligns first, which removes the EAGLE block, then drops a further block, and aligns
again. The hit is then one alignment step below the checkpoint.
-/

namespace Dsv41Overlay
namespace SwaFinal

variable {H : Type*} {g : SwaGroup} {cached : H → Bool} {hashes : ℕ → H} {dropEagle : Bool}

/-! ### Popping -/

theorem alignedBlocks_mono_of_dvd {m n : ℕ} (hm : g.alignment ∣ m * g.blockSize) (h : m ≤ n) :
    m ≤ alignedBlocks g n := by
  induction n with
  | zero => exact h
  | succ n ih =>
    unfold alignedBlocks
    split
    · next hmis =>
      rcases Nat.lt_or_eq_of_le h with hlt | rfl
      · exact ih (Nat.le_of_lt_succ hlt)
      · exact absurd (Nat.mod_eq_zero_of_dvd hm) hmis.2
    · exact h

/-- One block past an aligned length is popped, unless every length is aligned. -/
theorem alignedBlocks_succ_of_dvd {k : ℕ} (hk : g.alignment ∣ k * g.blockSize)
    (hne : g.alignment ≠ g.blockSize) : alignedBlocks g (k + 1) = k := by
  have hmis : (k + 1) * g.blockSize % g.alignment ≠ 0 := by
    intro hmod
    have hdvd := Nat.dvd_of_mod_eq_zero hmod
    rw [Nat.add_mul, Nat.one_mul] at hdvd
    exact hne (Nat.dvd_antisymm ((Nat.dvd_add_right hk).mp hdvd) g.blockSize_dvd)
  unfold alignedBlocks
  rw [if_pos ⟨hne.symm, hmis⟩]
  exact alignedBlocks_of_dvd hk

/-! ### The search -/

section Search

variable {need e : ℕ}

/-- **A cached run from block `0` is not missed**: the search ends with a full run that
reaches it, or with a run from block `0` that does. -/
theorem searchLoop_reach {i run : ℕ} {computed : List (Block H)}
    (hcached : ∀ j < e, cached (hashes j) = true) (hedge : EdgeAligned g dropEagle e)
    (hbound : i + run ≤ computed.length) (hreach : e ≤ i + run) :
    (searchLoop g cached hashes need dropEagle i computed run).found = true ∧
        e ≤ (searchLoop g cached hashes need dropEagle i computed run).computed.length ∨
      (searchLoop g cached hashes need dropEagle i computed run).found = false ∧
        e ≤ (searchLoop g cached hashes need dropEagle i computed run).run := by
  -- induction on the blocks left; the run in hand reaches `e`, or `e` is still to come
  induction i generalizing computed run with
  | zero =>
    rw [Nat.zero_add] at hreach
    exact .inr ⟨rfl, hreach⟩
  | succ i ih =>
    have hgrow : i + (run + 1) ≤ (computed.set i (.alloc (some (hashes i)))).length := by
      rw [List.length_set]
      omega
    unfold searchLoop
    by_cases hi : cached (hashes i) = true
    · rw [if_pos hi]
      by_cases hskip : run = 0 ∧ endsUnaligned g dropEagle i = true
      · rw [if_pos hskip]
        -- a skipped block is not the edge, so the edge is below
        have hne : e ≠ i + 1 := by
          rintro rfl
          rw [endsUnaligned_eq_false.mpr hedge] at hskip
          exact Bool.noConfusion hskip.2
        exact ih (by omega) (by omega)
      · rw [if_neg hskip]
        dsimp only
        split
        · left
          refine ⟨rfl, ?_⟩
          rw [List.length_take]
          omega
        · exact ih hgrow (by omega)
    · rw [if_neg hi]
      have hlow : e ≤ i := by
        by_contra hlt
        exact hi (hcached i (by omega))
      exact ih (by omega) (by omega)

/-- **With nothing else cached** the search ends with that run, when it is too short. -/
theorem searchLoop_only {i : ℕ} (computed : List (Block H))
    (hcached : ∀ j < i, cached (hashes j) = decide (j < e)) (hedge : EdgeAligned g dropEagle e)
    (hshort : e < need) :
    (searchLoop g cached hashes need dropEagle i computed (e - i)).found = false ∧
      (searchLoop g cached hashes need dropEagle i computed (e - i)).run = e := by
  induction i generalizing computed with
  | zero => exact ⟨rfl, Nat.sub_zero e⟩
  | succ i ih =>
    have hbelow : ∀ j < i, cached (hashes j) = decide (j < e) := fun j hj =>
      hcached j (Nat.lt_succ_of_lt hj)
    have hi := hcached i (Nat.lt_succ_self i)
    unfold searchLoop
    by_cases hin : i < e
    · rw [if_pos (hi.trans (decide_eq_true hin))]
      have hskip : ¬ (e - (i + 1) = 0 ∧ endsUnaligned g dropEagle i = true) := by
        rintro ⟨hzero, hmis⟩
        obtain rfl : e = i + 1 := by omega
        rw [endsUnaligned_eq_false.mpr hedge] at hmis
        exact Bool.noConfusion hmis
      have hrun : e - (i + 1) + 1 = e - i := by omega
      rw [if_neg hskip]
      dsimp only
      rw [if_neg (by omega), hrun]
      exact ih _ hbelow
    · rw [if_neg (by rw [hi, decide_eq_false hin]; exact Bool.false_ne_true)]
      have hzero : e - i = 0 := by omega
      rw [← hzero]
      exact ih computed hbelow

end Search

/-! ### The lookup -/

section Lookup

variable {maxLength e : ℕ}

theorem findLongestCacheHit_fst :
    (findLongestCacheHit g cached hashes maxLength dropEagle).1
      = dropEagleBlock g dropEagle ((search g cached hashes maxLength dropEagle).matched g) := rfl

/-- Where every length is aligned, dropping takes no more than the EAGLE block. -/
theorem le_length_dropEagleBlock (haligned : ∀ n, g.alignment ∣ n * g.blockSize)
    (computed : List (Block H)) :
    computed.length - (if dropEagle then 1 else 0)
      ≤ (dropEagleBlock g dropEagle computed).length := by
  unfold dropEagleBlock
  cases dropEagle with
  | false => exact Nat.le_refl _
  | true =>
    cases computed with
    | nil => exact Nat.le_refl _
    | cons b computed =>
      change computed.length + 1 - 1 ≤ (popUnaligned g (b :: computed).dropLast).length
      rw [popUnaligned_of_dvd (haligned _), List.length_dropLast]
      exact Nat.le_refl _

/-- **A short run is a hit** when no block is dropped, or when every length is aligned. -/
theorem le_findLongestCacheHit_short (hcached : ∀ j < e, cached (hashes j) = true)
    (hedge : EdgeAligned g dropEagle e) (hmax : e ≤ maxLength / g.blockSize)
    (hdrop : dropEagle = false ∨ g.alignment = g.blockSize) :
    (e - if dropEagle then 1 else 0) * g.blockSize
      ≤ (findLongestCacheHit g cached hashes maxLength dropEagle).2 := by
  have hspec := search_spec g cached hashes maxLength dropEagle
  have hsnd : (findLongestCacheHit g cached hashes maxLength dropEagle).2
      = (findLongestCacheHit g cached hashes maxLength dropEagle).1.length * g.blockSize := rfl
  have hreach : (search g cached hashes maxLength dropEagle).found = true ∧
        e ≤ (search g cached hashes maxLength dropEagle).computed.length ∨
      (search g cached hashes maxLength dropEagle).found = false ∧
        e ≤ (search g cached hashes maxLength dropEagle).run :=
    searchLoop_reach hcached hedge (Nat.le_of_eq List.length_replicate.symm) hmax
  rw [hsnd]
  apply Nat.mul_le_mul_right
  rcases hreach with ⟨hf, hlen⟩ | ⟨hf, hrun⟩
  · rw [findLongestCacheHit_of_found hf, List.length_take]
    omega
  · have hbound := (hspec.short hf).bound
    have hmatched : e ≤ ((search g cached hashes maxLength dropEagle).computed.take
        (search g cached hashes maxLength dropEagle).run).length := by
      rw [List.length_take]
      omega
    rw [findLongestCacheHit_fst, matched_of_not_found hf]
    rcases hdrop with rfl | hdense
    · -- nothing is dropped, and `e` blocks are aligned
      change e ≤ (popUnaligned g _).length
      rw [length_popUnaligned]
      exact alignedBlocks_mono_of_dvd hedge hmatched
    · -- every length is aligned, so only the EAGLE block goes
      have haligned : ∀ n, g.alignment ∣ n * g.blockSize := fun n => hdense ▸ Nat.dvd_mul_left _ n
      rw [popUnaligned_of_dvd (haligned _)]
      exact (Nat.sub_le_sub_right hmatched _).trans (le_length_dropEagleBlock haligned _)

/-- **Dropping from a short run loses a step.** With only the blocks below `k + 1` cached,
too few for the window, and blocks shorter than the alignment, the hit is below `k`. -/
theorem findLongestCacheHit_short_lt {k : ℕ} (hk : g.alignment ∣ k * g.blockSize) (hpos : 0 < k)
    (hcached : ∀ j < maxLength / g.blockSize, cached (hashes j) = decide (j < k + 1))
    (hmax : k + 1 ≤ maxLength / g.blockSize)
    (hshort : k + 1 < contiguousBlocksForHit g.slidingWindow g.blockSize true)
    (hne : g.alignment ≠ g.blockSize) :
    (findLongestCacheHit g cached hashes maxLength true).2 < k * g.blockSize := by
  have hedge : EdgeAligned g true (k + 1) := hk
  have honly : (search g cached hashes maxLength true).found = false ∧
      (search g cached hashes maxLength true).run = k + 1 := by
    have := searchLoop_only (g := g) (List.replicate (maxLength / g.blockSize) .null) hcached hedge
      hshort
    rw [Nat.sub_eq_zero_of_le hmax] at this
    exact this
  obtain ⟨hf, hrun⟩ := honly
  have hbound := ((search_spec g cached hashes maxLength true).short hf).bound
  have hpopped : ((search g cached hashes maxLength true).matched g).length = k := by
    rw [matched_of_not_found hf, length_popUnaligned, List.length_take, hrun,
      Nat.min_eq_left (by omega)]
    exact alignedBlocks_succ_of_dvd hk hne
  have hnonempty : ((search g cached hashes maxLength true).matched g).isEmpty = false := by
    rw [List.isEmpty_eq_false_iff, ← List.length_pos_iff]
    omega
  apply Nat.mul_lt_mul_of_pos_right _ g.blockSize_pos
  unfold dropEagleBlock
  rw [hnonempty]
  calc (popUnaligned g ((search g cached hashes maxLength true).matched g).dropLast).length
      = alignedBlocks g (((search g cached hashes maxLength true).matched g).dropLast).length :=
        length_popUnaligned _
    _ ≤ (((search g cached hashes maxLength true).matched g).dropLast).length :=
        alignedBlocks_le _
    _ = k - 1 := by rw [List.length_dropLast, hpopped]
    _ < k := by omega

end Lookup

/-! ### The checkpoints at block `0` -/

section Clamped

variable {τ : Type*} {chain : Option H → List τ → H} {toks : List τ} {blocks : List (Block H)}
  {C : ℕ}

/-- A reported checkpoint is one of the boundaries. -/
theorem mem_boundaries_of_reported {hits : List ℕ} {final : List (Block H)}
    (hcall : swaFinalCacheOf g chain toks blocks C = .ok (hits, final)) {hit : ℕ}
    (hmem : hit ∈ hits) :
    hit ∈ g.boundaries (min C (blocks.length * g.blockSize)) toks.length := by
  unfold swaFinalCacheOf at hcall
  generalize htails : g.finalTails toks.length blocks C = tails at hcall
  rw [swaFinalCacheWith_call _ _ _ _ _ htails.symm] at hcall
  -- either way the reported checkpoints are those of the final tails
  have hhits : hits = tails.map Tail.hit := by
    split at hcall
    · generalize cacheFullBlocksOf _ _ _ _ _ = result at hcall
      cases result with
      | error e => cases hcall
      | ok table =>
        cases hcall
        rfl
    · cases hcall
      rfl
  subst hhits
  obtain ⟨t, ht, rfl⟩ := List.mem_map.mp hmem
  obtain ⟨hit, hhit, rfl, -⟩ := mem_finalTails.mp (htails ▸ ht)
  exact hhit

end Clamped

/-- A tail shorter than a hit needs is cut at block `0`. -/
theorem tailOf_of_clamped {k : ℕ} (hclamp : (g.tailOf (k * g.blockSize)).stop
      < contiguousBlocksForHit g.slidingWindow g.blockSize g.useEagle) :
    g.tailOf (k * g.blockSize)
      = ⟨k * g.blockSize, 0, k + if g.useEagle then 1 else 0⟩ := by
  unfold SwaGroup.tailOf at hclamp ⊢
  rw [Nat.mul_div_cancel _ g.blockSize_pos] at hclamp ⊢
  dsimp only at hclamp ⊢
  rw [Nat.sub_eq_zero_of_le (Nat.le_of_lt hclamp)]

/-- **When a checkpoint cut at block `0` is found again.** A reported checkpoint whose
tail is shorter than the blocks a hit needs, looked up with only this tail cached: the
lookup returns a hit of at least the checkpoint exactly when it drops no EAGLE block, or
when a block is as long as the alignment. -/
theorem clamped_tail_hit_iff {τ : Type*} (g : SwaGroup) (chain : Option H → List τ → H)
    (toks : List τ) (blocks : List (Block H)) (C : ℕ) {hits : List ℕ} {final : List (Block H)}
    (hcall : swaFinalCacheOf g chain toks blocks C = .ok (hits, final)) {hit : ℕ}
    (hmem : hit ∈ hits)
    (hclamp : (g.tailOf hit).stop
      < contiguousBlocksForHit g.slidingWindow g.blockSize g.useEagle)
    {cached : H → Bool} {maxLength : ℕ}
    (hcached : ∀ i < maxLength / g.blockSize,
      cached (hashesOf g chain toks i) = (g.tailOf hit).contains i)
    (hmax : hit + g.peek ≤ maxLength) {dropEagle : Bool}
    (hdrop : dropEagle = true → g.useEagle = true) :
    hit ≤ (findLongestCacheHit g cached (hashesOf g chain toks) maxLength dropEagle).2 ↔
      dropEagle = false ∨ g.alignment = g.blockSize := by
  obtain ⟨haligned, hle, -⟩ := complete_of_mem (mem_boundaries_of_reported hcall hmem)
  obtain ⟨k, hk⟩ := g.blockSize_dvd.trans haligned
  rw [Nat.mul_comm] at hk
  subst hk
  have hpos : 0 < k := Nat.pos_of_mul_pos_right (Nat.lt_of_lt_of_le g.alignment_pos hle)
  have hstopmul := tailOf_stop_mul haligned
  have htail := tailOf_of_clamped hclamp
  rw [htail] at hclamp hcached hstopmul
  have hblocks : k + (if g.useEagle then 1 else 0) ≤ maxLength / g.blockSize :=
    (Nat.le_div_iff_mul_le g.blockSize_pos).mpr (hstopmul ▸ hmax)
  have hin : ∀ i < maxLength / g.blockSize, cached (hashesOf g chain toks i)
      = decide (i < k + if g.useEagle then 1 else 0) := by
    intro i hi
    rw [hcached i hi]
    simp [Tail.contains]
  -- the lookup may keep the peek block, but it drops none that the tail lacks
  have hshift : (if dropEagle then 1 else 0) ≤ if g.useEagle then 1 else 0 := by
    cases dropEagle with
    | false => exact Nat.zero_le _
    | true =>
      rw [hdrop rfl]
  constructor
  · intro hhit
    by_contra hcond
    rw [not_or, Bool.not_eq_false] at hcond
    obtain ⟨rfl, hne⟩ := hcond
    have heagle := hdrop rfl
    rw [heagle] at hin hblocks hclamp
    -- aligned, dropped and aligned again: the run loses a whole alignment
    have := findLongestCacheHit_short_lt haligned hpos hin hblocks hclamp hne
    omega
  · intro hcond
    -- the run up to the checkpoint's edge is enough, so aligning it changes nothing
    have hedge : EdgeAligned g dropEagle (k + if dropEagle then 1 else 0) := by
      unfold EdgeAligned
      rwa [Nat.add_sub_cancel]
    have hrun : ∀ j < k + (if dropEagle then 1 else 0),
        cached (hashesOf g chain toks j) = true := by
      intro j hj
      rw [hin j (by omega)]
      exact decide_eq_true (by omega)
    have hend : k + (if dropEagle then 1 else 0) ≤ maxLength / g.blockSize := by omega
    have hreach := le_findLongestCacheHit_short hrun hedge hend hcond
    rwa [Nat.add_sub_cancel] at hreach

/-- A window of five tokens in blocks of one token, hits in steps of two, with EAGLE. -/
def cutGroup : SwaGroup :=
  ⟨5, 1, 2, true, 0, 0, by decide, Nat.one_pos, Nat.two_pos, Nat.one_dvd 2⟩

/-- A request of three tokens leaves checkpoint `2`, whose tail is all its blocks. -/
theorem cut_reported :
    swaFinalCacheOf cutGroup (fun p l => p.getD [] ++ l) [1, 2, 3]
        (List.replicate 3 (.alloc none)) 3
      = .ok ([2], [.alloc (some [1]), .alloc (some [1, 2]), .alloc (some [1, 2, 3])]) := by
  decide

theorem clamped_tail_hit_iff_cut :
    2 ≤ (findLongestCacheHit cutGroup (fun h => decide (h ∈ [[1], [1, 2], [1, 2, 3]]))
        (hashesOf cutGroup (fun p l => p.getD [] ++ l) [1, 2, 3]) 3 true).2 ↔
      true = false ∨ 2 = 1 :=
  clamped_tail_hit_iff cutGroup (fun p l => p.getD [] ++ l) [1, 2, 3] _ 3 cut_reported
    (by decide) (by decide) (by decide) (by decide) (fun _ => rfl)

/-- **It is not found again**: with its three hashed blocks in the cache, the lookup of the
same tokens returns no block. -/
theorem clamped_tail_not_found :
    (∃ final, swaFinalCacheOf cutGroup (fun p l => p.getD [] ++ l) [1, 2, 3]
        (List.replicate 3 (.alloc none)) 3 = .ok ([2], final)) ∧
    cutGroup.tailOf 2 = ⟨2, 0, 3⟩ ∧ 3 < contiguousBlocksForHit 5 1 true ∧
    2 + cutGroup.peek ≤ 3 ∧
    (findLongestCacheHit cutGroup (fun h => decide (h ∈ [[1], [1, 2], [1, 2, 3]]))
      (hashesOf cutGroup (fun p l => p.getD [] ++ l) [1, 2, 3]) 3 true).2 = 0 := by
  refine ⟨⟨_, cut_reported⟩, by decide, by decide, by decide, by decide⟩

end SwaFinal
end Dsv41Overlay
