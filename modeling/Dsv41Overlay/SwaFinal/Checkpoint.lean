import Mathlib.Data.List.Sort
import Mathlib.Data.List.Dedup
import Mathlib.Data.List.GetD
import Dsv41Overlay.Lib.Floor
import Dsv41Overlay.SwaFinal.Hit

/-!
# The final checkpoints of a freed request

When a request is freed after `C` computed tokens, the overlay hashes the
window tails of up to two checkpoints: the newest one the computed blocks
complete, and under YOCO the newest one a continuation of the `T` tokens can
still use. `swaFinalBoundaries` computes them, `swaFinalCache` hashes their
tails.

`swaFinalCache_eq` is the closed form: the call never fails, it reports the
boundaries whose tail holds no null block, and the table afterwards is the one
before with the hashes of these tails inserted.
-/

namespace Dsv41Overlay
namespace SwaFinal

/-! ### The boundaries -/

/-- `_dsv41_swa_final_boundaries`: the hit lengths a freed request leaves. -/
def swaFinalBoundaries (numComputed numTokens blockSize alignment : ℕ) (useEagle : Bool)
    (keep : ℕ) : List ℕ :=
  let peek : ℤ := if useEagle then blockSize else 0
  let full : ℤ := (numComputed / blockSize * blockSize : ℕ)
  -- the newest checkpoint that the computed blocks complete
  let hits : List ℤ := [(full - peek) / alignment * alignment]
  -- the newest one that a continuation may still use under YOCO
  let hits :=
    if keep = 0 then hits else hits ++ [((numTokens : ℤ) - keep - peek) / alignment * alignment]
  let complete := hits.dedup.filter fun h => decide ((alignment : ℤ) ≤ h ∧ h + peek ≤ full)
  (complete.insertionSort (· ≤ ·)).map Int.toNat

namespace SwaGroup

variable (g : SwaGroup)

/-- The tokens of the block EAGLE drops. -/
def peek : ℕ := if g.useEagle then g.blockSize else 0

/-- The boundaries of the group. -/
def boundaries (numComputed numTokens : ℕ) : List ℕ :=
  swaFinalBoundaries numComputed numTokens g.blockSize g.alignment g.useEagle g.keep

end SwaGroup

/-- What every boundary satisfies: it is aligned, its blocks and the EAGLE block
are complete, and it lags the computed tokens by a bounded amount. -/
structure IsBoundary (g : SwaGroup) (numComputed hit : ℕ) : Prop where
  aligned : g.alignment ∣ hit
  alignment_le : g.alignment ≤ hit
  complete : hit + g.peek ≤ numComputed / g.blockSize * g.blockSize
  lag : numComputed + 1 < hit + g.alignment + 2 * g.blockSize + g.keep

section Boundaries

variable {g : SwaGroup} {numComputed numTokens hit : ℕ}

/-- Membership, over the integers of the source. -/
theorem mem_boundaries :
    hit ∈ g.boundaries numComputed numTokens ↔
      ∃ h : ℤ, (h = ((numComputed / g.blockSize * g.blockSize : ℕ) - (g.peek : ℤ))
              / g.alignment * g.alignment ∨
            g.keep ≠ 0 ∧ h = ((numTokens : ℤ) - g.keep - g.peek) / g.alignment * g.alignment) ∧
        (g.alignment : ℤ) ≤ h ∧ h + g.peek ≤ (numComputed / g.blockSize * g.blockSize : ℕ) ∧
        h.toNat = hit := by
  -- the block that EAGLE drops
  have hpeek : (if g.useEagle then (g.blockSize : ℤ) else 0) = (g.peek : ℤ) := by
    unfold SwaGroup.peek
    split <;> rfl
  unfold SwaGroup.boundaries swaFinalBoundaries
  simp only [hpeek]
  rw [List.mem_map]
  refine exists_congr fun h => ?_
  rw [List.mem_insertionSort, List.mem_filter, List.mem_dedup, decide_eq_true_eq, and_assoc,
    and_assoc]
  refine and_congr_left fun _ => ?_
  split
  · next hk => simp [hk]
  · next hk => simp [hk]

/-- Whatever the counts, a boundary is aligned and its blocks are complete. -/
theorem complete_of_mem (h : hit ∈ g.boundaries numComputed numTokens) :
    g.alignment ∣ hit ∧ g.alignment ≤ hit ∧
      hit + g.peek ≤ numComputed / g.blockSize * g.blockSize := by
  obtain ⟨z, hz, hlo, hfull, rfl⟩ := mem_boundaries.mp h
  have hz0 : (0 : ℤ) ≤ z := le_trans (by exact_mod_cast Nat.zero_le _) hlo
  have hbound : z.toNat = z := Int.toNat_of_nonneg hz0
  have hdvd : (g.alignment : ℤ) ∣ z := by
    obtain rfl | ⟨-, rfl⟩ := hz
    · exact Floor.dvd _ _
    · exact Floor.dvd _ _
  refine ⟨?_, by omega, by omega⟩
  rw [← Int.natCast_dvd_natCast, hbound]
  exact hdvd

/-- **Every boundary is a complete aligned prefix close to the end.** -/
theorem isBoundary_of_mem (hT : numComputed ≤ numTokens)
    (h : hit ∈ g.boundaries numComputed numTokens) : IsBoundary g numComputed hit := by
  obtain ⟨haligned, hle, hcomplete⟩ := complete_of_mem h
  obtain ⟨z, hz, hlo, -, rfl⟩ := mem_boundaries.mp h
  have hpeek : g.peek ≤ g.blockSize := by
    unfold SwaGroup.peek
    split
    · exact le_rfl
    · exact Nat.zero_le _
  have hmod := Nat.div_add_mod numComputed g.blockSize
  rw [Nat.mul_comm] at hmod
  have hlt := Nat.mod_lt numComputed g.blockSize_pos
  have hbs := g.blockSize_pos
  have halign : (0 : ℤ) < g.alignment := by exact_mod_cast g.alignment_pos
  refine ⟨haligned, hle, hcomplete, ?_⟩
  -- both candidates round a number not far below `numComputed` down to the alignment
  obtain rfl | ⟨-, rfl⟩ := hz
  · have := Floor.sub_lt halign ((numComputed / g.blockSize * g.blockSize : ℕ) - (g.peek : ℤ))
    omega
  · have := Floor.sub_lt halign ((numTokens : ℤ) - g.keep - g.peek)
    omega

end Boundaries

/-! ### The tails -/

/-- The blocks `[start, stop)` a checkpoint needs. -/
structure Tail where
  hit : ℕ
  start : ℕ
  stop : ℕ
deriving Repr, DecidableEq

namespace Tail

/-- The block indices of the tail. -/
def indices (t : Tail) : List ℕ := List.range' t.start (t.stop - t.start)

/-- Block `i` belongs to the tail. -/
def contains (t : Tail) (i : ℕ) : Bool := decide (t.start ≤ i ∧ i < t.stop)

theorem mem_indices {t : Tail} {i : ℕ} : i ∈ t.indices ↔ t.contains i = true := by
  rw [indices, contains, List.mem_range'_1, decide_eq_true_eq]
  omega

end Tail

/-- The tail of a checkpoint: the window's blocks below it and the EAGLE block
above it, as far as they exist. -/
def SwaGroup.tailOf (g : SwaGroup) (hit : ℕ) : Tail :=
  let need := contiguousBlocksForHit g.slidingWindow g.blockSize g.useEagle
  let stop := hit / g.blockSize + if g.useEagle then 1 else 0
  { hit := hit, start := stop - need, stop := stop }

section Cache

variable {H : Type*}

/-- `any(blocks[i].is_null for i in ...)`. -/
def anyNull (blocks : List (Block H)) : List ℕ → Except String Bool
  | [] => .ok false
  | i :: rest =>
    match blocks[i]? with
    | none => .error "IndexError"
    | some b => if b.isNull then .ok true else anyNull blocks rest

/-- The loop over the boundaries: keep those whose tail has no null block. -/
def usableTails (g : SwaGroup) (blocks : List (Block H)) : List ℕ → Except String (List Tail)
  | [] => .ok []
  | hit :: hits =>
    match anyNull blocks (g.tailOf hit).indices with
    | .error e => .error e
    | .ok true => usableTails g blocks hits
    | .ok false => (g.tailOf hit :: ·) <$> usableTails g blocks hits

/-- The mask over `[lo, hi)`: the unhashed blocks of the tails. -/
def tailMask (blocks : List (Block H)) (lo hi : ℕ) (tails : List Tail) : List Bool :=
  tails.foldl
    (fun mask t => t.indices.foldl
      (fun mask i => mask.set (i - lo) (blocks.getD i .null).unhashed) mask)
    (List.replicate (hi - lo) false)

/-- `min(s for s, _ in spans)`. -/
def lowest (tails : List Tail) : ℕ := (tails.map Tail.start).min?.getD 0

/-- `max(e for _, e in spans)`. -/
def highest (tails : List Tail) : ℕ := (tails.map Tail.stop).max?.getD 0

/-- `_dsv41_swa_final_cache`: hash the tails of the final checkpoints, whatever
`block_pool.cache_full_blocks` does with the table, the range and the mask. Returns
the checkpoints and the block table. -/
def swaFinalCacheWith (cacheFull : List (Block H) → ℕ → ℕ → List Bool →
    Except String (List (Block H))) (g : SwaGroup) (numTokens : ℕ) (blocks : List (Block H))
    (numComputed : ℕ) : Except String (List ℕ × List (Block H)) :=
  if blocks.isEmpty then .ok ([], blocks)
  else
    let numComputed := min numComputed (blocks.length * g.blockSize)
    -- a freed block or null padding in a tail rules the checkpoint out
    match usableTails g blocks (g.boundaries numComputed numTokens) with
    | .error e => .error e
    | .ok [] => .ok ([], blocks)
    | .ok (t :: ts) =>
      let lo := lowest (t :: ts)
      let hi := highest (t :: ts)
      let mask := tailMask blocks lo hi (t :: ts)
      if mask.any id then
        (fun blocks => ((t :: ts).map Tail.hit, blocks)) <$> cacheFull blocks lo hi mask
      else .ok ((t :: ts).map Tail.hit, blocks)

/-- `_dsv41_swa_final_cache` of a request with a hash for every block. -/
def swaFinalCache (g : SwaGroup) (hashes : ℕ → H) (numTokens : ℕ) (blocks : List (Block H))
    (numComputed : ℕ) : Except String (List ℕ × List (Block H)) :=
  swaFinalCacheWith (cacheFullBlocks hashes) g numTokens blocks numComputed

end Cache

/-! ### The closed form -/

section ClosedForm

variable {H : Type*} {g : SwaGroup} {blocks : List (Block H)}

/-- No block of the tail is null. -/
def Tail.usable (blocks : List (Block H)) (t : Tail) : Bool :=
  t.indices.all fun i => !(blocks.getD i .null).isNull

theorem anyNull_eq {indices : List ℕ} (h : ∀ i ∈ indices, i < blocks.length) :
    anyNull blocks indices = .ok (!indices.all fun i => !(blocks.getD i .null).isNull) := by
  induction indices with
  | nil => rfl
  | cons i rest ih =>
    have hi := h i (List.mem_cons_self ..)
    unfold anyNull
    rw [List.getElem?_eq_getElem hi, List.all_cons, List.getD_eq_getElem _ _ hi]
    dsimp only
    -- the search stops at the first null block
    cases hb : blocks[i].isNull with
    | true => simp
    | false => simp [ih fun j hj => h j (List.mem_cons_of_mem _ hj)]

/-- The loop keeps the usable tails, provided all of them lie in the table. -/
theorem usableTails_eq {hits : List ℕ} (h : ∀ hit ∈ hits, (g.tailOf hit).stop ≤ blocks.length) :
    usableTails g blocks hits = .ok ((hits.map g.tailOf).filter (·.usable blocks)) := by
  induction hits with
  | nil => rfl
  | cons hit hits ih =>
    have hstop := h hit (List.mem_cons_self ..)
    have hinside : ∀ i ∈ (g.tailOf hit).indices, i < blocks.length := by
      -- every block that is read exists
      intro i hi
      rw [Tail.mem_indices, Tail.contains, decide_eq_true_eq] at hi
      omega
    have hrest := ih fun k hk => h k (List.mem_cons_of_mem _ hk)
    unfold usableTails
    rw [anyNull_eq hinside, List.map_cons, List.filter_cons, Tail.usable]
    cases (g.tailOf hit).indices.all fun i => !(blocks.getD i .null).isNull with
    | true => simp [hrest, Functor.map, Except.map]
    | false => simp [hrest]

/-- Writing a mask at the positions of a list of indices. -/
theorem getD_foldl_set (f : ℕ → Bool) {lo k : ℕ} {indices : List ℕ} {mask : List Bool}
    (hlo : ∀ i ∈ indices, lo ≤ i) (hk : k < mask.length) :
    (indices.foldl (fun mask i => mask.set (i - lo) (f i)) mask).getD k false
      = if lo + k ∈ indices then f (lo + k) else mask.getD k false := by
  induction indices generalizing mask with
  | nil => simp
  | cons i rest ih =>
    have hi := hlo i (List.mem_cons_self ..)
    rw [List.foldl_cons, ih (fun j hj => hlo j (List.mem_cons_of_mem _ hj))
      (by rwa [List.length_set])]
    -- a later write at this place wins; else this one counts
    by_cases hmem : lo + k ∈ rest
    · rw [if_pos hmem, if_pos (List.mem_cons_of_mem _ hmem)]
    · rw [if_neg hmem, List.getD_eq_getElem?_getD, List.getElem?_set]
      by_cases hik : i - lo = k
      · obtain rfl : i = lo + k := by omega
        rw [if_pos hik, if_pos (by omega), if_pos (List.mem_cons_self ..), Option.getD_some]
      · have hne : ¬ lo + k ∈ i :: rest := by
          rw [List.mem_cons, not_or]
          exact ⟨fun h => hik (by omega), hmem⟩
        rw [if_neg hik, if_neg hne, List.getD_eq_getElem?_getD]

theorem length_foldl_set (f : ℕ → Bool) (lo : ℕ) (indices : List ℕ) (mask : List Bool) :
    (indices.foldl (fun mask i => mask.set (i - lo) (f i)) mask).length = mask.length := by
  induction indices generalizing mask with
  | nil => rfl
  | cons i rest ih => rw [List.foldl_cons, ih, List.length_set]

/-- The mask written tail by tail is written index by index. -/
theorem tailMask_eq (lo hi : ℕ) (tails : List Tail) :
    tailMask blocks lo hi tails = (tails.flatMap Tail.indices).foldl
      (fun mask i => mask.set (i - lo) (blocks.getD i .null).unhashed)
      (List.replicate (hi - lo) false) := by
  rw [List.foldl_flatMap]
  rfl

theorem length_tailMask (lo hi : ℕ) (tails : List Tail) :
    (tailMask blocks lo hi tails).length = hi - lo := by
  rw [tailMask_eq, length_foldl_set (fun i => (blocks.getD i .null).unhashed),
    List.length_replicate]

/-- **The mask selects the unhashed blocks of the tails.** -/
theorem getD_tailMask {lo hi : ℕ} {tails : List Tail} (hlo : ∀ t ∈ tails, lo ≤ t.start)
    (hhi : ∀ t ∈ tails, t.stop ≤ hi) (k : ℕ) :
    (tailMask blocks lo hi tails).getD k false
      = (tails.any (·.contains (lo + k)) && (blocks.getD (lo + k) .null).unhashed) := by
  -- a place is selected when some tail covers it
  have hmem : lo + k ∈ tails.flatMap Tail.indices ↔ tails.any (·.contains (lo + k)) = true := by
    rw [List.mem_flatMap, List.any_eq_true]
    exact exists_congr fun t => and_congr_right fun _ => Tail.mem_indices
  by_cases hk : hi - lo ≤ k
  · -- past the mask: no tail reaches there
    have hin : tails.any (·.contains (lo + k)) = false := by
      refine List.any_eq_false.mpr fun t ht => ?_
      have := hhi t ht
      rw [Tail.contains, decide_eq_true_eq]
      omega
    rw [hin, Bool.false_and, List.getD_eq_getElem?_getD,
      List.getElem?_eq_none (by rw [length_tailMask]; exact hk), Option.getD_none]
  rw [Nat.not_le] at hk
  rw [tailMask_eq, getD_foldl_set (fun i => (blocks.getD i .null).unhashed)]
  · by_cases h : tails.any (·.contains (lo + k)) = true
    · rw [if_pos (hmem.mpr h), h, Bool.true_and]
    · rw [if_neg (mt hmem.mp h), Bool.eq_false_of_not_eq_true h, Bool.false_and,
        List.getD_eq_getElem?_getD, List.getElem?_replicate_of_lt hk, Option.getD_some]
  · intro i hi
    rw [List.mem_flatMap] at hi
    obtain ⟨t, ht, hi⟩ := hi
    rw [Tail.mem_indices, Tail.contains, decide_eq_true_eq] at hi
    exact (hlo t ht).trans hi.1
  · rwa [List.length_replicate]

/-- The tails `swaFinalCache` hashes. -/
def SwaGroup.finalTails (g : SwaGroup) (numTokens : ℕ) (blocks : List (Block H))
    (numComputed : ℕ) : List Tail :=
  ((g.boundaries (min numComputed (blocks.length * g.blockSize)) numTokens).map g.tailOf).filter
    (·.usable blocks)

/-- The tail of a checkpoint ends with its blocks, EAGLE's included. -/
theorem tailOf_stop_mul {hit : ℕ} (haligned : g.alignment ∣ hit) :
    (g.tailOf hit).stop * g.blockSize = hit + g.peek := by
  obtain ⟨k, rfl⟩ := g.blockSize_dvd.trans haligned
  unfold SwaGroup.tailOf SwaGroup.peek
  dsimp only
  rw [Nat.mul_div_cancel_left _ g.blockSize_pos]
  split
  · ring
  · ring

/-- A checkpoint that a table's tokens complete has its whole tail inside the table. -/
theorem tailOf_stop_le {numComputed hit : ℕ} (haligned : g.alignment ∣ hit)
    (hcomplete : hit + g.peek ≤ numComputed / g.blockSize * g.blockSize)
    (hlen : numComputed ≤ blocks.length * g.blockSize) :
    (g.tailOf hit).stop ≤ blocks.length := by
  refine Nat.le_of_mul_le_mul_right ?_ g.blockSize_pos
  rw [tailOf_stop_mul haligned]
  exact hcomplete.trans ((Nat.div_mul_le_self _ _).trans hlen)

theorem lowest_le {tails : List Tail} {t : Tail} (ht : t ∈ tails) : lowest tails ≤ t.start :=
  List.min?_getD_le_of_mem (List.mem_map_of_mem ht)

theorem le_highest {tails : List Tail} {t : Tail} (ht : t ∈ tails) : t.stop ≤ highest tails :=
  List.le_max?_getD_of_mem (List.mem_map_of_mem ht)

theorem highest_le {tails : List Tail} {n : ℕ} (h : ∀ t ∈ tails, t.stop ≤ n) :
    highest tails ≤ n := by
  unfold highest
  cases hmax : (tails.map Tail.stop).max? with
  | none => exact Nat.zero_le _
  | some m =>
    obtain ⟨t, ht, rfl⟩ := List.mem_map.mp (List.max?_mem hmax)
    exact h t ht

/-- A mask without a selected entry. -/
theorem getD_of_any_eq_false {mask : List Bool} (h : mask.any id = false) (k : ℕ) :
    mask.getD k false = false := by
  rw [List.getD_eq_getElem?_getD]
  cases hk : mask[k]? with
  | none => rfl
  | some m =>
    have := List.any_eq_false.mp h m (List.mem_of_getElem? hk)
    exact Bool.eq_false_of_not_eq_true this

/-- A tail that is selected block by block through the mask is hashed whole. -/
theorem hashSelected_tailMask {hashes : ℕ → H} {lo hi : ℕ} {tails : List Tail}
    (hlo : ∀ t ∈ tails, lo ≤ t.start) (hhi : ∀ t ∈ tails, t.stop ≤ hi) :
    hashSelected hashes
        (fun i => decide (lo ≤ i) && (tailMask blocks lo hi tails).getD (i - lo) false) blocks
      = hashSelected hashes (fun i => tails.any (·.contains i)) blocks := by
  refine List.ext_getElem? fun i => ?_
  rw [getElem?_hashSelected, getElem?_hashSelected]
  cases hb : blocks[i]? with
  | none => rfl
  | some b =>
    have hget : blocks.getD i .null = b := by
      rw [List.getD_eq_getElem?_getD, hb, Option.getD_some]
    rw [Option.map_some, Option.map_some]
    refine congrArg some ?_
    -- in the range of the mask, or before it
    by_cases hi : lo ≤ i
    · obtain ⟨k, rfl⟩ := Nat.exists_eq_add_of_le hi
      rw [Nat.add_sub_cancel_left, getD_tailMask hlo hhi, hget, decide_eq_true hi, Bool.true_and]
      cases tails.any (·.contains (lo + k)) with
      | false => rfl
      | true =>
        -- a block that already has a hash keeps it
        cases b with
        | null => rfl
        | alloc h => cases h <;> rfl
    · have hin : tails.any (·.contains i) = false := by
        refine List.any_eq_false.mpr fun t ht => ?_
        have := hlo t ht
        rw [Tail.contains, decide_eq_true_eq]
        omega
      rw [decide_eq_false hi, Bool.false_and, hin]

/-- Every boundary of a table's tokens has its tail inside the table. -/
theorem boundary_stop_le {numTokens numComputed hit : ℕ}
    (hhit : hit ∈ g.boundaries (min numComputed (blocks.length * g.blockSize)) numTokens) :
    (g.tailOf hit).stop ≤ blocks.length := by
  obtain ⟨haligned, -, hcomplete⟩ := complete_of_mem hhit
  exact tailOf_stop_le haligned hcomplete (Nat.min_le_right _ _)

theorem mem_finalTails {numTokens numComputed : ℕ} {t : Tail} :
    t ∈ g.finalTails numTokens blocks numComputed ↔
      ∃ hit ∈ g.boundaries (min numComputed (blocks.length * g.blockSize)) numTokens,
        g.tailOf hit = t ∧ t.usable blocks = true := by
  unfold SwaGroup.finalTails
  rw [List.mem_filter, List.mem_map]
  constructor
  · rintro ⟨⟨hit, hhit, rfl⟩, husable⟩
    exact ⟨hit, hhit, rfl, husable⟩
  · rintro ⟨hit, hhit, rfl, husable⟩
    exact ⟨⟨hit, hhit, rfl⟩, husable⟩

theorem finalTail_stop_le {numTokens numComputed : ℕ} {t : Tail}
    (ht : t ∈ g.finalTails numTokens blocks numComputed) : t.stop ≤ blocks.length := by
  obtain ⟨hit, hhit, rfl, -⟩ := mem_finalTails.mp ht
  exact boundary_stop_le hhit

/-- An empty table completes no checkpoint. -/
theorem finalTails_nil (g : SwaGroup) (numTokens numComputed : ℕ) :
    g.finalTails numTokens ([] : List (Block H)) numComputed = [] := by
  apply List.eq_nil_iff_forall_not_mem.mpr
  intro t ht
  obtain ⟨hit, hhit, rfl, -⟩ := mem_finalTails.mp ht
  obtain ⟨-, hle, hcomplete⟩ := complete_of_mem hhit
  have hpos := g.alignment_pos
  rw [List.length_nil, Nat.zero_mul, Nat.min_zero, Nat.zero_div, Nat.zero_mul] at hcomplete
  omega

section Call

variable (cacheFull : List (Block H) → ℕ → ℕ → List Bool → Except String (List (Block H)))

/-- **The call of `cache_full_blocks`.** Every index lies in the table, so the hook finds
the usable tails and hands their hull to the block pool, unless nothing is left to hash. -/
theorem swaFinalCacheWith_call (g : SwaGroup) (numTokens : ℕ) (blocks : List (Block H))
    (numComputed : ℕ) {tails : List Tail}
    (htails : tails = g.finalTails numTokens blocks numComputed) :
    swaFinalCacheWith cacheFull g numTokens blocks numComputed
      = if (tailMask blocks (lowest tails) (highest tails) tails).any id then
          (fun blocks => (tails.map Tail.hit, blocks)) <$>
            cacheFull blocks (lowest tails) (highest tails)
              (tailMask blocks (lowest tails) (highest tails) tails)
        else .ok (tails.map Tail.hit, blocks) := by
  unfold swaFinalCacheWith
  split
  · next hempty =>
    rw [List.isEmpty_iff] at hempty
    subst hempty
    rw [finalTails_nil] at htails
    subst htails
    rfl
  · dsimp only
    rw [usableTails_eq fun hit hhit => boundary_stop_le hhit]
    change (match (Except.ok (g.finalTails numTokens blocks numComputed) :
      Except String (List Tail)) with | .error e => _ | .ok [] => _ | .ok (t :: ts) => _) = _
    rw [← htails]
    cases tails with
    | nil => rfl
    | cons t ts => rfl

end Call

/-- **What the free hook does to one group.** It never fails, reports the
boundaries whose tail has no null block, and hashes exactly their tails. -/
theorem swaFinalCache_eq (g : SwaGroup) (hashes : ℕ → H) (numTokens : ℕ)
    (blocks : List (Block H)) (numComputed : ℕ) :
    swaFinalCache g hashes numTokens blocks numComputed
      = .ok ((g.finalTails numTokens blocks numComputed).map Tail.hit,
          hashSelected hashes
            (fun i => (g.finalTails numTokens blocks numComputed).any (·.contains i)) blocks) := by
  generalize htails : g.finalTails numTokens blocks numComputed = tails
  have hstop : ∀ t ∈ tails, t.stop ≤ blocks.length := by
    intro t ht
    exact finalTail_stop_le (htails ▸ ht)
  have hselected := @hashSelected_tailMask H blocks hashes _ _ tails
    (fun _ => lowest_le) (fun _ => le_highest)
  unfold swaFinalCache
  rw [swaFinalCacheWith_call _ _ _ _ _ htails.symm]
  by_cases hany : (tailMask blocks (lowest tails) (highest tails) tails).any id = true
  · rw [if_pos hany, cacheFullBlocks_eq (length_tailMask _ _ _) (highest_le hstop), hselected]
    · rfl
    · intro k b hb hm
      rw [getD_tailMask (fun _ => lowest_le) (fun _ => le_highest), Bool.and_eq_true,
        List.getD_eq_getElem?_getD, hb, Option.getD_some] at hm
      exact hm.2
  · -- an empty mask: every tail was hashed before
    rw [if_neg hany, ← hselected]
    refine congrArg (fun l => Except.ok (_, l)) (List.ext_getElem? fun i => ?_)
    rw [getElem?_hashSelected,
      getD_of_any_eq_false (Bool.eq_false_of_not_eq_true hany), Bool.and_false]
    simp

end ClosedForm

end SwaFinal
end Dsv41Overlay
