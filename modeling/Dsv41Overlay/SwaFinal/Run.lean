import Dsv41Overlay.Lib.System
import Dsv41Overlay.SwaFinal.Checkpoint

/-!
# The hold keeps the final checkpoints

A request runs from its prefix-cache hit to its free. `requestRun` has a step
for each thing the engine does in between: schedule tokens and allocate their
slots, process a step and reject some of its drafts, free the blocks below the
window, hash full blocks. Blocks are freed on processed counts, which never
exceed the count `C` at the free.

The invariant `RunInv` bounds where a null block can be: below the window of
`C`, lowered by the hold, or below the window of the hit the request started
from. The hold is the largest lag of a checkpoint behind `C`, so a checkpoint's
tail lies above both (`RunInv.tail_alloc`). Then `swaFinalCache` hashes it, and
a later lookup finds it.

A lookup only reports a prefix if it finds at least one cached block. A window
of one token without EAGLE needs none, so no block is hashed and none found;
`unit_window_no_hit` is such a run.
-/

namespace Dsv41Overlay
namespace SwaFinal

/-! ### The run of a request -/

/-- The state of one request between two calls of the engine. -/
structure RunState (τ H : Type*) where
  blocks : List (Block H)
  /-- `request.all_token_ids`. -/
  toks : List τ
  numComputed : ℕ
  numInFlight : ℕ
  /-- `num_cached_block`. -/
  numCached : ℕ

/-- The calls of the engine on the request. -/
inductive RunLabel (τ : Type*)
  /-- Schedule `numNew` tokens, with slots up to `slotEnd`. -/
  | schedule (numNew slotEnd : ℕ)
  /-- Process `numTokens` tokens in flight: `rejected` drafts are taken back,
  `output` is appended to the request. -/
  | process (numTokens rejected : ℕ) (output : List τ)
  /-- `remove_skipped_blocks` on a processed count. -/
  | removeSkipped (processed : ℕ)
  /-- `cache_blocks` of the first `numTokens` tokens. -/
  | cache (numTokens : ℕ) (mask : List Bool)

section Run

variable {τ H : Type*} (g : SwaGroup) (chain : Option H → List τ → H)

/-- The hashes of a request's blocks. -/
abbrev hashesOf (toks : List τ) : ℕ → H := blockHash chain g.blockSize toks

/-- `cache_blocks` with the block mask `mask`: the table and `num_cached_block`
afterwards. -/
def cacheBlocks (s : RunState τ H) (numTokens : ℕ) (mask : List Bool) :
    Except String (RunState τ H) :=
  let numFull := numTokens / g.blockSize
  if numFull ≤ s.numCached then .ok s
  else
    match cacheFullBlocks (hashesOf g chain s.toks) s.blocks s.numCached numFull mask with
    | .error e => .error e
    | .ok blocks => .ok { s with blocks := blocks, numCached := numFull }

/-- One call of the engine. Processed counts stay at or below `C`, and only
tokens the request holds are cached. -/
inductive RunStep (C : ℕ) (s : RunState τ H) : RunLabel τ → RunState τ H → Prop
  | schedule {numNew slotEnd : ℕ} (hslot : s.numComputed + numNew ≤ slotEnd) :
    RunStep C s (.schedule numNew slotEnd)
      { s with
        blocks := allocateNewBlocks g slotEnd s.blocks
        numComputed := s.numComputed + numNew
        numInFlight := s.numInFlight + numNew }
  | process {numTokens rejected : ℕ} {output : List τ} (hin : numTokens ≤ s.numInFlight)
      (hrej : rejected ≤ numTokens) :
    RunStep C s (.process numTokens rejected output)
      { s with
        toks := s.toks ++ output
        numComputed := s.numComputed - rejected
        numInFlight := s.numInFlight - numTokens }
  | removeSkipped {processed : ℕ} (hp : processed ≤ C) :
    RunStep C s (.removeSkipped processed)
      { s with blocks := removeSkippedBlocks g processed s.blocks }
  | cache {numTokens : ℕ} {mask : List Bool} {s' : RunState τ H}
      (htoks : numTokens ≤ s.toks.length) (hslots : numTokens ≤ s.blocks.length * g.blockSize)
      (hmask : mask.length = numTokens / g.blockSize - s.numCached)
      (h : cacheBlocks g chain s numTokens mask = .ok s') :
    RunStep C s (.cache numTokens mask) s'

/-- The state after `add_local_computed_blocks` of a hit of `hit` tokens, looked
up in some prefix cache. -/
def RunInit (hit : ℕ) (s : RunState τ H) : Prop :=
  ∃ (cached : H → Bool) (maxLength : ℕ) (dropEagle : Bool) (newComputed : List (Block H)),
    (dropEagle = true → g.useEagle = true) ∧ maxLength ≤ s.toks.length ∧
    findLongestCacheHit g cached (hashesOf g chain s.toks) maxLength dropEagle
      = (newComputed, hit) ∧
    s.blocks = addLocalComputedBlocks g newComputed hit ∧
    s.numComputed = hit ∧ s.numInFlight = 0 ∧ s.numCached = s.blocks.length

/-- The run of a request from a hit of `hit` tokens to its free after `C`
computed tokens. -/
def requestRun (C hit : ℕ) : System (RunState τ H) (RunLabel τ) where
  init := RunInit g chain hit
  step := RunStep g chain C

end Run

/-! ### The invariant -/

section Invariant

variable {τ H : Type*} {g : SwaGroup} {chain : Option H → List τ → H} {C hit : ℕ}

/-- **The invariant of a run.** -/
structure RunInv (g : SwaGroup) (chain : Option H → List τ → H) (C hit : ℕ)
    (s : RunState τ H) : Prop where
  /-- The blocks cover the computed tokens. -/
  covered : s.numComputed ≤ s.blocks.length * g.blockSize
  /-- A null block has left the lowered window of `C`, or lies below the window
  of the initial hit. -/
  null_old : ∀ i, s.blocks[i]? = some .null →
    (i + 1) * g.blockSize + (g.slidingWindow - 1) + g.extraRetainedTokens ≤ C ∨
      i + g.windowBlocks < hit / g.blockSize
  /-- A hash is the hash of the request's own tokens. -/
  hashed : ∀ i h, s.blocks[i]? = some (.alloc (some h)) →
    h = hashesOf g chain s.toks i ∧ (i + 1) * g.blockSize ≤ s.toks.length
  /-- Blocks from `num_cached_block` on have no hash. -/
  uncached : ∀ i h, s.numCached ≤ i → s.blocks[i]? ≠ some (.alloc (some h))

/-- A block of the initial hit that was skipped lies below the hit's window. -/
theorem skipped_below_hit {i : ℕ}
    (h : (i + 1) * g.blockSize + (g.slidingWindow - 1) + g.extraRetainedTokens ≤ hit) :
    i + g.windowBlocks < hit / g.blockSize := by
  have hlag := g.lag_le_extraRetained
  have hpos := g.alignment_pos
  refine (Nat.le_div_iff_mul_le g.blockSize_pos).mpr ?_
  -- the hold is longer than a window of blocks
  have hmul : (i + g.windowBlocks + 1) * g.blockSize
      = (i + 1) * g.blockSize + g.windowBlocks * g.blockSize := by ring
  change (i + g.windowBlocks + 1) * g.blockSize ≤ hit
  rw [hmul]
  omega

theorem RunInv.init {s : RunState τ H} (h : RunInit g chain hit s) : RunInv g chain C hit s := by
  obtain ⟨cached, maxLength, dropEagle, newComputed, -, hmax, hfind, hblocks, hcomp, -, hcached⟩ :=
    h
  have hspec := findLongestCacheHit_spec g cached (hashesOf g chain s.toks) maxLength dropEagle
  have hle := findLongestCacheHit_le g cached (hashesOf g chain s.toks) maxLength dropEagle
  rw [hfind] at hspec hle
  dsimp only at hspec hle
  have hlen := length_addLocalComputedBlocks (g := g) hspec.length_eq
  have hdiv : hit / g.blockSize = newComputed.length := by
    rw [← hspec.length_eq, Nat.mul_div_cancel _ g.blockSize_pos]
  -- the four clauses, in order
  refine ⟨?_, fun i hi => ?_, fun i h hi => ?_, fun i h hi => ?_⟩
  · rw [hcomp, hblocks, hlen, hspec.length_eq]
  · rw [hblocks] at hi
    obtain hi | ⟨-, hi⟩ := getElem?_addLocalComputedBlocks hi
    · exact Or.inr (hdiv ▸ hspec.null_below i hi)
    · exact Or.inr (skipped_below_hit hi)
  · rw [hblocks] at hi
    obtain hi | ⟨hnull, -⟩ := getElem?_addLocalComputedBlocks hi
    · refine ⟨Option.some.inj (hspec.genuine i _ hi).1, le_trans ?_ (hle.trans hmax)⟩
      obtain ⟨hlt, -⟩ := List.getElem?_eq_some_iff.mp hi
      rw [← hspec.length_eq]
      exact Nat.mul_le_mul_right _ hlt
    · exact absurd hnull (by simp)
  · rw [List.getElem?_eq_none (by omega)]
    simp

/-- A call of `cache_blocks` never violates the assertion of `cache_full_blocks`:
the blocks it hashes have no hash yet. -/
theorem RunInv.cacheBlocks_eq {s : RunState τ H} (hI : RunInv g chain C hit s) {numTokens : ℕ}
    {mask : List Bool} (hslots : numTokens ≤ s.blocks.length * g.blockSize)
    (hmask : mask.length = numTokens / g.blockSize - s.numCached) :
    ∃ selected : ℕ → Bool, (∀ i, selected i = true → i < numTokens / g.blockSize) ∧
      cacheBlocks g chain s numTokens mask = .ok { s with
        blocks := hashSelected (hashesOf g chain s.toks) selected s.blocks
        numCached := max s.numCached (numTokens / g.blockSize) } := by
  unfold cacheBlocks
  dsimp only
  by_cases hle : numTokens / g.blockSize ≤ s.numCached
  · refine ⟨fun _ => false, fun _ h => absurd h (by simp), ?_⟩
    -- nothing is selected when no full block is new
    have hid : hashSelected (hashesOf g chain s.toks) (fun _ => false) s.blocks = s.blocks := by
      refine List.ext_getElem? fun i => ?_
      rw [getElem?_hashSelected]
      simp
    rw [if_pos hle, hid, Nat.max_eq_left hle]
  · have hfull : numTokens / g.blockSize ≤ s.blocks.length :=
      Nat.div_le_of_le_mul (by rw [Nat.mul_comm]; exact hslots)
    refine ⟨fun i => decide (s.numCached ≤ i) && mask.getD (i - s.numCached) false,
      fun i hi => ?_, ?_⟩
    · rw [Bool.and_eq_true, decide_eq_true_eq] at hi
      by_contra hge
      rw [List.getD_eq_getElem?_getD, List.getElem?_eq_none (by omega)] at hi
      exact absurd hi.2 (by simp)
    · rw [if_neg hle, cacheFullBlocks_eq hmask hfull, Nat.max_eq_right (Nat.le_of_not_le hle)]
      -- a block from `num_cached_block` on has no hash
      intro k b hb _
      cases b with
      | null => rfl
      | alloc h =>
        cases h with
        | none => rfl
        | some h => exact absurd hb (hI.uncached _ h (Nat.le_add_right _ _))

/-- **The step lemma.** -/
theorem RunInv.step {s s' : RunState τ H} {l : RunLabel τ} (hI : RunInv g chain C hit s)
    (hstep : RunStep g chain C s l s') : RunInv g chain C hit s' := by
  cases hstep with
  | schedule hslot =>
    refine ⟨hslot.trans (le_allocateNewBlocks _ _), fun i hi => ?_, fun i h hi => ?_,
      fun i h hge hi => ?_⟩
    · obtain hi | ⟨hnull, -⟩ := getElem?_allocateNewBlocks hi
      · exact hI.null_old i hi
      · exact absurd hnull (by simp)
    · obtain hi | ⟨hnone, -⟩ := getElem?_allocateNewBlocks hi
      · exact hI.hashed i h hi
      · exact absurd hnone (by simp)
    · obtain hi | ⟨hnone, -⟩ := getElem?_allocateNewBlocks hi
      · exact hI.uncached i h hge hi
      · exact absurd hnone (by simp)
  | @process numTokens rejected output hin hrej =>
    refine ⟨(Nat.sub_le _ _).trans hI.covered, hI.null_old, fun i h hi => ?_, hI.uncached⟩
    obtain ⟨heq, hle⟩ := hI.hashed i h hi
    -- appending output leaves the hashes of complete blocks as they are
    have htake : s.toks.take s.toks.length = (s.toks ++ output).take s.toks.length := by
      rw [List.take_length, List.take_left]
    refine ⟨heq.trans (blockHash_congr htake hle), hle.trans ?_⟩
    rw [List.length_append]
    exact Nat.le_add_right _ _
  | removeSkipped hp =>
    refine ⟨?_, fun i hi => ?_, fun i h hi => ?_, fun i h hge hi => ?_⟩
    · rw [length_removeSkippedBlocks]
      exact hI.covered
    · obtain hi | ⟨-, hold⟩ := getElem?_removeSkippedBlocks hi
      · exact hI.null_old i hi
      · exact Or.inl (hold.trans hp)
    · obtain hi | ⟨hnull, -⟩ := getElem?_removeSkippedBlocks hi
      · exact hI.hashed i h hi
      · exact absurd hnull (by simp)
    · obtain hi | ⟨hnull, -⟩ := getElem?_removeSkippedBlocks hi
      · exact hI.uncached i h hge hi
      · exact absurd hnull (by simp)
  | @cache numTokens mask _ htoks hslots hmask h =>
    obtain ⟨selected, hsel, heq⟩ := hI.cacheBlocks_eq hslots hmask
    rw [heq] at h
    cases h
    refine ⟨?_, fun i hi => ?_, fun i h hi => ?_, fun i h hge hi => ?_⟩
    · rw [length_hashSelected]
      exact hI.covered
    · exact hI.null_old i (null_of_hashSelected hi)
    · obtain hi | ⟨hsel_i, rfl, -⟩ := hash_of_hashSelected hi
      · exact hI.hashed i h hi
      · refine ⟨rfl, le_trans ?_ htoks⟩
        exact (Nat.le_div_iff_mul_le g.blockSize_pos).mp (hsel i hsel_i)
    · obtain hi | ⟨hsel_i, -, -⟩ := hash_of_hashSelected hi
      · exact hI.uncached i h ((le_max_left _ _).trans hge) hi
      · have := hsel i hsel_i
        have := (le_max_right s.numCached (numTokens / g.blockSize)).trans hge
        omega

/-- **Every reachable state satisfies the invariant.** -/
theorem RunInv.of_reachable {s : RunState τ H} (hs : (requestRun g chain C hit).Reachable s) :
    RunInv g chain C hit s :=
  System.Reachable.invariant (I := RunInv g chain C hit) (fun _ h => RunInv.init h)
    (fun _ _ _ hI hstep => RunInv.step hI hstep) hs

end Invariant

/-! ### The checkpoints at the free -/

/-- `_dsv41_swa_final_window`: the processed tokens at the free. Steps in flight,
output placeholders and tokens that may be prefilled again do not count. -/
def swaFinalWindowComputed (numComputed numInFlight numPlaceholders numTokens
    numReprefillable : ℕ) : ℤ :=
  min (min ((numComputed : ℤ) - numInFlight) ((numComputed : ℤ) - numPlaceholders)) numTokens
    - numReprefillable

/-- The count the hook passes on is processed and covered by the request's
tokens. -/
theorem swaFinalWindowComputed_le {C numComputed numInFlight numPlaceholders numTokens
    numReprefillable : ℕ}
    (h : swaFinalWindowComputed numComputed numInFlight numPlaceholders numTokens
      numReprefillable = C) :
    C + numReprefillable + numInFlight ≤ numComputed ∧ C ≤ numTokens := by
  unfold swaFinalWindowComputed at h
  omega

section Kept

variable {τ H : Type*}

/-- The tail of checkpoint `hit` in the table `blocks` at the free and in the
table `final` after the hook. -/
structure TailKept (g : SwaGroup) (chain : Option H → List τ → H) (toks : List τ)
    (blocks final : List (Block H)) (hit : ℕ) : Prop where
  /-- The whole tail is still allocated. -/
  allocated : ∀ i, (g.tailOf hit).contains i = true →
    ∃ h : Option H, blocks[i]? = some (Block.alloc h)
  /-- Afterwards each of its blocks carries the hash of the request's tokens. -/
  hashed : ∀ i, (g.tailOf hit).contains i = true →
    final[i]? = some (.alloc (some (hashesOf g chain toks i)))

/-- A later lookup reports at least `hit` tokens: in every cache that still holds
the hashed blocks of `final`, for every prompt that shares the checkpoint and
its EAGLE block, and every admissible length. -/
def CheckpointHit (g : SwaGroup) (chain : Option H → List τ → H) (toks : List τ)
    (final : List (Block H)) (hit : ℕ) (dropEagle : Bool) : Prop :=
  ∀ (cached : H → Bool) (toks' : List τ) (maxLength : ℕ),
    (∀ (i : ℕ) (h : H), final[i]? = some (.alloc (some h)) → cached h = true) →
    toks'.take (hit + g.peek) = toks.take (hit + g.peek) →
    hit + (if dropEagle then g.blockSize else 0) ≤ maxLength → maxLength ≤ toks'.length →
    hit ≤ (findLongestCacheHit g cached (hashesOf g chain toks') maxLength dropEagle).2

variable {g : SwaGroup} {chain : Option H → List τ → H} {C hit₀ : ℕ} {s : RunState τ H}

/-- Where the tail of a boundary lies, in blocks. -/
theorem tailOf_eq {hit : ℕ} (hb : IsBoundary g C hit) :
    ∃ k, hit = k * g.blockSize ∧ g.tailOf hit
      = ⟨hit, k - g.windowBlocks, k + if g.useEagle then 1 else 0⟩ := by
  obtain ⟨k, rfl⟩ := g.blockSize_dvd.trans hb.aligned
  refine ⟨k, Nat.mul_comm _ _, ?_⟩
  unfold SwaGroup.tailOf
  rw [contiguousBlocksForHit_eq, Nat.mul_div_cancel_left _ g.blockSize_pos]
  dsimp only
  rw [Nat.add_sub_add_right]

/-- **The hold reaches below every checkpoint's tail.** A null block lies below
the tail of a boundary at or above the initial hit. -/
theorem RunInv.lt_tail_of_null (hI : RunInv g chain C hit₀ s) {hit i : ℕ}
    (hb : IsBoundary g C hit) (hle : hit₀ ≤ hit) (hi : s.blocks[i]? = some .null) :
    (g.tailOf hit).contains i = false := by
  obtain ⟨k, rfl, htail⟩ := tailOf_eq hb
  rw [htail, Tail.contains, decide_eq_false_iff_not]
  rintro ⟨hstart, -⟩
  dsimp only at hstart
  obtain hold | hbelow := hI.null_old i hi
  · -- freed: the hold is the largest lag of a checkpoint, so `C` would be too far ahead
    have hlag := g.lag_le_extraRetained
    have hclose := hb.lag
    have hmul : k * g.blockSize ≤ (i + g.windowBlocks) * g.blockSize :=
      Nat.mul_le_mul_right _ (by omega)
    rw [Nat.add_mul] at hmul
    rw [Nat.add_mul, Nat.one_mul] at hold
    omega
  · -- padding of the initial hit: it lies below the hit's own window
    have hdiv : hit₀ / g.blockSize ≤ k :=
      Nat.div_le_of_le_mul (by rw [Nat.mul_comm]; exact hle)
    omega

/-- The whole tail of a checkpoint is allocated at the free. -/
theorem RunInv.tail_alloc (hI : RunInv g chain C hit₀ s) (hC : C ≤ s.numComputed) {hit i : ℕ}
    (hb : IsBoundary g C hit) (hle : hit₀ ≤ hit) (hi : (g.tailOf hit).contains i = true) :
    ∃ h, s.blocks[i]? = some (.alloc h) := by
  have hstop : (g.tailOf hit).stop ≤ s.blocks.length :=
    tailOf_stop_le hb.aligned hb.complete (hC.trans hI.covered)
  have hlt : i < s.blocks.length := by
    rw [Tail.contains, decide_eq_true_eq] at hi
    omega
  cases hblock : s.blocks[i]? with
  | none =>
    rw [List.getElem?_eq_none_iff] at hblock
    omega
  | some b =>
    cases b with
    | null =>
      rw [hI.lt_tail_of_null hb hle hblock] at hi
      exact absurd hi (by simp)
    | alloc h => exact ⟨h, rfl⟩

/-- An allocated block of a selected tail ends up with the request's hash. -/
theorem RunInv.hashed_of_selected (hI : RunInv g chain C hit₀ s) {selected : ℕ → Bool} {i : ℕ}
    (halloc : ∃ h, s.blocks[i]? = some (.alloc h)) (hsel : selected i = true) :
    (hashSelected (hashesOf g chain s.toks) selected s.blocks)[i]?
      = some (.alloc (some (hashesOf g chain s.toks i))) := by
  obtain ⟨h, hblock⟩ := halloc
  rw [getElem?_hashSelected, hblock, Option.map_some, if_pos hsel]
  cases h with
  | none => rfl
  | some h => exact congrArg (fun h => some (Block.alloc (some h))) (hI.hashed i h hblock).1

/-- **A kept tail is found again.** The window fits into one alignment step, so
the tail of a checkpoint is never cut at block `0`. -/
theorem TailKept.checkpointHit {toks : List τ} {blocks final : List (Block H)} {hit : ℕ}
    (hspan : g.windowBlocks * g.blockSize ≤ g.alignment) (hb : IsBoundary g C hit)
    (hk : TailKept g chain toks blocks final hit) {dropEagle : Bool}
    (hdrop : dropEagle = true → g.useEagle = true)
    (hneed : 0 < contiguousBlocksForHit g.slidingWindow g.blockSize dropEagle) :
    CheckpointHit g chain toks final hit dropEagle := by
  intro cached toks' maxLength hcached htoks hmax _
  obtain ⟨k, rfl, htail⟩ := tailOf_eq hb
  have hwin : g.windowBlocks ≤ k :=
    Nat.le_of_mul_le_mul_right (hspan.trans hb.alignment_le) g.blockSize_pos
  have hshift : (if dropEagle then 1 else 0) ≤ if g.useEagle then 1 else 0 := by
    cases dropEagle with
    | false => exact Nat.zero_le _
    | true => rw [hdrop rfl]
  have hpeek : g.peek = (if g.useEagle then 1 else 0) * g.blockSize := by
    unfold SwaGroup.peek
    split
    · rw [Nat.one_mul]
    · rw [Nat.zero_mul]
  -- the run ends with the EAGLE block, if the lookup drops one
  have hfind : (k + (if dropEagle then 1 else 0) - if dropEagle then 1 else 0) * g.blockSize
      ≤ (findLongestCacheHit g cached (hashesOf g chain toks') maxLength dropEagle).2 := by
    refine le_findLongestCacheHit hneed ?_ ?_ ?_ ?_
    · rw [contiguousBlocksForHit_eq]
      exact Nat.add_le_add_right hwin _
    · refine (Nat.le_div_iff_mul_le g.blockSize_pos).mpr (le_trans (le_of_eq ?_) hmax)
      rw [Nat.add_mul]
      split
      · rw [Nat.one_mul]
      · rw [Nat.zero_mul]
    · unfold EdgeAligned
      rw [Nat.add_sub_cancel]
      exact hb.aligned
    · intro j hlo hhi
      rw [contiguousBlocksForHit_eq, Nat.add_sub_add_right] at hlo
      have hin : (g.tailOf (k * g.blockSize)).contains j = true := by
        rw [htail, Tail.contains, decide_eq_true_eq]
        exact ⟨hlo, by dsimp only; omega⟩
      have hend : (j + 1) * g.blockSize ≤ k * g.blockSize + g.peek := by
        rw [hpeek, ← Nat.add_mul]
        exact Nat.mul_le_mul_right _ (by omega)
      have heq : hashesOf g chain toks' j = hashesOf g chain toks j :=
        blockHash_congr htoks hend
      rw [heq]
      exact hcached j _ (hk.hashed j hin)
  rwa [Nat.add_sub_cancel] at hfind

/-- **The final checkpoints are kept.** At the free of every run after `C`
processed tokens, the hook succeeds; every boundary at or above the initial hit
is reported, its tail is allocated before and hashed after, and unless a hit
needs no block at all, a later lookup hits at least there. -/
theorem final_checkpoints_kept (g : SwaGroup) (chain : Option H → List τ → H) (C hit₀ : ℕ)
    (hspan : g.windowBlocks * g.blockSize ≤ g.alignment) (s : RunState τ H)
    (hs : (requestRun g chain C hit₀).Reachable s) (hC : C + s.numInFlight ≤ s.numComputed)
    (hT : C ≤ s.toks.length) :
    ∃ hits final, swaFinalCache g (hashesOf g chain s.toks) s.toks.length s.blocks C
        = .ok (hits, final) ∧
      ∀ hit ∈ g.boundaries C s.toks.length, hit₀ ≤ hit →
        hit ∈ hits ∧ TailKept g chain s.toks s.blocks final hit ∧
        ∀ dropEagle, (dropEagle = true → g.useEagle = true) →
          0 < contiguousBlocksForHit g.slidingWindow g.blockSize dropEagle →
          CheckpointHit g chain s.toks final hit dropEagle := by
  have hI := RunInv.of_reachable hs
  have hcomp : C ≤ s.numComputed := (Nat.le_add_right _ _).trans hC
  refine ⟨_, _, swaFinalCache_eq g _ _ _ _, fun hit hhit hle => ?_⟩
  have hb := isBoundary_of_mem hT hhit
  have halloc := fun i hi => hI.tail_alloc (i := i) hcomp hb hle hi
  -- the tail is usable, so it is among those the hook hashes
  have husable : g.tailOf hit ∈ g.finalTails s.toks.length s.blocks C := by
    unfold SwaGroup.finalTails
    rw [Nat.min_eq_left (hcomp.trans hI.covered), List.mem_filter]
    refine ⟨List.mem_map_of_mem hhit, List.all_eq_true.mpr fun i hi => ?_⟩
    obtain ⟨h, hblock⟩ := halloc i (Tail.mem_indices.mp hi)
    rw [List.getD_eq_getElem?_getD, hblock]
    rfl
  have hkept : TailKept g chain s.toks s.blocks (hashSelected (hashesOf g chain s.toks)
      (fun i => (g.finalTails s.toks.length s.blocks C).any (·.contains i)) s.blocks) hit :=
    ⟨halloc, fun i hi => hI.hashed_of_selected (halloc i hi)
      (List.any_eq_true.mpr ⟨_, husable, hi⟩)⟩
  exact ⟨List.mem_map_of_mem husable, hkept,
    fun dropEagle hdrop hneed => hkept.checkpointHit hspan hb hdrop hneed⟩

/-- A request without a hit, prefilled in one step. -/
theorem reachable_prefilled (g : SwaGroup) (chain : Option H → List τ → H) (C : ℕ) (toks : List τ)
    (n : ℕ) :
    (requestRun g chain C 0).Reachable ⟨allocateNewBlocks g n [], toks, n, 0, 0⟩ := by
  have hfind :
      findLongestCacheHit g (fun _ => false) (hashesOf g chain toks) 0 false = ([], 0) := by
    simp [findLongestCacheHit, search, searchLoop, Search.matched, popUnaligned, dropEagleBlock]
  have hadd : addLocalComputedBlocks g ([] : List (Block H)) 0 = [] := by
    simp [addLocalComputedBlocks, SwaGroup.getNumSkippedTokens]
  have h₀ : (requestRun g chain C 0).Reachable ⟨[], toks, 0, 0, 0⟩ :=
    .init ⟨fun _ => false, 0, false, [], fun h => absurd h (by simp), Nat.zero_le _, hfind,
      hadd.symm, rfl, rfl, rfl⟩
  have h₁ : (requestRun g chain C 0).Reachable
      ⟨allocateNewBlocks g n [], toks, 0 + n, 0 + n, 0⟩ :=
    .step (l := .schedule n n) h₀ trivial (.schedule (by simp))
  have h₂ : (requestRun g chain C 0).Reachable
      ⟨allocateNewBlocks g n [], toks ++ [], 0 + n - 0, 0 + n - n, 0⟩ :=
    .step (l := .process n 0 []) h₁ trivial (.process (by simp) (Nat.zero_le _))
  rwa [List.append_nil, Nat.zero_add, Nat.sub_zero, Nat.sub_self] at h₂

/-- A window of `3` tokens in blocks of `2`, with EAGLE and `keep = 1`. -/
def smallGroup : SwaGroup :=
  ⟨3, 2, 2, true, 1, 0, by decide, by decide, by decide, by decide⟩

/-- A request of `8` tokens, prefilled in one step and freed: the checkpoints
`4` and `6` are kept. -/
theorem final_checkpoints_kept_small :
    ∃ hits final, swaFinalCache smallGroup
        (hashesOf smallGroup (fun p l => p.getD 0 + l.sum) (List.range 8)) 8
        (List.replicate 4 (.alloc none)) 8 = .ok (hits, final) ∧
      ∀ hit ∈ [4, 6], 0 ≤ hit → hit ∈ hits ∧
        TailKept smallGroup (fun p l => p.getD 0 + l.sum) (List.range 8)
          (List.replicate 4 (.alloc none)) final hit ∧
        ∀ dropEagle, (dropEagle = true → smallGroup.useEagle = true) →
          0 < contiguousBlocksForHit 3 2 dropEagle →
          CheckpointHit smallGroup (fun p l => p.getD 0 + l.sum) (List.range 8) final hit
            dropEagle :=
  final_checkpoints_kept smallGroup (fun p l => p.getD 0 + l.sum) 8 0 (by decide)
    ⟨List.replicate 4 (.alloc none), List.range 8, 8, 0, 0⟩
    (reachable_prefilled smallGroup _ 8 (List.range 8) 8) (by decide) (by decide)

/-- A window of one token in blocks of one token, without EAGLE. -/
def unitGroup : SwaGroup :=
  ⟨1, 1, 1, false, 0, 0, by decide, by decide, by decide, by decide⟩

/-- **A window of one token is never found again.** A request of one token is
prefilled and freed, and the hook reports checkpoint `1`. Its tail is empty, so
nothing is hashed, and a lookup in a cache without any block reports `0`. -/
theorem unit_window_no_hit :
    ∃ s : RunState ℕ ℕ, (requestRun unitGroup (fun p l => p.getD 0 + l.sum) 1 0).Reachable s ∧
      1 + s.numInFlight ≤ s.numComputed ∧ 1 ≤ s.toks.length ∧
      1 ∈ unitGroup.boundaries 1 s.toks.length ∧
      ∃ final, swaFinalCache unitGroup (hashesOf unitGroup (fun p l => p.getD 0 + l.sum) s.toks)
          s.toks.length s.blocks 1 = .ok ([1], final) ∧
        ¬ CheckpointHit unitGroup (fun p l => p.getD 0 + l.sum) s.toks final 1 false := by
  refine ⟨⟨[.alloc none], [7], 1, 0, 0⟩, ?_, by decide, by decide, by decide,
    [.alloc none], by decide, fun h => ?_⟩
  · exact reachable_prefilled unitGroup _ 1 [7] 1
  · have hhit := h (fun _ => false) [7, 8] 1 (fun i h hi => ?_) rfl (by decide) (by decide)
    · exact absurd hhit (by decide)
    · cases i with
      | zero => exact absurd hi (by simp)
      | succ i => exact absurd hi (by simp)

end Kept

end SwaFinal
end Dsv41Overlay
