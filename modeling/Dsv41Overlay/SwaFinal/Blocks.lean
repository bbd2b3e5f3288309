import Mathlib.Data.Nat.Basic
import Mathlib.Data.List.Basic
import Mathlib.Tactic.Ring
import Mathlib.Tactic.Linarith

/-!
# The block table of one sliding-window group

`SlidingWindowManager` keeps, for each request, a list of blocks: entry `i`
holds the tokens `[i * bs, (i + 1) * bs)`. An entry is the null block when the
tokens have left the window, and an allocated block carries a hash once it is
in the prefix cache.

This module models the table and the four operations that change it during a
run: padding a prefix-cache hit (`addLocalComputedBlocks`), growing it
(`allocateNewBlocks`), freeing the blocks below the window
(`removeSkippedBlocks`) and hashing full blocks (`cacheFullBlocks`). Each comes
with one lemma that says what an entry is afterwards.

The window reaches `extra_retained_tokens` further down than attention needs.
The overlay raises that number by `swaFinalHoldTokens`.
-/

namespace Dsv41Overlay
namespace SwaFinal

/-! ### The group -/

/-- `-(a // -b)`. -/
def cdiv (a b : ℕ) : ℕ := (a + b - 1) / b

theorem le_cdiv_mul (a : ℕ) {b : ℕ} (hb : 0 < b) : a ≤ cdiv a b * b := by
  unfold cdiv
  have h := Nat.div_add_mod (a + b - 1) b
  have hr := Nat.mod_lt (a + b - 1) hb
  rw [Nat.mul_comm] at h
  omega

/-- What a sliding-window group is configured with. `alignment` is the
scheduler's block size, also the granularity of a hit; `baseExtra` the
`extra_retained_tokens` of the group before the overlay raises it. -/
structure SwaGroup where
  slidingWindow : ℕ
  blockSize : ℕ
  alignment : ℕ
  useEagle : Bool
  keep : ℕ
  baseExtra : ℕ
  slidingWindow_pos : 0 < slidingWindow
  blockSize_pos : 0 < blockSize
  alignment_pos : 0 < alignment
  blockSize_dvd : blockSize ∣ alignment

/-- `_contiguous_blocks_for_hit`: the blocks a hit needs, one more for the block
EAGLE drops. -/
def contiguousBlocksForHit (windowSize blockSize : ℕ) (useEagle : Bool) : ℕ :=
  cdiv (windowSize - 1) blockSize + if useEagle then 1 else 0

/-- `_dsv41_swa_final_hold_tokens`: the tokens kept below the window. -/
def swaFinalHoldTokens (window blockSize alignment peekBlocks keep : ℕ) : ℕ :=
  let lag : ℤ := alignment + peekBlocks * blockSize - 1 + keep
  let span : ℤ := cdiv (window - 1) blockSize * blockSize
  (max 0 (lag - (window - 1) + span)).toNat

namespace SwaGroup

variable (g : SwaGroup)

/-- The blocks that hold a full window. -/
abbrev windowBlocks : ℕ := cdiv (g.slidingWindow - 1) g.blockSize

/-- `manager.extra_retained_tokens` after the overlay's edit of `__init__`. -/
def extraRetainedTokens : ℕ :=
  g.baseExtra
    + swaFinalHoldTokens g.slidingWindow g.blockSize g.alignment 1 g.keep

/-- `get_num_skipped_tokens`. -/
def getNumSkippedTokens (numComputed : ℕ) : ℕ :=
  numComputed - (g.slidingWindow - 1) - g.extraRetainedTokens

/-- What the hold adds up to: the window, the retained tokens below it, and the
worst lag of a checkpoint behind the computed tokens. -/
theorem lag_le_extraRetained :
    g.alignment + g.blockSize + g.keep + g.windowBlocks * g.blockSize
      ≤ (g.slidingWindow - 1) + g.extraRetainedTokens + 1 := by
  have hspan := le_cdiv_mul (g.slidingWindow - 1) g.blockSize_pos
  have hw := g.slidingWindow_pos
  unfold extraRetainedTokens swaFinalHoldTokens windowBlocks
  dsimp only
  omega

end SwaGroup

/-! ### Blocks and their hashes -/

/-- An entry of a block table. -/
inductive Block (H : Type*)
  /-- The shared null block. -/
  | null
  /-- An allocated block, with its `block_hash` once it is cached. -/
  | alloc (blockHash : Option H)
deriving Repr, DecidableEq

namespace Block

variable {H : Type*}

/-- `is_null`. -/
def isNull : Block H → Bool
  | null => true
  | alloc _ => false

/-- `block_hash is None`. -/
def unhashed : Block H → Bool
  | null => true
  | alloc h => h.isNone

/-- The block after its hash has been inserted, when it had none. -/
def withHash (h : H) : Block H → Block H
  | alloc none => alloc (some h)
  | b => b

end Block

section Hashes

variable {τ H : Type*} (chain : Option H → List τ → H) (blockSize : ℕ)

/-- `request.block_hashes`: the hash of block `i` is computed from the hash of
the block before it and the block's own tokens. -/
def blockHash (toks : List τ) : ℕ → H
  | 0 => chain none (toks.take blockSize)
  | i + 1 => chain (some (blockHash toks i)) ((toks.drop ((i + 1) * blockSize)).take blockSize)

variable {chain blockSize}

/-- The hash of block `i` depends on the tokens up to the block's end only. -/
theorem blockHash_congr {toks toks' : List τ} {n : ℕ} (h : toks.take n = toks'.take n) {i : ℕ}
    (hi : (i + 1) * blockSize ≤ n) :
    blockHash chain blockSize toks i = blockHash chain blockSize toks' i := by
  induction i with
  | zero =>
    -- the first block: its tokens agree
    have h₀ : toks.take blockSize = toks'.take blockSize := by
      have := congrArg (List.take blockSize) h
      rwa [List.take_take, List.take_take, Nat.min_eq_left (by omega)] at this
    rw [blockHash, blockHash, h₀]
  | succ i ih =>
    have hsucc : (i + 1 + 1) * blockSize = (i + 1) * blockSize + blockSize := by ring
    -- the tokens of block `i + 1` agree, and so does the hash before it
    have hblock : (toks.drop ((i + 1) * blockSize)).take blockSize
        = (toks'.drop ((i + 1) * blockSize)).take blockSize := by
      have := congrArg (List.take ((i + 1) * blockSize + blockSize)) h
      rw [List.take_take, List.take_take, Nat.min_eq_left (by omega)] at this
      rw [List.take_drop, List.take_drop, this]
    rw [blockHash, blockHash, ih (by omega), hblock]

end Hashes

/-! ### The operations on a table -/

section Operations

variable {H : Type*}

/-- The loop of `_remove_blocks_in_range`, from block `i - 1` down to `first`.
It stops at the first null block. -/
def removeLoop (first : ℕ) : ℕ → List (Block H) → List (Block H)
  | 0, blocks => blocks
  | i + 1, blocks =>
    if first ≤ i then
      match blocks[i]? with
      | some (.alloc _) => removeLoop first i (blocks.set i .null)
      | _ => blocks
    else blocks

/-- `remove_skipped_blocks`. -/
def removeSkippedBlocks (g : SwaGroup) (processed : ℕ) (blocks : List (Block H)) :
    List (Block H) :=
  if g.getNumSkippedTokens processed = 0 then blocks
  else
    removeLoop 0 (min (g.getNumSkippedTokens processed / g.blockSize) blocks.length) blocks

/-- `add_local_computed_blocks`: the blocks of a hit of `numComputed` tokens,
with the skipped ones padded by null blocks. -/
def addLocalComputedBlocks (g : SwaGroup) (newComputed : List (Block H)) (numComputed : ℕ) :
    List (Block H) :=
  let numSkipped := g.getNumSkippedTokens numComputed / g.blockSize
  List.replicate numSkipped .null ++ newComputed.drop numSkipped

/-- `allocate_new_blocks`: fresh blocks up to `numTokens` token slots. -/
def allocateNewBlocks (g : SwaGroup) (numTokens : ℕ) (blocks : List (Block H)) : List (Block H) :=
  blocks ++ List.replicate (cdiv numTokens g.blockSize - blocks.length) (.alloc none)

/-- The loop of `cache_full_blocks` over the new full blocks, the first of which
is block `i`. A selected block reads its hash, if the request has one, before
anything else; one that already has a hash violates the source's assertion. -/
def cacheLoop (hashAt : ℕ → Option H) :
    ℕ → List (Block H) → List Bool → Except String (List (Block H))
  | _, [], _ => .ok []
  | _, _ :: _, [] => .error "IndexError"
  | i, b :: blocks, m :: mask =>
    -- null blocks and blocks outside the mask are passed over
    if b.isNull || !m then (b :: ·) <$> cacheLoop hashAt (i + 1) blocks mask
    else
      match hashAt i with
      | none => .error "IndexError"
      | some h =>
        if b.unhashed then (.alloc (some h) :: ·) <$> cacheLoop hashAt (i + 1) blocks mask
        else .error "AssertionError"

/-- `cache_full_blocks`: hash the blocks `[numCached, numFull)` that the mask
selects. -/
def cacheFullBlocksAt (hashAt : ℕ → Option H) (blocks : List (Block H)) (numCached numFull : ℕ)
    (mask : List Bool) : Except String (List (Block H)) :=
  if numFull ≤ numCached then .ok blocks
  else
    let newFull := (blocks.take numFull).drop numCached
    if mask.length ≠ newFull.length then .error "AssertionError"
    else
      (fun cached => blocks.take numCached ++ cached ++ blocks.drop numFull)
        <$> cacheLoop hashAt numCached newFull mask

/-- `cache_full_blocks` of a request with a hash for every block. -/
def cacheFullBlocks (hashes : ℕ → H) (blocks : List (Block H)) (numCached numFull : ℕ)
    (mask : List Bool) : Except String (List (Block H)) :=
  cacheFullBlocksAt (fun i => some (hashes i)) blocks numCached numFull mask

end Operations

/-! ### What an entry is afterwards -/

/-- An entry of a prefix of a list. -/
theorem getElem?_of_take {α : Type*} {l : List α} {n i : ℕ} {a : α}
    (h : (l.take n)[i]? = some a) : i < n ∧ l[i]? = some a := by
  rw [List.getElem?_take] at h
  split at h
  · next hi => exact ⟨hi, h⟩
  · exact absurd h (by simp)

section Entries

variable {H : Type*} {g : SwaGroup}

@[simp] theorem length_removeLoop (first : ℕ) (i : ℕ) (blocks : List (Block H)) :
    (removeLoop first i blocks).length = blocks.length := by
  induction i generalizing blocks with
  | zero => rfl
  | succ i ih =>
    unfold removeLoop
    split
    · split
      · rw [ih, List.length_set]
      · rfl
    · rfl

/-- An entry after the loop is the entry before it, or null below its start. -/
theorem getElem?_removeLoop {first i j : ℕ} {blocks : List (Block H)} {b : Block H}
    (h : (removeLoop first i blocks)[j]? = some b) :
    blocks[j]? = some b ∨ b = .null ∧ j < i := by
  induction i generalizing blocks with
  | zero => exact Or.inl h
  | succ i ih =>
    unfold removeLoop at h
    -- the loop stops at a null block and at the first block
    split at h
    · split at h
      · next hb =>
        -- block `i` was set to null and the loop went on below it
        obtain hj | ⟨rfl, hj⟩ := ih h
        · rw [List.getElem?_set] at hj
          split at hj
          · next hij =>
            subst hij
            split at hj
            · exact Or.inr ⟨(Option.some.inj hj).symm, Nat.lt_succ_self _⟩
            · exact absurd hj (by simp)
          · exact Or.inl hj
        · exact Or.inr ⟨rfl, by omega⟩
      · exact Or.inl h
    · exact Or.inl h

@[simp] theorem length_removeSkippedBlocks (p : ℕ) (blocks : List (Block H)) :
    (removeSkippedBlocks g p blocks).length = blocks.length := by
  unfold removeSkippedBlocks
  split
  · rfl
  · exact length_removeLoop _ _ _

/-- A block below the skipped tokens ends the window and the retained tokens
below the processed count. -/
theorem end_le_of_lt_skipped {p i : ℕ} (h : i < g.getNumSkippedTokens p / g.blockSize) :
    (i + 1) * g.blockSize + (g.slidingWindow - 1) + g.extraRetainedTokens ≤ p := by
  -- its end is a skipped token, and these lie a window and the hold below `p`
  have hmul : (i + 1) * g.blockSize ≤ g.getNumSkippedTokens p :=
    (Nat.le_div_iff_mul_le g.blockSize_pos).mp h
  have hpos : 0 < (i + 1) * g.blockSize := Nat.mul_pos (Nat.succ_pos _) g.blockSize_pos
  unfold SwaGroup.getNumSkippedTokens at hmul
  omega

/-- **Only old blocks are freed.** -/
theorem getElem?_removeSkippedBlocks {p i : ℕ} {blocks : List (Block H)} {b : Block H}
    (h : (removeSkippedBlocks g p blocks)[i]? = some b) :
    blocks[i]? = some b ∨
      b = .null ∧ (i + 1) * g.blockSize + (g.slidingWindow - 1) + g.extraRetainedTokens ≤ p := by
  unfold removeSkippedBlocks at h
  split at h
  · exact Or.inl h
  · obtain hb | ⟨rfl, hi⟩ := getElem?_removeLoop h
    · exact Or.inl hb
    · exact Or.inr ⟨rfl, end_le_of_lt_skipped (lt_of_lt_of_le hi (Nat.min_le_left _ _))⟩

/-- The entries of a padded hit: null below the skipped tokens, the hit's own
above. -/
theorem getElem?_addLocalComputedBlocks {newComputed : List (Block H)} {p i : ℕ} {b : Block H}
    (h : (addLocalComputedBlocks g newComputed p)[i]? = some b) :
    newComputed[i]? = some b ∨
      b = .null ∧ (i + 1) * g.blockSize + (g.slidingWindow - 1) + g.extraRetainedTokens ≤ p := by
  unfold addLocalComputedBlocks at h
  dsimp only at h
  -- the padding, or the hit behind it
  rw [List.getElem?_append] at h
  split at h
  · next hi =>
    rw [List.length_replicate] at hi
    rw [List.getElem?_replicate_of_lt hi] at h
    exact Or.inr ⟨(Option.some.inj h).symm, end_le_of_lt_skipped hi⟩
  · next hi =>
    rw [List.length_replicate] at hi h
    rw [List.getElem?_drop, Nat.add_sub_cancel' (Nat.le_of_not_lt hi)] at h
    exact Or.inl h

/-- A padded hit has one entry for each block of the hit. -/
theorem length_addLocalComputedBlocks {newComputed : List (Block H)} {p : ℕ}
    (h : newComputed.length * g.blockSize = p) :
    (addLocalComputedBlocks g newComputed p).length = newComputed.length := by
  -- no more blocks are padded than the hit has
  have hskip : g.getNumSkippedTokens p / g.blockSize ≤ newComputed.length := by
    refine Nat.div_le_of_le_mul ?_
    unfold SwaGroup.getNumSkippedTokens
    rw [Nat.mul_comm]
    omega
  unfold addLocalComputedBlocks
  rw [List.length_append, List.length_replicate, List.length_drop]
  omega

/-- An entry after an allocation is the entry before it or a fresh block at the
end. -/
theorem getElem?_allocateNewBlocks {blocks : List (Block H)} {n i : ℕ} {b : Block H}
    (h : (allocateNewBlocks g n blocks)[i]? = some b) :
    blocks[i]? = some b ∨ b = .alloc none ∧ blocks.length ≤ i := by
  unfold allocateNewBlocks at h
  rw [List.getElem?_append] at h
  split at h
  · exact Or.inl h
  · next hi =>
    rw [List.getElem?_replicate] at h
    split at h
    · exact Or.inr ⟨(Option.some.inj h).symm, Nat.le_of_not_lt hi⟩
    · exact absurd h (by simp)

/-- An allocation covers the tokens asked for. -/
theorem le_allocateNewBlocks (n : ℕ) (blocks : List (Block H)) :
    n ≤ (allocateNewBlocks g n blocks).length * g.blockSize := by
  have hle : cdiv n g.blockSize ≤ (allocateNewBlocks g n blocks).length := by
    unfold allocateNewBlocks
    rw [List.length_append, List.length_replicate]
    omega
  exact (le_cdiv_mul n g.blockSize_pos).trans (Nat.mul_le_mul_right _ hle)

end Entries

/-! ### Hashing selected blocks -/

section Hashing

variable {H : Type*} {hashes : ℕ → H}

/-- The table with the hash of every selected block inserted. -/
def hashSelected (hashes : ℕ → H) (selected : ℕ → Bool) (blocks : List (Block H)) :
    List (Block H) :=
  blocks.mapIdx fun i b => if selected i then b.withHash (hashes i) else b

@[simp] theorem length_hashSelected (selected : ℕ → Bool) (blocks : List (Block H)) :
    (hashSelected hashes selected blocks).length = blocks.length :=
  List.length_mapIdx

theorem getElem?_hashSelected (selected : ℕ → Bool) (blocks : List (Block H)) (i : ℕ) :
    (hashSelected hashes selected blocks)[i]?
      = blocks[i]?.map fun b => if selected i then b.withHash (hashes i) else b :=
  List.getElem?_mapIdx

/-- Hashing makes no block null. -/
theorem null_of_hashSelected {selected : ℕ → Bool} {blocks : List (Block H)} {i : ℕ}
    (h : (hashSelected hashes selected blocks)[i]? = some .null) : blocks[i]? = some .null := by
  rw [getElem?_hashSelected] at h
  obtain ⟨b, hb, heq⟩ := Option.map_eq_some_iff.mp h
  cases b with
  | null => exact hb
  | alloc h =>
    split at heq
    · cases h <;> exact absurd heq (by simp [Block.withHash])
    · exact absurd heq (by simp)

/-- A hash in the table was there before or has been inserted. -/
theorem hash_of_hashSelected {selected : ℕ → Bool} {blocks : List (Block H)} {i : ℕ} {h : H}
    (hi : (hashSelected hashes selected blocks)[i]? = some (.alloc (some h))) :
    blocks[i]? = some (.alloc (some h)) ∨
      selected i = true ∧ h = hashes i ∧ blocks[i]? = some (.alloc none) := by
  rw [getElem?_hashSelected] at hi
  obtain ⟨b, hb, heq⟩ := Option.map_eq_some_iff.mp hi
  by_cases hs : selected i = true
  -- a selected block takes its hash if it has none
  · rw [if_pos hs] at heq
    cases b with
    | null => exact absurd heq (by simp [Block.withHash])
    | alloc k =>
      cases k with
      | none =>
        refine Or.inr ⟨hs, ?_, hb⟩
        simpa [Block.withHash] using heq.symm
      | some k => exact Or.inl (hb.trans (congrArg some heq))
  · rw [if_neg hs] at heq
    exact Or.inl (hb.trans (congrArg some heq))

/-- The loop inserts the hash of every block the mask selects, provided none of
them has one. -/
theorem cacheLoop_eq {i : ℕ} {blocks : List (Block H)} {mask : List Bool}
    (hlen : mask.length = blocks.length)
    (hfree : ∀ k b, blocks[k]? = some b → mask.getD k false = true → b.unhashed = true) :
    cacheLoop (fun i => some (hashes i)) i blocks mask
      = .ok (blocks.mapIdx fun k b =>
          if mask.getD k false then b.withHash (hashes (i + k)) else b) := by
  induction blocks generalizing i mask with
  | nil => rfl
  | cons b blocks ih =>
    cases mask with
    | nil => exact absurd hlen (by simp)
    | cons m mask =>
      have hrest := @ih (i + 1) mask (by simpa using hlen)
        fun k b' hb' hm => hfree (k + 1) b' (by simpa using hb') (by simpa using hm)
      have hidx : ∀ k, i + 1 + k = i + (k + 1) := fun k => by omega
      simp only [hidx] at hrest
      rw [List.mapIdx_cons]
      simp only [List.getD_cons_zero, List.getD_cons_succ, Nat.add_zero]
      unfold cacheLoop
      cases m with
      | false =>
        -- a block that is not selected is passed over
        rw [Bool.not_false, Bool.or_true, if_pos rfl, hrest]
        rfl
      | true =>
        have hb := hfree 0 b rfl rfl
        cases b with
        -- so is a null block
        | null =>
          rw [if_pos (by rfl), hrest]
          rfl
        | alloc h =>
          rw [if_neg (by simp [Block.isNull])]
          dsimp only
          rw [if_pos hb, hrest]
          cases h with
          | none => rfl
          | some h => exact absurd hb (by simp [Block.unhashed])

/-- **`cache_full_blocks` hashes exactly the selected blocks**, when the mask has
one entry for each block of the range and selects no hashed block. -/
theorem cacheFullBlocks_eq {blocks : List (Block H)} {numCached numFull : ℕ} {mask : List Bool}
    (hlen : mask.length = numFull - numCached) (hfull : numFull ≤ blocks.length)
    (hfree : ∀ k b, blocks[numCached + k]? = some b → mask.getD k false = true →
      b.unhashed = true) :
    cacheFullBlocks hashes blocks numCached numFull mask
      = .ok (hashSelected hashes
          (fun i => decide (numCached ≤ i) && mask.getD (i - numCached) false) blocks) := by
  -- past its end the mask selects nothing
  have hout : ∀ k, numFull - numCached ≤ k → mask.getD k false = false := by
    intro k hk
    rw [List.getD_eq_getElem?_getD, List.getElem?_eq_none (by omega), Option.getD_none]
  unfold cacheFullBlocks cacheFullBlocksAt
  by_cases hle : numFull ≤ numCached
  · -- an empty range: the mask is empty and selects nothing
    rw [if_pos hle]
    refine congrArg Except.ok (List.ext_getElem? fun i => ?_)
    rw [getElem?_hashSelected, hout (i - numCached) (by omega), Bool.and_false]
    simp
  · rw [if_neg hle]
    have hnew : ((blocks.take numFull).drop numCached).length = numFull - numCached := by
      rw [List.length_drop, List.length_take, Nat.min_eq_left hfull]
    dsimp only
    rw [if_neg (by rw [hlen, hnew]; exact not_not_intro rfl),
      cacheLoop_eq (by rw [hlen, hnew])]
    · refine congrArg Except.ok (List.ext_getElem? fun i => ?_)
      have htake : (blocks.take numCached).length = numCached := by
        rw [List.length_take]
        omega
      rw [getElem?_hashSelected]
      dsimp only
      -- the block is cached already, or one of the new ones
      obtain hi | ⟨k, rfl⟩ : i < numCached ∨ ∃ k, i = numCached + k := by
        obtain hi | hi := Nat.lt_or_ge i numCached
        · exact Or.inl hi
        · exact Or.inr ⟨_, (Nat.add_sub_cancel' hi).symm⟩
      · rw [List.append_assoc, List.getElem?_append_left (by omega), List.getElem?_take_of_lt hi,
          decide_eq_false (by omega), Bool.false_and]
        simp
      · rw [List.append_assoc, List.getElem?_append_right (by omega), htake,
          Nat.add_sub_cancel_left, decide_eq_true (by omega), Bool.true_and]
        -- a new block, or one behind the full blocks
        by_cases hk : k < numFull - numCached
        · rw [List.getElem?_append_left (by rw [List.length_mapIdx, hnew]; exact hk),
            List.getElem?_mapIdx, List.getElem?_drop, List.getElem?_take_of_lt (by omega)]
        · rw [List.getElem?_append_right (by rw [List.length_mapIdx, hnew]; omega),
            List.length_mapIdx, hnew, List.getElem?_drop, hout k (by omega)]
          rw [show numFull + (k - (numFull - numCached)) = numCached + k by omega]
          simp
    · intro k b hb hm
      refine hfree k b ?_ hm
      rw [List.getElem?_drop] at hb
      exact (getElem?_of_take hb).2

end Hashing

end SwaFinal
end Dsv41Overlay
