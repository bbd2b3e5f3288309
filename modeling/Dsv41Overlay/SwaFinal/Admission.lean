import Dsv41Overlay.SwaFinal.Run

/-!
# What a request holds stays below the admission cap

A request is admitted against a number of blocks that it may hold at once, and the pool
is never promised twice. The stock cap counts the window, the retained tokens and the
tokens in flight; the overlay retains more and raises the cap by as many blocks.

A request holds a window of its table: `remove_skipped_blocks` nulls the entries from the
left and `allocate_new_blocks` adds entries on the right (`HeldInv`). Both ends follow
the processed count of some step so far, the larger of those seen: the right end is at
most `F` tokens above it, the left end at most the window and the retained tokens below.
Frees round down to blocks and allocations round up, which costs the cap one block.
-/

namespace Dsv41Overlay
namespace SwaFinal

/-! ### Rounding up -/

section Cdiv

variable {a b n : ℕ}

theorem cdiv_le_iff (hn : 0 < n) {q : ℕ} : cdiv a n ≤ q ↔ a ≤ q * n := by
  constructor
  · intro h
    exact (le_cdiv_mul a hn).trans (Nat.mul_le_mul_right n h)
  · intro h
    unfold cdiv
    apply Nat.le_of_lt_succ
    rw [Nat.div_lt_iff_lt_mul hn, Nat.succ_mul]
    omega

theorem cdiv_mono (hn : 0 < n) (h : a ≤ b) : cdiv a n ≤ cdiv b n :=
  (cdiv_le_iff hn).mpr (h.trans (le_cdiv_mul b hn))

theorem cdiv_add_le (hn : 0 < n) : cdiv (a + b) n ≤ cdiv a n + cdiv b n := by
  rw [cdiv_le_iff hn, Nat.add_mul]
  exact Nat.add_le_add (le_cdiv_mul a hn) (le_cdiv_mul b hn)

/-- Rounding up and rounding down differ by at most one. -/
theorem cdiv_le_div_succ (hn : 0 < n) : cdiv a n ≤ a / n + 1 := by
  rw [cdiv_le_iff hn]
  exact Nat.le_of_lt (Nat.lt_mul_of_div_lt (Nat.lt_succ_self _) hn)

end Cdiv

/-! ### The cap -/

namespace SwaGroup

/-- `_dsv41_hold`: what the overlay adds to `extra_retained_tokens`. -/
def hold (g : SwaGroup) : ℕ :=
  swaFinalHoldTokens g.slidingWindow g.blockSize g.alignment 1 g.keep

/-- `max_admission_blocks_per_request`, before the overlay's edit. -/
def maxAdmissionBlocksPerRequest (g : SwaGroup) (maxInFlightTokens maxModelLen : ℕ) : ℕ :=
  let numTokens := min (g.slidingWindow - 1 + g.baseExtra + maxInFlightTokens) maxModelLen
  cdiv numTokens g.blockSize + 1

/-- `_max_admission_blocks_per_request` as the overlay leaves it. -/
def admissionCap (g : SwaGroup) (maxInFlightTokens maxModelLen : ℕ) : ℕ :=
  g.maxAdmissionBlocksPerRequest maxInFlightTokens maxModelLen + cdiv g.hold g.blockSize

theorem extraRetainedTokens_eq (g : SwaGroup) : g.extraRetainedTokens = g.baseExtra + g.hold := rfl

/-- **The cap is wide enough.** A table that ends at most `F` tokens above a processed
count and is freed up to it. -/
theorem le_admissionCap (g : SwaGroup) (F maxModelLen P : ℕ) :
    cdiv (min (P + F) maxModelLen) g.blockSize - g.getNumSkippedTokens P / g.blockSize
      ≤ g.admissionCap F maxModelLen := by
  have hbs := g.blockSize_pos
  -- the processed tokens exceed the skipped ones by the window at most
  have hskip : P ≤ g.getNumSkippedTokens P + (g.slidingWindow - 1) + g.baseExtra + g.hold := by
    unfold getNumSkippedTokens
    rw [extraRetainedTokens_eq]
    omega
  -- the table's end, from the freed tokens on
  have hend : min (P + F) maxModelLen ≤ g.getNumSkippedTokens P
      + (min (g.slidingWindow - 1 + g.baseExtra + F) maxModelLen + g.hold) := by
    omega
  -- the tokens behind the skipped ones are counted in two parts
  have hsplit : cdiv (min (P + F) maxModelLen) g.blockSize
      ≤ cdiv (g.getNumSkippedTokens P) g.blockSize
        + (cdiv (min (g.slidingWindow - 1 + g.baseExtra + F) maxModelLen) g.blockSize
          + cdiv g.hold g.blockSize) :=
    calc cdiv (min (P + F) maxModelLen) g.blockSize
        ≤ cdiv (g.getNumSkippedTokens P
            + (min (g.slidingWindow - 1 + g.baseExtra + F) maxModelLen + g.hold)) g.blockSize :=
          cdiv_mono hbs hend
      _ ≤ _ := (cdiv_add_le hbs).trans (Nat.add_le_add_left (cdiv_add_le hbs) _)
  -- the skipped tokens may end inside a block
  have hround : cdiv (g.getNumSkippedTokens P) g.blockSize
      ≤ g.getNumSkippedTokens P / g.blockSize + 1 := cdiv_le_div_succ hbs
  unfold admissionCap maxAdmissionBlocksPerRequest
  dsimp only
  generalize g.getNumSkippedTokens P / g.blockSize = freed at hround ⊢
  omega

end SwaGroup

/-! ### The run of a request -/

/-- What the admission of a request depends on. -/
structure AdmissionState (H : Type*) where
  blocks : List (Block H)
  numComputed : ℕ
  numInFlight : ℕ

/-- The processed count: tokens of steps in flight do not count. -/
def AdmissionState.processed {H : Type*} (s : AdmissionState H) : ℕ :=
  s.numComputed - s.numInFlight

/-- The engine's calls on the request. -/
inductive AdmissionLabel
  /-- `allocate_slots`: free on the processed count, then allocate up to `slotEnd` for
  `numNew` more tokens. -/
  | allocateSlots (numNew slotEnd : ℕ)
  /-- `allocate_slots` without enough free blocks in the pool: it frees and returns. -/
  | refuse
  /-- Process `numTokens` tokens in flight; `rejected` drafts are taken back. -/
  | process (numTokens rejected : ℕ)

section Run

variable {H : Type*} (g : SwaGroup) (maxInFlightTokens maxModelLen : ℕ)

/-- One call. The slots reach at most `maxInFlightTokens` above the processed count, and
what is scheduled has a slot. -/
inductive AdmissionStep (s : AdmissionState H) : AdmissionLabel → AdmissionState H → Prop
  | allocateSlots {numNew slotEnd : ℕ} {blocks : List (Block H)} (hlo : s.processed ≤ slotEnd)
      (hhi : slotEnd ≤ min (s.processed + maxInFlightTokens) maxModelLen)
      (hblocks : blocks =
        allocateNewBlocks g slotEnd (removeSkippedBlocks g s.processed s.blocks))
      (hslots : s.numComputed + numNew ≤ blocks.length * g.blockSize) :
    AdmissionStep s (.allocateSlots numNew slotEnd)
      { blocks := blocks
        numComputed := s.numComputed + numNew
        numInFlight := s.numInFlight + numNew }
  | refuse :
    AdmissionStep s .refuse { s with blocks := removeSkippedBlocks g s.processed s.blocks }
  | process {numTokens rejected : ℕ} (hin : numTokens ≤ s.numInFlight)
      (hrej : rejected ≤ numTokens) :
    AdmissionStep s (.process numTokens rejected)
      { s with
        numComputed := s.numComputed - rejected
        numInFlight := s.numInFlight - numTokens }

/-- The state after `add_local_computed_blocks` of a hit looked up in some prefix cache;
a request without a hit starts from the empty table. -/
def AdmissionInit (s : AdmissionState H) : Prop :=
  ∃ (cached : H → Bool) (hashes : ℕ → H) (maxLength : ℕ) (dropEagle : Bool)
    (newComputed : List (Block H)),
    maxLength ≤ maxModelLen ∧
    findLongestCacheHit g cached hashes maxLength dropEagle = (newComputed, s.numComputed) ∧
    s.blocks = addLocalComputedBlocks g newComputed s.numComputed ∧ s.numInFlight = 0

/-- The run of a request from its hit on. -/
def admissionRun : System (AdmissionState H) AdmissionLabel where
  init := AdmissionInit g maxModelLen
  step := AdmissionStep g maxInFlightTokens maxModelLen

end Run

/-- The non-null blocks of a table. -/
def heldBlocks {H : Type*} (blocks : List (Block H)) : ℕ := blocks.countP fun b => !b.isNull

/-! ### The held window -/

section Window

variable {H : Type*} {g : SwaGroup} {blocks : List (Block H)}

/-- The null entries are the first ones. -/
def NullPrefix (blocks : List (Block H)) : Prop :=
  ∀ j k : ℕ, j < k → blocks[k]? = some .null → blocks[j]? = some .null

/-- Entries below `n` are null, as far as they exist. -/
def NullBelow (n : ℕ) (blocks : List (Block H)) : Prop :=
  ∀ i < n, ∀ b, blocks[i]? = some b → b = .null

/-- Entries below `n` that are null are not held. -/
theorem heldBlocks_le {n : ℕ} (h : NullBelow n blocks) : heldBlocks blocks ≤ blocks.length - n := by
  -- none of the first n blocks is held
  have hnone : (blocks.take n).countP (fun b => !b.isNull) = 0 := by
    rw [List.countP_eq_zero]
    intro b hb
    obtain ⟨i, hi⟩ := List.mem_iff_getElem?.mp hb
    obtain ⟨hlt, hi⟩ := getElem?_of_take hi
    rw [h i hlt b hi]
    exact Bool.false_ne_true
  calc heldBlocks blocks
      = (blocks.take n ++ blocks.drop n).countP fun b => !b.isNull := by
        rw [List.take_append_drop]
        rfl
    _ = (blocks.drop n).countP fun b => !b.isNull := by
        rw [List.countP_append, hnone, Nat.zero_add]
    _ ≤ (blocks.drop n).length := List.countP_le_length
    _ = blocks.length - n := List.length_drop

/-- A null entry stays null while blocks are freed. -/
theorem removeLoop_of_null {first i j : ℕ} (h : blocks[j]? = some .null) :
    (removeLoop first i blocks)[j]? = some .null := by
  have hlt : j < (removeLoop first i blocks).length := by
    rw [length_removeLoop]
    exact (List.getElem?_eq_some_iff.mp h).1
  have hget := List.getElem?_eq_getElem hlt
  rcases getElem?_removeLoop hget with hb | ⟨hb, -⟩
  · rw [hget, ← hb, h]
  · rw [hget, hb]

/-- **The loop frees everything below its start.** Its early exit at a null block loses
nothing, the null entries being the first ones. -/
theorem removeLoop_null {i j : ℕ} (hi : i ≤ blocks.length)
    (hshape : ∀ j k, j < k → k < i → blocks[k]? = some .null → blocks[j]? = some .null)
    (hj : j < i) : (removeLoop 0 i blocks)[j]? = some .null := by
  induction i generalizing blocks with
  | zero => omega
  | succ i ih =>
    have hget := List.getElem?_eq_getElem hi
    unfold removeLoop
    rw [if_pos (Nat.zero_le i), hget]
    cases hb : blocks[i] with
    | null =>
      -- the exit: block `i` is null, so those below are
      rw [hb] at hget
      rcases Nat.lt_succ_iff_lt_or_eq.mp hj with hlt | rfl
      · exact hshape j i hlt (Nat.lt_succ_self i) hget
      · exact hget
    -- an allocated block is freed, and the loop goes on below it
    | alloc h =>
      dsimp only
      rcases Nat.lt_succ_iff_lt_or_eq.mp hj with hlt | rfl
      · apply ih _ _ hlt
        · rw [List.length_set]
          exact Nat.le_of_succ_le hi
        · intro j k hjk hk hnull
          rw [List.getElem?_set_ne (by omega)] at hnull ⊢
          exact hshape j k hjk (by omega) hnull
      · apply removeLoop_of_null
        rw [List.getElem?_set_self hi]

theorem NullPrefix.removeSkipped {p : ℕ} (h : NullPrefix blocks) :
    NullPrefix (removeSkippedBlocks g p blocks) := by
  unfold removeSkippedBlocks
  split
  · exact h
  · intro j k hjk hk
    rcases getElem?_removeLoop hk with hnull | ⟨-, hlt⟩
    · exact removeLoop_of_null (h j k hjk hnull)
    · exact removeLoop_null (Nat.min_le_right _ _) (fun j k hjk _ => h j k hjk) (hjk.trans hlt)

/-- After a free on the count `p`, the blocks skipped at `p` are null. -/
theorem NullPrefix.nullBelow_removeSkipped {p : ℕ} (h : NullPrefix blocks) :
    NullBelow (g.getNumSkippedTokens p / g.blockSize) (removeSkippedBlocks g p blocks) := by
  intro i hi b hb
  unfold removeSkippedBlocks at hb
  split at hb
  · next hzero =>
    rw [hzero, Nat.zero_div] at hi
    omega
  · have hlt : i < blocks.length := by
      have := (List.getElem?_eq_some_iff.mp hb).1
      rwa [length_removeLoop] at this
    rw [removeLoop_null (Nat.min_le_right _ _) (fun j k hjk _ => h j k hjk)
      (Nat.lt_min.mpr ⟨hi, hlt⟩)] at hb
    exact (Option.some.inj hb).symm

theorem NullBelow.removeSkipped {n p : ℕ} (h : NullBelow n blocks) :
    NullBelow n (removeSkippedBlocks g p blocks) := by
  intro i hi b hb
  rcases getElem?_removeSkippedBlocks hb with hb | ⟨hnull, -⟩
  · exact h i hi b hb
  · exact hnull

theorem NullPrefix.allocate {n : ℕ} (h : NullPrefix blocks) :
    NullPrefix (allocateNewBlocks g n blocks) := by
  intro j k hjk hk
  rcases getElem?_allocateNewBlocks hk with hk | ⟨hne, -⟩
  · have hnull := h j k hjk hk
    unfold allocateNewBlocks
    rw [List.getElem?_append_left (List.getElem?_eq_some_iff.mp hnull).1]
    exact hnull
  · cases hne

/-- Fresh blocks are added above the freed ones. -/
theorem NullBelow.allocate {m n : ℕ} (h : NullBelow m blocks) (hm : m ≤ blocks.length) :
    NullBelow m (allocateNewBlocks g n blocks) := by
  intro i hi b hb
  rcases getElem?_allocateNewBlocks hb with hb | ⟨-, hge⟩
  · exact h i hi b hb
  · omega

theorem length_allocateNewBlocks (n : ℕ) (blocks : List (Block H)) :
    (allocateNewBlocks g n blocks).length = max blocks.length (cdiv n g.blockSize) := by
  unfold allocateNewBlocks
  rw [List.length_append, List.length_replicate]
  omega

end Window

/-! ### The hit a request starts from -/

section Hit

variable {H : Type*} {g : SwaGroup}

/-- A hit is a run of cached blocks behind null entries. -/
theorem nullPrefix_findLongestCacheHit (cached : H → Bool) (hashes : ℕ → H) (maxLength : ℕ)
    (dropEagle : Bool) :
    NullPrefix (findLongestCacheHit g cached hashes maxLength dropEagle).1 := by
  intro j k hjk hk
  -- without a hit there are no null entries
  cases hf : (search g cached hashes maxLength dropEagle).found with
  | false =>
    have hne := (getElem?_of_not_found hf hk).1
    cases hne
  | true =>
    obtain ⟨start, hrun, hlen, -, -⟩ := (search_spec g cached hashes maxLength dropEagle).full hf
    rw [findLongestCacheHit_of_found hf] at hk ⊢
    obtain ⟨hlt, hnull⟩ := getElem?_of_take hk
    -- a null entry lies below the run
    have hbelow : k < start := by
      by_contra hge
      rw [hrun.filled k (by omega) (by omega)] at hnull
      cases hnull
    rw [List.getElem?_take_of_lt (by omega)]
    apply searchLoop_null_below _ _ hf
    · change j + (search g cached hashes maxLength dropEagle).run
        < (search g cached hashes maxLength dropEagle).computed.length
      omega
    · rw [List.length_replicate]
      exact Nat.le_refl _
    · intro j hj
      exact List.getElem?_replicate_of_lt hj

theorem NullPrefix.addLocalComputed {newComputed : List (Block H)} {p : ℕ}
    (h : NullPrefix newComputed) : NullPrefix (addLocalComputedBlocks g newComputed p) := by
  intro j k hjk hk
  unfold addLocalComputedBlocks at hk ⊢
  dsimp only at hk ⊢
  generalize g.getNumSkippedTokens p / g.blockSize = n at hk ⊢
  by_cases hj : j < n
  · rw [List.getElem?_append_left (by rwa [List.length_replicate]),
      List.getElem?_replicate_of_lt hj]
  · rw [List.getElem?_append_right (by rw [List.length_replicate]; omega), List.length_replicate,
      List.getElem?_drop] at hk ⊢
    exact h _ _ (by omega) hk

theorem nullBelow_addLocalComputed {newComputed : List (Block H)} {p : ℕ} :
    NullBelow (g.getNumSkippedTokens p / g.blockSize) (addLocalComputedBlocks g newComputed p) := by
  intro i hi b hb
  unfold addLocalComputedBlocks at hb
  dsimp only at hb
  rw [List.getElem?_append_left (by rwa [List.length_replicate]),
    List.getElem?_replicate_of_lt hi] at hb
  exact (Option.some.inj hb).symm

end Hit

/-! ### The invariant -/

section Invariant

variable {H : Type*} {g : SwaGroup} {F maxModelLen : ℕ}

/-- **The held window.** `P` is the largest processed count seen so far. -/
structure HeldInv (g : SwaGroup) (F maxModelLen : ℕ) (s : AdmissionState H) : Prop where
  /-- What is computed has a slot. -/
  covered : s.numComputed ≤ s.blocks.length * g.blockSize
  nullPrefix : NullPrefix s.blocks
  /-- The table ends `F` tokens above `P` at most, and is freed up to it. -/
  window : ∃ P, P ≤ s.blocks.length * g.blockSize ∧
    s.blocks.length ≤ cdiv (min (P + F) maxModelLen) g.blockSize ∧
    NullBelow (g.getNumSkippedTokens P / g.blockSize) s.blocks

/-- The blocks skipped at a count that has slots are entries of the table. -/
theorem skipped_le_length {P n : ℕ} (h : P ≤ n * g.blockSize) :
    g.getNumSkippedTokens P / g.blockSize ≤ n := by
  apply Nat.div_le_of_le_mul
  rw [Nat.mul_comm]
  unfold SwaGroup.getNumSkippedTokens
  omega

theorem HeldInv.init {s : AdmissionState H} (h : AdmissionInit g maxModelLen s) :
    HeldInv g F maxModelLen s := by
  obtain ⟨cached, hashes, maxLength, dropEagle, newComputed, hmax, hfind, hblocks, -⟩ := h
  have hspec := findLongestCacheHit_spec g cached hashes maxLength dropEagle
  have hle := findLongestCacheHit_le g cached hashes maxLength dropEagle
  -- the hit is null up to its tail
  have hshape : NullPrefix newComputed := by
    have := nullPrefix_findLongestCacheHit (g := g) cached hashes maxLength dropEagle
    rwa [hfind] at this
  rw [hfind] at hspec hle
  dsimp only at hspec hle
  -- the blocks are those of the hit
  have hlen : s.blocks.length * g.blockSize = s.numComputed := by
    rw [hblocks, length_addLocalComputedBlocks hspec.length_eq]
    exact hspec.length_eq
  refine ⟨Nat.le_of_eq hlen.symm, hblocks ▸ hshape.addLocalComputed, s.numComputed,
    Nat.le_of_eq hlen.symm, ?_, hblocks ▸ nullBelow_addLocalComputed⟩
  -- the hit's blocks end at its length, a count of tokens below both bounds
  apply Nat.le_of_mul_le_mul_right _ g.blockSize_pos
  rw [hlen]
  have hround := le_cdiv_mul (min (s.numComputed + F) maxModelLen) g.blockSize_pos
  omega

/-- A free on the processed count moves `P` up to it. -/
theorem HeldInv.free {s : AdmissionState H} (hI : HeldInv g F maxModelLen s) :
    HeldInv g F maxModelLen { s with blocks := removeSkippedBlocks g s.processed s.blocks } ∧
      ∃ P, s.processed ≤ P ∧ P ≤ s.blocks.length * g.blockSize ∧
        NullBelow (g.getNumSkippedTokens P / g.blockSize)
          (removeSkippedBlocks g s.processed s.blocks) ∧
        s.blocks.length ≤ cdiv (min (P + F) maxModelLen) g.blockSize := by
  obtain ⟨P, hP, hlen, hnull⟩ := hI.window
  have hproc : s.processed ≤ s.blocks.length * g.blockSize :=
    (Nat.sub_le _ _).trans hI.covered
  constructor
  · refine ⟨?_, hI.nullPrefix.removeSkipped, P, ?_, ?_, hnull.removeSkipped⟩
    · rw [length_removeSkippedBlocks]
      exact hI.covered
    · rwa [length_removeSkippedBlocks]
    · rwa [length_removeSkippedBlocks]
  -- the window may already have passed the processed tokens
  · rcases Nat.le_total s.processed P with hle | hle
    · exact ⟨P, hle, hP, hnull.removeSkipped, hlen⟩
    · refine ⟨s.processed, Nat.le_refl _, hproc, hI.nullPrefix.nullBelow_removeSkipped, ?_⟩
      exact hlen.trans (cdiv_mono g.blockSize_pos (by omega))

/-- **The step lemma.** -/
theorem HeldInv.step {s s' : AdmissionState H} {l : AdmissionLabel}
    (hI : HeldInv g F maxModelLen s) (hstep : AdmissionStep g F maxModelLen s l s') :
    HeldInv g F maxModelLen s' := by
  cases hstep with
  -- new blocks come behind the freed ones
  | allocateSlots hlo hhi hblocks hslots =>
    obtain ⟨hfree, P, hle, hP, hnull, hlen⟩ := hI.free
    subst hblocks
    refine ⟨hslots, hfree.nullPrefix.allocate, P, ?_, ?_, hnull.allocate ?_⟩
    · rw [length_allocateNewBlocks, length_removeSkippedBlocks]
      exact hP.trans (Nat.mul_le_mul_right _ (Nat.le_max_left _ _))
    · rw [length_allocateNewBlocks, length_removeSkippedBlocks]
      exact Nat.max_le.mpr ⟨hlen, cdiv_mono g.blockSize_pos (by omega)⟩
    · rw [length_removeSkippedBlocks]
      exact skipped_le_length hP
  | refuse => exact hI.free.1
  -- only the count of tokens moves
  | process hin hrej =>
    exact ⟨(Nat.sub_le _ _).trans hI.covered, hI.nullPrefix, hI.window⟩

/-- **What a request holds stays below the cap.** -/
theorem HeldInv.heldBlocks_le {s : AdmissionState H} (hI : HeldInv g F maxModelLen s) :
    heldBlocks s.blocks ≤ g.admissionCap F maxModelLen := by
  obtain ⟨P, -, hlen, hnull⟩ := hI.window
  calc heldBlocks s.blocks
      ≤ s.blocks.length - g.getNumSkippedTokens P / g.blockSize := SwaFinal.heldBlocks_le hnull
    _ ≤ cdiv (min (P + F) maxModelLen) g.blockSize - g.getNumSkippedTokens P / g.blockSize :=
        Nat.sub_le_sub_right hlen _
    _ ≤ g.admissionCap F maxModelLen := g.le_admissionCap F maxModelLen P

end Invariant

/-- **The raised cap bounds what a request holds**, in every state of every run: the stock
cap of the group, raised by the blocks of the hold. -/
theorem held_blocks_le_admission_cap {H : Type*} (g : SwaGroup) (maxInFlightTokens maxModelLen : ℕ)
    {s : AdmissionState H} (hs : (admissionRun g maxInFlightTokens maxModelLen).Reachable s) :
    heldBlocks s.blocks
      ≤ cdiv (min (g.slidingWindow - 1 + g.baseExtra + maxInFlightTokens) maxModelLen) g.blockSize
        + 1 + cdiv (swaFinalHoldTokens g.slidingWindow g.blockSize g.alignment 1 g.keep)
            g.blockSize := by
  have hI : HeldInv g maxInFlightTokens maxModelLen s :=
    System.Reachable.invariant (I := HeldInv g maxInFlightTokens maxModelLen)
      (fun _ h => HeldInv.init h) (fun _ _ _ hI hstep => HeldInv.step hI hstep) hs
  exact hI.heldBlocks_le

/-- A prompt of eight tokens, scheduled at once: its four blocks are within the cap. -/
theorem held_blocks_le_admission_cap_small :
    heldBlocks (List.replicate 4 (.alloc none) : List (Block ℕ))
      ≤ cdiv (min (3 - 1 + 0 + 8) 16) 2 + 1 + cdiv (swaFinalHoldTokens 3 2 2 1 1) 2 := by
  have hinit : AdmissionInit smallGroup 16 (⟨[], 0, 0⟩ : AdmissionState ℕ) := by
    refine ⟨fun _ => false, fun _ => 0, 0, false, [], Nat.zero_le _, ?_, ?_, rfl⟩
    · simp [findLongestCacheHit, search, searchLoop, Search.matched, popUnaligned, dropEagleBlock]
    · simp [addLocalComputedBlocks, SwaGroup.getNumSkippedTokens]
  have hstep : AdmissionStep smallGroup 8 16 (⟨[], 0, 0⟩ : AdmissionState ℕ) (.allocateSlots 8 8)
      ⟨List.replicate 4 (.alloc none), 0 + 8, 0 + 8⟩ :=
    .allocateSlots (by decide) (by decide) (by decide) (by decide)
  exact held_blocks_le_admission_cap smallGroup 8 16 (.step (.init hinit) trivial hstep)

end SwaFinal
end Dsv41Overlay
