import Dsv41Overlay.SwaFinal.Blocks

/-!
# Looking up a sliding-window prefix

`findLongestCacheHit` scans the blocks of a prompt from right to left for a run
of cached blocks that holds a full window. A run may only start where dropping
the EAGLE block leaves an aligned length. Without a full run, the run that
starts at block `0` counts.

Two facts are proved about it. `findLongestCacheHit_spec` says what it returns:
an aligned prefix whose null entries all lie below the last window
(`HitPrefix`). `le_findLongestCacheHit` says what it does not miss: a cached run
of the needed length that ends at an admissible edge bounds the result from
below. Both follow the search loop, the first with the invariant `RunAt`.
-/

namespace Dsv41Overlay
namespace SwaFinal

variable {H : Type*}

/-! ### The lookup -/

/-- What the right-to-left search ends with. -/
structure Search (H : Type*) where
  computed : List (Block H)
  /-- `num_contiguous_blocks`. -/
  run : ℕ
  /-- `match_found`. -/
  found : Bool

section Lookup

variable (g : SwaGroup) (cached : H → Bool) (hashes : ℕ → H)

/-- The alignment test on block `i` as the right end of a run. -/
def endsUnaligned (dropEagle : Bool) (i : ℕ) : Bool :=
  let postPopBlocks := if dropEagle then i else i + 1
  decide (g.blockSize ≠ g.alignment) && decide (postPopBlocks * g.blockSize % g.alignment ≠ 0)

/-- The search of `find_longest_cache_hit`, from block `i - 1` down to block
`0`. A run may not start at a block whose right edge is not aligned. -/
def searchLoop (need : ℕ) (dropEagle : Bool) : ℕ → List (Block H) → ℕ → Search H
  | 0, computed, run => ⟨computed, run, false⟩
  | i + 1, computed, run =>
    if cached (hashes i) then
      -- the right end of a run has to be aligned
      if run = 0 ∧ endsUnaligned g dropEagle i then
        searchLoop need dropEagle i computed run
      else
        let computed := computed.set i (.alloc (some (hashes i)))
        -- a full run: the entries right of it are trimmed
        if need ≤ run + 1 then ⟨computed.take (i + (run + 1)), run + 1, true⟩
        else searchLoop need dropEagle i computed (run + 1)
    else searchLoop need dropEagle i computed 0

/-- The number of blocks the `while ... computed.pop()` loop leaves of `n`. -/
def alignedBlocks : ℕ → ℕ
  | 0 => 0
  | n + 1 =>
    if g.blockSize ≠ g.alignment ∧ (n + 1) * g.blockSize % g.alignment ≠ 0 then alignedBlocks n
    else n + 1

/-- Pop blocks until the length is aligned. -/
def popUnaligned (computed : List (Block H)) : List (Block H) :=
  computed.take (alignedBlocks g computed.length)

/-- The search of `find_longest_cache_hit`, over the blocks of `maxLength`
tokens. -/
def search (maxLength : ℕ) (dropEagle : Bool) : Search H :=
  searchLoop g cached hashes (contiguousBlocksForHit g.slidingWindow g.blockSize dropEagle)
    dropEagle (maxLength / g.blockSize) (List.replicate (maxLength / g.blockSize) .null) 0

/-- The matched blocks: a full run with everything below it, or the aligned part
of the run from block `0`. -/
def Search.matched (s : Search H) : List (Block H) :=
  if s.found then s.computed else popUnaligned g (s.computed.take s.run)

/-- Drop the EAGLE block and align again. -/
def dropEagleBlock (dropEagle : Bool) (computed : List (Block H)) : List (Block H) :=
  if dropEagle && !computed.isEmpty then popUnaligned g computed.dropLast else computed

/-- `find_longest_cache_hit` on a prompt with block hashes `hashes`: the hit's
blocks and its length in tokens. `cached` is the prefix cache of the group. -/
def findLongestCacheHit (maxLength : ℕ) (dropEagle : Bool) : List (Block H) × ℕ :=
  let computed := dropEagleBlock g dropEagle
    ((search g cached hashes maxLength dropEagle).matched g)
  (computed, computed.length * g.blockSize)

end Lookup

/-! ### Popping to an aligned length -/

section Aligned

variable {g : SwaGroup}

theorem alignedBlocks_le (n : ℕ) : alignedBlocks g n ≤ n := by
  induction n with
  | zero => exact le_rfl
  | succ n ih =>
    unfold alignedBlocks
    split
    · exact ih.trans (Nat.le_succ n)
    · exact le_rfl

theorem alignedBlocks_dvd (n : ℕ) : g.alignment ∣ alignedBlocks g n * g.blockSize := by
  induction n with
  | zero => exact ⟨0, by simp [alignedBlocks]⟩
  | succ n ih =>
    unfold alignedBlocks
    split
    · exact ih
    · next h =>
      rw [not_and_or, not_not, not_not] at h
      obtain h | h := h
      · exact h ▸ Dvd.intro_left _ rfl
      · exact Nat.dvd_of_mod_eq_zero h

/-- An aligned length is left as it is. -/
theorem alignedBlocks_of_dvd {n : ℕ} (h : g.alignment ∣ n * g.blockSize) :
    alignedBlocks g n = n := by
  cases n with
  | zero => rfl
  | succ n =>
    unfold alignedBlocks
    rw [if_neg fun hc => hc.2 (Nat.mod_eq_zero_of_dvd h)]

theorem length_popUnaligned (computed : List (Block H)) :
    (popUnaligned g computed).length = alignedBlocks g computed.length := by
  rw [popUnaligned, List.length_take, Nat.min_eq_left (alignedBlocks_le _)]

theorem popUnaligned_of_dvd {computed : List (Block H)}
    (h : g.alignment ∣ computed.length * g.blockSize) : popUnaligned g computed = computed := by
  rw [popUnaligned, alignedBlocks_of_dvd h, List.take_length]

theorem getElem?_popUnaligned {computed : List (Block H)} {j : ℕ} {b : Block H}
    (h : (popUnaligned g computed)[j]? = some b) : computed[j]? = some b :=
  (getElem?_of_take h).2

end Aligned

/-! ### The search -/

/-- Dropping the EAGLE block from `k` blocks leaves an aligned length. -/
def EdgeAligned (g : SwaGroup) (dropEagle : Bool) (k : ℕ) : Prop :=
  g.alignment ∣ (k - if dropEagle then 1 else 0) * g.blockSize

/-- Blocks `[start, start + run)` of `computed` are a run the search may use. -/
structure RunAt (g : SwaGroup) (hashes : ℕ → H) (dropEagle : Bool) (computed : List (Block H))
    (start run : ℕ) : Prop where
  bound : start + run ≤ computed.length
  filled : ∀ j, start ≤ j → j < start + run → computed[j]? = some (.alloc (some (hashes j)))
  aligned : 0 < run → EdgeAligned g dropEagle (start + run)

/-- Every allocated entry is the cached block of its hash. -/
def Genuine (cached : H → Bool) (hashes : ℕ → H) (computed : List (Block H)) : Prop :=
  ∀ j h, computed[j]? = some (.alloc h) → h = some (hashes j) ∧ cached (hashes j) = true

section Search

variable {g : SwaGroup} {cached : H → Bool} {hashes : ℕ → H} {dropEagle : Bool} {need : ℕ}
  {computed : List (Block H)} {run : ℕ}

/-- The source's test is admissibility of the edge. -/
theorem endsUnaligned_eq_false {i : ℕ} :
    endsUnaligned g dropEagle i = false ↔ EdgeAligned g dropEagle (i + 1) := by
  have hedge : (i + 1 - if dropEagle then 1 else 0) = if dropEagle then i else i + 1 := by
    cases dropEagle <;> simp
  unfold EdgeAligned endsUnaligned
  rw [hedge]
  dsimp only
  rw [Bool.and_eq_false_iff, decide_eq_false_iff_not, decide_eq_false_iff_not, not_not, not_not]
  constructor
  · rintro (h | h)
    · exact h ▸ Dvd.intro_left _ rfl
    · exact Nat.dvd_of_mod_eq_zero h
  · exact fun h => Or.inr (Nat.mod_eq_zero_of_dvd h)

theorem Genuine.set {i : ℕ} (hg : Genuine cached hashes computed) (hi : cached (hashes i) = true) :
    Genuine cached hashes (computed.set i (.alloc (some (hashes i)))) := by
  intro j h hj
  rw [List.getElem?_set] at hj
  split at hj
  · next hij =>
    subst hij
    split at hj
    · cases hj
      exact ⟨rfl, hi⟩
    · exact absurd hj (by simp)
  · exact hg j h hj

theorem Genuine.take {k : ℕ} (hg : Genuine cached hashes computed) :
    Genuine cached hashes (computed.take k) :=
  fun j h hj => hg j h (getElem?_of_take hj).2

/-- A run grows by the block below it. -/
theorem RunAt.grow {i : ℕ} (hr : RunAt g hashes dropEagle computed (i + 1) run)
    (hedge : EdgeAligned g dropEagle (i + 1 + run)) :
    RunAt g hashes dropEagle (computed.set i (.alloc (some (hashes i)))) i (run + 1) where
  bound := by
    have := hr.bound
    rw [List.length_set]
    omega
  filled := by
    intro j h₁ h₂
    have := hr.bound
    rw [List.getElem?_set]
    split
    · next hij =>
      subst hij
      rw [if_pos (by omega)]
    · exact hr.filled j (by omega) (by omega)
  aligned := fun _ => by rwa [show i + (run + 1) = i + 1 + run by omega]

/-- A search that has not found a full run keeps a run, possibly empty. -/
theorem RunAt.zero {i : ℕ} (hi : i ≤ computed.length) :
    RunAt g hashes dropEagle computed i 0 where
  bound := hi
  filled := fun j h₁ h₂ => by omega
  aligned := fun h => absurd h (lt_irrefl 0)

/-- What the search ends with: a full run at the right end of `computed`, or the
run that starts at block `0`. -/
structure SearchSpec (g : SwaGroup) (cached : H → Bool) (hashes : ℕ → H) (dropEagle : Bool)
    (need : ℕ) (s : Search H) : Prop where
  genuine : Genuine cached hashes s.computed
  full : s.found = true → ∃ start, RunAt g hashes dropEagle s.computed start s.run ∧
    start + s.run = s.computed.length ∧ need ≤ s.run ∧ 0 < s.run
  short : s.found = false → RunAt g hashes dropEagle s.computed 0 s.run

/-- **The search invariant.** The run in hand is `[i, i + run)`. -/
theorem searchLoop_spec {i : ℕ} (hr : RunAt g hashes dropEagle computed i run)
    (hg : Genuine cached hashes computed) :
    SearchSpec g cached hashes dropEagle need
      (searchLoop g cached hashes need dropEagle i computed run) := by
  -- induction on the blocks left; the run in hand is `[i, i + run)`
  induction i generalizing computed run with
  | zero => exact ⟨hg, fun h => absurd h (by simp [searchLoop]), fun _ => hr⟩
  | succ i ih =>
    have hbound := hr.bound
    unfold searchLoop
    by_cases hi : cached (hashes i) = true
    · rw [if_pos hi]
      by_cases hskip : run = 0 ∧ endsUnaligned g dropEagle i = true
      · rw [if_pos hskip, hskip.1]
        exact ih (RunAt.zero (by omega)) hg
      · rw [if_neg hskip]
        -- a run starts at an aligned edge and keeps it while it grows
        have hedge : EdgeAligned g dropEagle (i + 1 + run) := by
          by_cases h0 : run = 0
          · subst h0
            rw [not_and, Bool.not_eq_true] at hskip
            exact endsUnaligned_eq_false.mp (hskip rfl)
          · exact hr.aligned (Nat.pos_of_ne_zero h0)
        have hgrow := hr.grow hedge
        dsimp only
        split
        · next hneed =>
          -- a full run: everything right of it is trimmed
          refine ⟨(hg.set hi).take, fun _ => ⟨i, ?_, ?_, hneed, Nat.succ_pos _⟩,
            fun h => absurd h (by simp)⟩
          · refine ⟨?_, fun j h₁ h₂ => ?_, hgrow.aligned⟩
            · rw [List.length_take]
              exact le_min le_rfl hgrow.bound
            · rw [List.getElem?_take_of_lt h₂]
              exact hgrow.filled j h₁ h₂
          · rw [List.length_take, Nat.min_eq_left hgrow.bound]
        · exact ih hgrow (hg.set hi)
    · rw [if_neg hi]
      exact ih (RunAt.zero (by omega)) hg

/-- **The search does not miss a cached run.** `[e - need, e)` is cached and its
edge admissible; the run in hand, if any, reaches at least to `e`. -/
theorem searchLoop_found {i e : ℕ} (hcached : ∀ j, e - need ≤ j → j < e → cached (hashes j) = true)
    (hedge : EdgeAligned g dropEagle e) (hneed : need ≤ e) (hbound : i + run ≤ computed.length)
    (hreach : e ≤ i + run) (hlow : e - need ≤ i) (hrun : run < need) :
    (searchLoop g cached hashes need dropEagle i computed run).found = true ∧
      e ≤ (searchLoop g cached hashes need dropEagle i computed run).computed.length := by
  -- induction on the blocks left; block `i` is above the tail or inside it
  induction i generalizing computed run with
  | zero => omega
  | succ i ih =>
    unfold searchLoop
    by_cases hin : i < e
    · -- inside the tail: the block is cached and the run grows
      rw [if_pos (hcached i (by omega) hin)]
      have hskip : ¬ (run = 0 ∧ endsUnaligned g dropEagle i = true) := by
        rintro ⟨rfl, hmod⟩
        obtain rfl : e = i + 1 := by omega
        rw [endsUnaligned_eq_false.mpr hedge] at hmod
        exact Bool.noConfusion hmod
      rw [if_neg hskip]
      dsimp only
      split
      · refine ⟨rfl, ?_⟩
        rw [List.length_take, List.length_set]
        omega
      · next hlt => exact ih (by rw [List.length_set]; omega) (by omega) (by omega) (by omega)
    · -- above the tail: whatever happens, the run in hand lies above it
      by_cases hi : cached (hashes i) = true
      · rw [if_pos hi]
        by_cases hskip : run = 0 ∧ endsUnaligned g dropEagle i = true
        · rw [if_pos hskip]
          exact ih (by omega) (by omega) (by omega) hrun
        · rw [if_neg hskip]
          dsimp only
          split
          · refine ⟨rfl, ?_⟩
            rw [List.length_take, List.length_set]
            omega
          · next hlt => exact ih (by rw [List.length_set]; omega) (by omega) (by omega) (by omega)
      · rw [if_neg hi]
        exact ih (by omega) (by omega) (by omega) (by omega)

/-- Below the full run the search has left every entry null. -/
theorem searchLoop_null_below {i : ℕ} (hbound : i + run ≤ computed.length)
    (hnull : ∀ j < i, computed[j]? = some .null)
    (hf : (searchLoop g cached hashes need dropEagle i computed run).found = true) {j : ℕ}
    (hj : j + (searchLoop g cached hashes need dropEagle i computed run).run
      < (searchLoop g cached hashes need dropEagle i computed run).computed.length) :
    (searchLoop g cached hashes need dropEagle i computed run).computed[j]? = some .null := by
  induction i generalizing computed run with
  | zero => exact absurd hf (by simp [searchLoop])
  | succ i ih =>
    have hbelow : ∀ j < i, (computed.set i (.alloc (some (hashes i))))[j]? = some .null := by
      intro j hj
      rw [List.getElem?_set_ne (by omega)]
      exact hnull j (by omega)
    unfold searchLoop at hf hj ⊢
    by_cases hi : cached (hashes i) = true
    · rw [if_pos hi] at hf hj ⊢
      by_cases hskip : run = 0 ∧ endsUnaligned g dropEagle i = true
      · rw [if_pos hskip] at hf hj ⊢
        exact ih (by omega) (fun j hj => hnull j (by omega)) hf hj
      · rw [if_neg hskip] at hf hj ⊢
        by_cases hneed : need ≤ run + 1
        · -- the run ends the search; its entries and those below stay
          dsimp only at hf hj ⊢
          rw [if_pos hneed] at hf hj ⊢
          rw [List.length_take, List.length_set] at hj
          dsimp only at hj ⊢
          rw [List.getElem?_take_of_lt (by omega)]
          exact hbelow j (by omega)
        · dsimp only at hf hj ⊢
          rw [if_neg hneed] at hf hj ⊢
          exact ih (by rw [List.length_set]; omega) hbelow hf hj
    · rw [if_neg hi] at hf hj ⊢
      exact ih (by omega) (fun j hj => hnull j (by omega)) hf hj

end Search

/-! ### What the lookup returns -/

/-- The blocks of a hit of `length` tokens: aligned, and null only below the
last window. -/
structure HitPrefix (g : SwaGroup) (cached : H → Bool) (hashes : ℕ → H)
    (blocks : List (Block H)) (length : ℕ) : Prop where
  length_eq : blocks.length * g.blockSize = length
  aligned : g.alignment ∣ length
  genuine : Genuine cached hashes blocks
  null_below : ∀ i, blocks[i]? = some .null → i + g.windowBlocks < blocks.length

section Find

variable {g : SwaGroup} {cached : H → Bool} {hashes : ℕ → H} {dropEagle : Bool} {maxLength : ℕ}

/-- The EAGLE drop on blocks whose edge is admissible. -/
theorem dropEagleBlock_of_edgeAligned {computed : List (Block H)}
    (hedge : EdgeAligned g dropEagle computed.length) (hne : computed ≠ []) :
    dropEagleBlock g dropEagle computed
      = computed.take (computed.length - if dropEagle then 1 else 0) := by
  have hempty : computed.isEmpty = false := by simpa using hne
  unfold EdgeAligned at hedge
  unfold dropEagleBlock
  cases dropEagle with
  | false => simp
  | true =>
    rw [hempty]
    simp only [Bool.not_false, Bool.and_true, if_true] at hedge ⊢
    rw [popUnaligned_of_dvd (by rwa [List.length_dropLast]), List.dropLast_eq_take]

/-- An entry after the EAGLE drop is one before it. -/
theorem getElem?_dropEagleBlock {computed : List (Block H)} {j : ℕ} {b : Block H}
    (h : (dropEagleBlock g dropEagle computed)[j]? = some b) : computed[j]? = some b := by
  unfold dropEagleBlock at h
  split at h
  · have h₁ := getElem?_popUnaligned h
    rw [List.dropLast_eq_take] at h₁
    exact (getElem?_of_take h₁).2
  · exact h

theorem length_dropEagleBlock_le {computed : List (Block H)} :
    (dropEagleBlock g dropEagle computed).length ≤ computed.length := by
  unfold dropEagleBlock
  split
  · rw [length_popUnaligned]
    refine (alignedBlocks_le _).trans ?_
    rw [List.length_dropLast]
    exact Nat.sub_le _ _
  · exact le_rfl

/-- The EAGLE drop keeps an aligned length aligned. -/
theorem dropEagleBlock_dvd {computed : List (Block H)}
    (h : g.alignment ∣ computed.length * g.blockSize) :
    g.alignment ∣ (dropEagleBlock g dropEagle computed).length * g.blockSize := by
  unfold dropEagleBlock
  split
  · rw [length_popUnaligned]
    exact alignedBlocks_dvd _
  · exact h

/-- The number of blocks of a hit, apart from the one EAGLE drops, is at least a
window's. -/
theorem contiguousBlocksForHit_eq :
    contiguousBlocksForHit g.slidingWindow g.blockSize dropEagle
      = g.windowBlocks + if dropEagle then 1 else 0 := rfl

theorem search_spec (g : SwaGroup) (cached : H → Bool) (hashes : ℕ → H) (maxLength : ℕ)
    (dropEagle : Bool) :
    SearchSpec g cached hashes dropEagle
      (contiguousBlocksForHit g.slidingWindow g.blockSize dropEagle)
      (search g cached hashes maxLength dropEagle) := by
  -- before the search every entry is null
  refine searchLoop_spec (RunAt.zero (by rw [List.length_replicate])) fun j h hj => ?_
  rw [List.getElem?_replicate] at hj
  split at hj
  · exact absurd (Option.some.inj hj) (by simp)
  · exact absurd hj (by simp)

/-- A hit found as a full run is the run's prefix without the EAGLE block. -/
theorem findLongestCacheHit_of_found
    (hf : (search g cached hashes maxLength dropEagle).found = true) :
    (findLongestCacheHit g cached hashes maxLength dropEagle).1
      = (search g cached hashes maxLength dropEagle).computed.take
          ((search g cached hashes maxLength dropEagle).computed.length
            - if dropEagle then 1 else 0) := by
  obtain ⟨start, hrun, hlen, -, hpos⟩ := (search_spec g cached hashes maxLength dropEagle).full hf
  -- a full run is not empty, so EAGLE has a block to drop
  have hne : (search g cached hashes maxLength dropEagle).computed ≠ [] := by
    intro h
    rw [h, List.length_nil] at hlen
    omega
  unfold findLongestCacheHit Search.matched
  rw [if_pos hf]
  exact dropEagleBlock_of_edgeAligned (hlen ▸ hrun.aligned hpos) hne

theorem matched_of_not_found (hf : (search g cached hashes maxLength dropEagle).found = false) :
    (search g cached hashes maxLength dropEagle).matched g
      = popUnaligned g ((search g cached hashes maxLength dropEagle).computed.take
          (search g cached hashes maxLength dropEagle).run) := by
  unfold Search.matched
  rw [hf]
  rfl

/-- A hit without a full run is part of the run from block `0`: popping keeps its entries,
and none of them is null. -/
theorem getElem?_of_not_found (hf : (search g cached hashes maxLength dropEagle).found = false)
    {j : ℕ} {b : Block H}
    (hb : (findLongestCacheHit g cached hashes maxLength dropEagle).1[j]? = some b) :
    b = .alloc (some (hashes j)) ∧ j < (search g cached hashes maxLength dropEagle).run ∧
      (search g cached hashes maxLength dropEagle).computed[j]? = some b := by
  have h := getElem?_dropEagleBlock hb
  rw [matched_of_not_found hf] at h
  obtain ⟨hlt, hj⟩ := getElem?_of_take (getElem?_popUnaligned h)
  have hfilled := ((search_spec g cached hashes maxLength dropEagle).short hf).filled j
    (Nat.zero_le j) (by omega)
  exact ⟨Option.some.inj (hj.symm.trans hfilled), hlt, hj⟩

/-- **What the lookup returns** is a hit prefix. -/
theorem findLongestCacheHit_spec (g : SwaGroup) (cached : H → Bool) (hashes : ℕ → H)
    (maxLength : ℕ) (dropEagle : Bool) :
    HitPrefix g cached hashes (findLongestCacheHit g cached hashes maxLength dropEagle).1
      (findLongestCacheHit g cached hashes maxLength dropEagle).2 := by
  have hspec := search_spec g cached hashes maxLength dropEagle
  by_cases hf : (search g cached hashes maxLength dropEagle).found = true
  case pos =>
    obtain ⟨start, hrun, hlen, hneed, hpos⟩ := hspec.full hf
    have hblocks := findLongestCacheHit_of_found hf
    have hlength : (findLongestCacheHit g cached hashes maxLength dropEagle).1.length
        = (search g cached hashes maxLength dropEagle).computed.length
          - if dropEagle then 1 else 0 := by
      rw [hblocks, List.length_take, Nat.min_eq_left (Nat.sub_le _ _)]
    refine ⟨rfl, ?_, ?_, fun i hi => ?_⟩
    · have hedge := hrun.aligned hpos
      rw [hlen] at hedge
      unfold EdgeAligned at hedge
      rw [← hlength] at hedge
      exact hedge
    · rw [hblocks]
      exact hspec.genuine.take
    · -- the run itself holds no null entry, so a null one lies below it
      have hlt : i < start := by
        by_contra hge
        rw [hblocks] at hi
        obtain ⟨hlt, hi⟩ := getElem?_of_take hi
        rw [hrun.filled i (by omega) (by omega)] at hi
        exact absurd hi (by simp)
      rw [hlength]
      rw [contiguousBlocksForHit_eq] at hneed
      omega
  case neg =>
    have hshort := Bool.eq_false_of_not_eq_true hf
    refine ⟨rfl, ?_, fun j h hj => hspec.genuine j h (getElem?_of_not_found hshort hj).2.2,
      fun i hi => ?_⟩
    · refine dropEagleBlock_dvd ?_
      rw [matched_of_not_found hshort, length_popUnaligned]
      exact alignedBlocks_dvd _
    · exact absurd (getElem?_of_not_found hshort hi).1 (by simp)

/-- The search only trims. -/
theorem length_searchLoop_le {need i run : ℕ} {computed : List (Block H)} :
    (searchLoop g cached hashes need dropEagle i computed run).computed.length
      ≤ computed.length := by
  induction i generalizing computed run with
  | zero => exact le_rfl
  | succ i ih =>
    unfold searchLoop
    split
    · split
      · exact ih
      · dsimp only
        split
        · rw [List.length_take, List.length_set]
          exact Nat.min_le_right _ _
        · exact ih.trans (by rw [List.length_set])
    · exact ih

/-- A hit is no longer than asked for. -/
theorem findLongestCacheHit_le (g : SwaGroup) (cached : H → Bool) (hashes : ℕ → H)
    (maxLength : ℕ) (dropEagle : Bool) :
    (findLongestCacheHit g cached hashes maxLength dropEagle).2 ≤ maxLength := by
  have hsearch : (search g cached hashes maxLength dropEagle).computed.length
      ≤ maxLength / g.blockSize :=
    length_searchLoop_le.trans (by rw [List.length_replicate])
  -- neither trimming nor popping adds a block
  have hmatched : ((search g cached hashes maxLength dropEagle).matched g).length
      ≤ maxLength / g.blockSize := by
    unfold Search.matched
    split
    · exact hsearch
    · rw [length_popUnaligned]
      exact (alignedBlocks_le _).trans ((List.length_take_le' _ _).trans hsearch)
  exact (Nat.mul_le_mul_right _ (length_dropEagleBlock_le.trans hmatched)).trans
    (Nat.div_mul_le_self _ _)

/-- **What the lookup does not miss.** A cached run of the needed length whose
edge `e` is admissible bounds the hit from below. -/
theorem le_findLongestCacheHit {e : ℕ}
    (hneed : 0 < contiguousBlocksForHit g.slidingWindow g.blockSize dropEagle)
    (hle : contiguousBlocksForHit g.slidingWindow g.blockSize dropEagle ≤ e)
    (hmax : e ≤ maxLength / g.blockSize) (hedge : EdgeAligned g dropEagle e)
    (hcached : ∀ j, e - contiguousBlocksForHit g.slidingWindow g.blockSize dropEagle ≤ j →
      j < e → cached (hashes j) = true) :
    (e - if dropEagle then 1 else 0) * g.blockSize
      ≤ (findLongestCacheHit g cached hashes maxLength dropEagle).2 := by
  -- the search finds a run that ends at `e` or later
  obtain ⟨hf, hlen⟩ : (search g cached hashes maxLength dropEagle).found = true ∧
      e ≤ (search g cached hashes maxLength dropEagle).computed.length :=
    searchLoop_found hcached hedge hle (by rw [List.length_replicate]; exact le_rfl) hmax
      ((Nat.sub_le _ _).trans hmax) hneed
  have hblocks := findLongestCacheHit_of_found hf
  have hsnd : (findLongestCacheHit g cached hashes maxLength dropEagle).2
      = (findLongestCacheHit g cached hashes maxLength dropEagle).1.length * g.blockSize := rfl
  rw [hsnd, hblocks, List.length_take, Nat.min_eq_left (Nat.sub_le _ _)]
  exact Nat.mul_le_mul_right _ (Nat.sub_le_sub_right hlen _)

end Find

end SwaFinal
end Dsv41Overlay
