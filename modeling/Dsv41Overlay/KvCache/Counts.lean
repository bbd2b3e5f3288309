import Dsv41Overlay.KvCache.Keys

/-!
# Reference counts and the free queue

`held i` is the number of references that the users of the pool hold to block `i`.
`Counted` says that the pool agrees with them: the count of every block but the null block
is the number of its references, and the free queue holds exactly the blocks without one.
`get_new_blocks`, `touch` and `free_blocks` keep it, where users give back only what they
hold, and never fail otherwise than by saying that there are not enough blocks.

The null block is counted by nobody: it is handed out as often as wanted.
-/

namespace Dsv41Overlay.KvCache

open Fallible

/-- The references to each block. -/
abbrev Ledger := ℕ → ℕ

namespace Ledger

/-- One more reference to each of the blocks. -/
def add (held : Ledger) (is : List ℕ) : Ledger := fun i => held i + is.count i

/-- One reference fewer. -/
def sub (held : Ledger) (is : List ℕ) : Ledger := fun i => held i - is.count i

/-- The blocks that lose their last reference, in the order in which they lose it. -/
def released : Ledger → List ℕ → List ℕ
  | _, [] => []
  | held, i :: is =>
    if i ≠ 0 ∧ held i = 1 then i :: released (held.sub [i]) is else released (held.sub [i]) is

variable {held : Ledger} {i j : ℕ} {is js : List ℕ}

@[simp] theorem add_nil : held.add [] = held := rfl

@[simp] theorem sub_nil : held.sub [] = held := rfl

/-- Holding one list of blocks and then another is holding both. -/
theorem add_add : (held.add is).add js = held.add (is ++ js) := by
  funext i
  rw [add, add, add, List.count_append, Nat.add_assoc]

/-- Giving back one list of blocks and then another is giving back both. -/
theorem sub_sub : (held.sub is).sub js = held.sub (is ++ js) := by
  funext i
  rw [sub, sub, sub, List.count_append, Nat.sub_sub]

/-- What is left to give back is still held after the first block was given back. -/
theorem count_le_sub (hle : ∀ j, j ≠ 0 → (i :: is).count j ≤ held j) :
    ∀ j, j ≠ 0 → is.count j ≤ held.sub [i] j := by
  intro j hj
  have h := hle j hj
  rw [List.count_cons] at h
  rw [sub, List.count_singleton]
  omega

/-- The blocks released are those whose references are all given back. -/
theorem mem_released (hle : ∀ i, i ≠ 0 → is.count i ≤ held i) :
    j ∈ held.released is ↔ j ∈ is ∧ j ≠ 0 ∧ held j = is.count j := by
  induction is generalizing held with
  | nil => simp [released]
  | cons i is ih =>
    have hle' := count_le_sub hle
    -- the head is released when its last reference goes
    have hmem : j ∈ held.released (i :: is) ↔
        (j = i ∧ i ≠ 0 ∧ held i = 1) ∨ j ∈ released (held.sub [i]) is := by
      rw [released]
      split <;> simp_all
    rw [hmem, ih hle', List.mem_cons, List.count_cons, sub, List.count_singleton]
    -- the block in question is the head, or stands in the rest
    by_cases hji : j = i
    · subst hji
      have := hle j
      rw [List.count_cons_self] at this
      have hcount : j ∈ is ↔ 0 < is.count j := List.count_pos_iff.symm
      simp only [beq_self_eq_true, if_true, true_and, true_or, hcount]
      constructor
      · rintro (⟨h0, h1⟩ | ⟨hpos, h0, h1⟩)
        · exact ⟨h0, by have := this h0; omega⟩
        · exact ⟨h0, by omega⟩
      · rintro ⟨h0, h1⟩
        by_cases hpos : 0 < is.count j
        · exact .inr ⟨hpos, h0, by omega⟩
        · exact .inl ⟨h0, by omega⟩
    · have hij : (i == j) = false := by simpa using fun h => hji h.symm
      simp [hji, hij]

/-- Only the last reference releases a block, so no block is released twice. -/
theorem nodup_released (hle : ∀ i, i ≠ 0 → is.count i ≤ held i) : (held.released is).Nodup := by
  induction is generalizing held with
  | nil => exact List.nodup_nil
  | cons i is ih =>
    have hle' := count_le_sub hle
    rw [released]
    split
    · rename_i hi
      refine List.nodup_cons.mpr ⟨fun hmem => ?_, ih hle'⟩
      -- the last reference of the block is gone: it is not released again
      obtain ⟨hin, -⟩ := (mem_released hle').mp hmem
      have := hle i hi.1
      have hpos := List.count_pos_iff.mpr hin
      rw [List.count_cons_self] at this
      omega
    · exact ih hle'

end Ledger

namespace BlockPool

/-- The pool agrees with the references of its users, and `xs` is its queue. -/
structure Counted (p : BlockPool) (held : Ledger) (xs : List ℕ) : Prop where
  pos : 0 < p.numGpuBlocks
  queue : p.freeBlockQueue.Holds xs
  mem_iff : ∀ i, i ∈ xs ↔ i ≠ 0 ∧ i < p.numGpuBlocks ∧ held i = 0
  refCnt : ∀ i, i ≠ 0 → i < p.numGpuBlocks → (p.blocks i).refCnt = held i
  isNull : ∀ i, (p.blocks i).isNull = decide (i = 0)

variable {p p' : BlockPool} {held : Ledger} {xs is : List ℕ} {i j n : ℕ}

/-- The accounts read the counters and the queue only. -/
theorem Counted.of_sameCounts (h : p.Counted held xs) (hs : p.SameCounts p') :
    p'.Counted held xs where
  pos := hs.numGpuBlocks ▸ h.pos
  queue := hs.freeBlockQueue ▸ h.queue
  mem_iff i := by rw [hs.numGpuBlocks, h.mem_iff]
  refCnt i hi hn := by
    rw [hs.refCnt]
    exact h.refCnt i hi (hs.numGpuBlocks ▸ hn)
  isNull i := by rw [hs.isNull, h.isNull]

/-- The number of free blocks is the length of the queue. -/
theorem Counted.getNumFreeBlocks (h : p.Counted held xs) : p.getNumFreeBlocks = xs.length :=
  h.queue.size

/-- The queue has every block that is neither the null block nor held. -/
theorem Counted.length (h : p.Counted held xs) :
    xs.length + ((List.range p.numGpuBlocks).filter fun i => i ≠ 0 ∧ held i ≠ 0).length + 1
      = p.numGpuBlocks := by
  -- every block is free, held, or the null block
  have hperm : (xs ++ (List.range p.numGpuBlocks).filter (fun i => i ≠ 0 ∧ held i ≠ 0)
      ++ [0]).Perm (List.range p.numGpuBlocks) := by
    refine (List.perm_ext_iff_of_nodup ?_ List.nodup_range).mpr fun i => ?_
    · refine List.nodup_append.mpr ⟨List.nodup_append.mpr ⟨h.queue.nodup,
        List.nodup_range.filter _, ?_⟩, List.nodup_singleton 0, ?_⟩
      · rintro i hi j hj rfl
        have hfree := ((h.mem_iff i).mp hi).2.2
        simp [hfree] at hj
      · rintro i hi j hj rfl
        simp only [List.mem_singleton] at hj
        simp [hj, h.mem_iff] at hi
    · simp only [List.mem_append, h.mem_iff, List.mem_filter, List.mem_range, List.mem_singleton,
        decide_eq_true_eq]
      have hpos := h.pos
      by_cases hi : i = 0
      · simp [hi, hpos]
      · simp only [hi, or_false]
        tauto
  have hlen := hperm.length_eq
  rw [List.length_append, List.length_append, List.length_range] at hlen
  exact hlen

/-- Counting references changes no key. -/
theorem addRef_sameKeys {d : ℤ} : p.SameKeys (p.modify i fun b => b.addRef d) := by
  have hsame : ((p.blocks i).addRef d).blockHash = (p.blocks i).blockHash ∧
      ((p.blocks i).addRef d).blockHashNumTokens = (p.blocks i).blockHashNumTokens := ⟨rfl, rfl⟩
  exact ⟨rfl, rfl, update_field KVCacheBlock.blockHash hsame.1,
    update_field KVCacheBlock.blockHashNumTokens hsame.2⟩

/-- Counting references does not move the null block. -/
theorem addRef_isNull {d : ℤ} :
    ((p.modify i fun b => b.addRef d).blocks j).isNull = (p.blocks j).isNull := by
  have hsame : ((p.blocks i).addRef d).isNull = (p.blocks i).isNull := rfl
  exact update_field KVCacheBlock.isNull hsame j

/-- Only the block that is referenced has its counter changed. -/
theorem addRef_refCnt {d : ℤ} : ((p.modify i fun b => b.addRef d).blocks j).refCnt
    = (p.blocks j).refCnt + if j = i then d else 0 := by
  by_cases hj : j = i
  · rw [hj, modify_self, if_pos rfl]
    rfl
  · rw [modify_of_ne hj, if_neg hj, Int.add_zero]

/-- One block counts once. -/
theorem count_one : [i].count j = if j = i then 1 else 0 := by
  rw [List.count_singleton]
  by_cases hj : j = i
  · rw [if_pos hj, if_pos (beq_iff_eq.mpr hj.symm)]
  · rw [if_neg hj, if_neg fun h => hj (beq_iff_eq.mp h).symm]

/-! ### `get_new_blocks` -/

/-- The loop over the blocks that leave the queue. -/
theorem takeAll_spec (hk : p.Keyed) (hnodup : is.Nodup)
    (hfree : ∀ i ∈ is, (p.blocks i).refCnt = 0) :
    ∃ p', is.foldlM takeBlock p = .ok p' ∧ p'.Keyed ∧ p'.numGpuBlocks = p.numGpuBlocks ∧
      p'.enableCaching = p.enableCaching ∧ p'.freeBlockQueue = p.freeBlockQueue ∧
      (∀ j, (p'.blocks j).refCnt = (p.blocks j).refCnt + is.count j) ∧
      (∀ j, (p'.blocks j).isNull = (p.blocks j).isNull) ∧
      ∀ j k, p'.HasKey j k ↔ p.HasKey j k ∧ ¬(p.enableCaching = true ∧ j ∈ is) := by
  induction is generalizing p with
  | nil => exact ⟨p, rfl, hk, rfl, rfl, rfl, fun j => by simp, fun _ => rfl, fun j k => by simp⟩
  | cons i is ih =>
    obtain ⟨hi, hnodup⟩ := List.nodup_cons.mp hnodup
    obtain ⟨hzero, hfree⟩ := List.forall_mem_cons.mp hfree
    -- the block loses its keys where there is a prefix cache
    obtain ⟨p₁, hp₁, hk₁, hsame₁, hhas₁⟩ : ∃ p₁ : BlockPool,
        (if p.enableCaching then (p.maybeEvictCachedBlock i).2 else p) = p₁ ∧ p₁.Keyed ∧
        p.SameCounts p₁ ∧
        ∀ j k, p₁.HasKey j k ↔ p.HasKey j k ∧ ¬(p.enableCaching = true ∧ j = i) := by
      cases hcache : p.enableCaching with
      | false => exact ⟨p, rfl, hk, .refl p, fun j k => by simp⟩
      | true =>
        obtain ⟨hk₁, hsame₁, hhas₁, -⟩ := removeCachedBlockHashes_spec hk i
        refine ⟨(p.maybeEvictCachedBlock i).2, if_pos rfl, hk₁, hsame₁, fun j k => ?_⟩
        rw [eq_self, true_and]
        exact hhas₁ j k
    -- then it is referenced once
    have hkeys : p₁.SameKeys (p₁.modify i fun b => b.addRef 1) := addRef_sameKeys
    have hstep : takeBlock p i = .ok (p₁.modify i fun b => b.addRef 1) := by
      have hz : (p₁.blocks i).refCnt = 0 := (hsame₁.refCnt i).trans hzero
      rw [takeBlock, hp₁, require, if_pos hz]
      rfl
    have hcount (j : ℕ) : ((p₁.modify i fun b => b.addRef 1).blocks j).refCnt
        = (p.blocks j).refCnt + [i].count j := by
      rw [addRef_refCnt, hsame₁.refCnt, count_one]
      split <;> rfl
    -- the other blocks of the list are still free
    obtain ⟨p₂, h₂, hk₂, hnum₂, hcache₂, hq₂, href₂, hnull₂, hhas₂⟩ :=
      ih (hkeys.keyed hk₁) hnodup fun j hj => by
        have hji : j ≠ i := fun hji => hi (hji ▸ hj)
        rw [modify_of_ne hji, hsame₁.refCnt, hfree j hj]
    refine ⟨p₂, ?_, hk₂, hnum₂.trans hsame₁.numGpuBlocks, hcache₂.trans hsame₁.enableCaching,
      hq₂.trans hsame₁.freeBlockQueue, fun j => ?_, fun j => ?_, fun j k => ?_⟩
    · rw [List.foldlM_cons, hstep]
      exact h₂
    · have hsplit : (i :: is).count j = [i].count j + is.count j := by
        rw [← List.count_append, List.singleton_append]
      rw [href₂, hcount, hsplit]
      omega
    · rw [hnull₂, addRef_isNull, hsame₁.isNull]
    · have hcaching : (p₁.modify i fun b => b.addRef 1).enableCaching = p.enableCaching :=
        hsame₁.enableCaching
      rw [hhas₂, hkeys.hasKey_iff, hhas₁, hcaching, List.mem_cons, and_or_left,
        not_or, and_assoc]

theorem filterMap_id (xs : List ℕ) : (xs.map Node.block).filterMap Node.id? = xs := by
  rw [List.filterMap_map]
  exact List.filterMap_some

/-- **`get_new_blocks`** hands out the blocks at the front of the queue, which nobody
holds, and takes their keys where there is a prefix cache. -/
theorem getNewBlocks_ok (hc : p.Counted held xs) (hk : p.Keyed) (hn : n ≤ xs.length) :
    ∃ p', p.getNewBlocks n = .ok (xs.take n, p') ∧
      p'.Counted (held.add (xs.take n)) (xs.drop n) ∧ p'.Keyed ∧
      p'.numGpuBlocks = p.numGpuBlocks ∧ p'.enableCaching = p.enableCaching ∧
      ∀ j k, p'.HasKey j k ↔ p.HasKey j k ∧ ¬(p.enableCaching = true ∧ j ∈ xs.take n) := by
  obtain ⟨q, hpop, hq⟩ := Queue.popleftN_ok hc.queue hn
  -- the front of the queue is free in the accounts
  have hmem : ∀ i ∈ xs.take n, i ≠ 0 ∧ i < p.numGpuBlocks ∧ held i = 0 :=
    fun i hi => (hc.mem_iff i).mp (List.mem_of_mem_take hi)
  have hnodup : (xs.take n).Nodup := hc.queue.nodup.sublist (List.take_sublist n xs)
  have hfree : ∀ i ∈ xs.take n, (p.blocks i).refCnt = 0 := by
    intro i hi
    obtain ⟨h0, hlt, hheld⟩ := hmem i hi
    rw [hc.refCnt i h0 hlt, hheld]
    rfl
  -- the queue alone does not matter to the keys
  obtain ⟨p₁, hp₁⟩ : ∃ p₁ : BlockPool, p₁ = { p with freeBlockQueue := q } := ⟨_, rfl⟩
  have hkeys : p.SameKeys p₁ := hp₁ ▸ ⟨rfl, rfl, fun _ => rfl, fun _ => rfl⟩
  have hfree₁ : ∀ i ∈ xs.take n, (p₁.blocks i).refCnt = 0 := hp₁ ▸ hfree
  obtain ⟨p₂, htake, hk₂, hnum, hcaching, hq₂, href, hnull, hhas⟩ :=
    takeAll_spec (hkeys.keyed hk) hnodup hfree₁
  rw [hp₁] at hnum hcaching hq₂ href hnull
  refine ⟨p₂, ?_, ⟨hnum ▸ hc.pos, hq₂ ▸ hq, fun i => ?_, fun i h0 hlt => ?_, fun i => ?_⟩, hk₂,
    hnum, hcaching, fun j k => ?_⟩
  -- the request goes through
  · have hrequire : (n : ℤ) ≤ p.getNumFreeBlocks := by
      rw [hc.getNumFreeBlocks]
      omega
    rw [getNewBlocks, require, if_pos hrequire]
    simp only [hpop, filterMap_id, bind, Except.bind, pure, Except.pure]
    rw [hp₁] at htake
    rw [htake]
  -- exactly the taken blocks have left the queue
  · have hsplit : i ∈ xs ↔ i ∈ xs.take n ∨ i ∈ xs.drop n := by
      rw [← List.mem_append, List.take_append_drop]
    have hdisj : i ∈ xs.take n → i ∉ xs.drop n := by
      have happ := hc.queue.nodup
      rw [← List.take_append_drop n xs] at happ
      exact fun h h' => (List.nodup_append.mp happ).2.2 i h i h' rfl
    have hcount : (xs.take n).count i = 0 ↔ i ∉ xs.take n := List.count_eq_zero
    rw [hnum, Ledger.add, Nat.add_eq_zero_iff, hcount]
    constructor
    · intro h
      obtain ⟨h0, hlt, hheld⟩ := (hc.mem_iff i).mp (hsplit.mpr (.inr h))
      exact ⟨h0, hlt, hheld, fun h' => hdisj h' h⟩
    · rintro ⟨h0, hlt, hheld, hnot⟩
      exact (hsplit.mp ((hc.mem_iff i).mpr ⟨h0, hlt, hheld⟩)).resolve_left hnot
  · rw [href, hc.refCnt i h0 (hnum ▸ hlt), Ledger.add, Int.natCast_add]
  · rw [hnull, hc.isNull]
  · have hsame : p₁.enableCaching = p.enableCaching := hp₁ ▸ rfl
    rw [hhas, hkeys.hasKey_iff, hsame]

/-- A pool with too few free blocks refuses the request. -/
theorem getNewBlocks_error (hc : p.Counted held xs) (hn : xs.length < n) :
    p.getNewBlocks n = .error .valueError := by
  have hrequire : ¬(n : ℤ) ≤ p.getNumFreeBlocks := by
    rw [hc.getNumFreeBlocks]
    omega
  rw [getNewBlocks, require, if_neg hrequire]
  rfl

/-! ### `touch` -/

/-- Touching a block adds one reference and takes the block out of the queue if it was there. -/
theorem touchBlock_ok (hc : p.Counted held xs) (hi : i < p.numGpuBlocks) :
    ∃ p', p.touchBlock i = .ok p' ∧ p'.Counted (held.add [i]) (xs.erase i) ∧ p.SameKeys p' ∧
      p'.numGpuBlocks = p.numGpuBlocks ∧ p'.enableCaching = p.enableCaching := by
  -- the queue after the block has left it, if it was there
  obtain ⟨q, hq, hholds⟩ : ∃ q, p.queueWithout i = .ok q ∧ q.Holds (xs.erase i) := by
    rw [queueWithout]
    by_cases hmem : i ∈ xs
    · obtain ⟨h0, hlt, hheld⟩ := (hc.mem_iff i).mp hmem
      have hcond : (p.blocks i).refCnt = 0 ∧ (p.blocks i).isNull = false := by
        rw [hc.refCnt i h0 hlt, hheld, hc.isNull]
        exact ⟨rfl, decide_eq_false h0⟩
      rw [if_pos hcond]
      exact Queue.remove_mem hc.queue hmem
    · have hcond : ¬((p.blocks i).refCnt = 0 ∧ (p.blocks i).isNull = false) := by
        rintro ⟨href, hnull⟩
        rw [hc.isNull] at hnull
        have h0 := of_decide_eq_false hnull
        rw [hc.refCnt i h0 hi] at href
        exact hmem ((hc.mem_iff i).mpr ⟨h0, hi, by omega⟩)
      rw [if_neg hcond, List.erase_of_not_mem hmem]
      exact ⟨_, rfl, hc.queue⟩
  obtain ⟨p₁, hp₁⟩ : ∃ p₁ : BlockPool, p₁ = { p with freeBlockQueue := q } := ⟨_, rfl⟩
  have hkeys : p.SameKeys p₁ := hp₁ ▸ ⟨rfl, rfl, fun _ => rfl, fun _ => rfl⟩
  have hblocks : p₁.blocks = p.blocks := hp₁ ▸ rfl
  have hnum : p₁.numGpuBlocks = p.numGpuBlocks := hp₁ ▸ rfl
  refine ⟨p₁.modify i fun b => b.addRef 1, ?_, ⟨hnum ▸ hc.pos, ?_, fun j => ?_, fun j h0 hlt => ?_,
    fun j => ?_⟩, hkeys.trans addRef_sameKeys, hnum, hp₁ ▸ rfl⟩
  · rw [touchBlock]
    simp only [hq, bind, Except.bind, pure, Except.pure, hp₁]
  · rw [hp₁]
    exact hholds
  · have hnum' : (p₁.modify i fun b => b.addRef 1).numGpuBlocks = p.numGpuBlocks := hnum
    rw [hc.queue.nodup.mem_erase_iff, hc.mem_iff, hnum', Ledger.add, count_one]
    by_cases hj : j = i
    · simp [hj]
    · simp [hj]
  · have hlt' : j < p.numGpuBlocks := hnum ▸ hlt
    rw [addRef_refCnt, hblocks, hc.refCnt j h0 hlt', Ledger.add, count_one]
    split <;> simp
  · rw [addRef_isNull, hblocks, hc.isNull]

/-- **`touch`** takes a reference to each of the blocks, which leave the queue. -/
theorem touch_ok (hc : p.Counted held xs) (hlt : ∀ i ∈ is, i < p.numGpuBlocks) :
    ∃ p', p.touch is = .ok p' ∧ p'.Counted (held.add is) (xs.diff is) ∧ p.SameKeys p' ∧
      p'.numGpuBlocks = p.numGpuBlocks ∧ p'.enableCaching = p.enableCaching := by
  induction is generalizing p held xs with
  | nil => exact ⟨p, rfl, hc, .refl p, rfl, rfl⟩
  | cons i is ih =>
    obtain ⟨hi, his⟩ := List.forall_mem_cons.mp hlt
    obtain ⟨p₁, h₁, hc₁, hkeys₁, hnum₁, hcaching₁⟩ := touchBlock_ok hc hi
    obtain ⟨p₂, h₂, hc₂, hkeys₂, hnum₂, hcaching₂⟩ :=
      ih hc₁ (fun j hj => hnum₁ ▸ his j hj)
    refine ⟨p₂, ?_, ?_, hkeys₁.trans hkeys₂, hnum₂.trans hnum₁, hcaching₂.trans hcaching₁⟩
    · rw [touch, List.foldlM_cons, h₁]
      exact h₂
    · rwa [Ledger.add_add, List.singleton_append, ← List.diff_cons] at hc₂

/-! ### `free_blocks` -/

/-- A block that is not worth keeping: it is the first to be used again. -/
def EvictFirst (p : BlockPool) (i : ℕ) : Prop :=
  (p.blocks i).blockHash = none ∨ p.enableCaching = false

instance : DecidablePred p.EvictFirst :=
  fun i => inferInstanceAs (Decidable ((p.blocks i).blockHash = none ∨ p.enableCaching = false))

/-- Freeing walks the list: it sorts the released blocks by whether they keep a hash and leaves the
counters at what is still held. -/
theorem freeLoop_spec (hnull : ∀ j, (p.blocks j).isNull = decide (j = 0))
    (href : ∀ j, j ≠ 0 → j < p.numGpuBlocks → (p.blocks j).refCnt = held j)
    (hlt : ∀ i ∈ is, i < p.numGpuBlocks) (hle : ∀ j, j ≠ 0 → is.count j ≤ held j) :
    ∃ p', freeLoop is p = ((held.released is).filter fun i => p.EvictFirst i,
        (held.released is).filter fun i => ¬p.EvictFirst i, p') ∧
      p.SameKeys p' ∧ p'.numGpuBlocks = p.numGpuBlocks ∧ p'.enableCaching = p.enableCaching ∧
      p'.freeBlockQueue = p.freeBlockQueue ∧
      (∀ j, (p'.blocks j).refCnt = (p.blocks j).refCnt - is.count j) ∧
      ∀ j, (p'.blocks j).isNull = (p.blocks j).isNull := by
  induction is generalizing p held with
  | nil => exact ⟨p, rfl, .refl p, rfl, rfl, rfl, fun j => by simp, fun _ => rfl⟩
  | cons i is ih =>
    obtain ⟨hi, his⟩ := List.forall_mem_cons.mp hlt
    obtain ⟨p₁, hp₁⟩ : ∃ p₁, p₁ = p.modify i fun b => b.addRef (-1) := ⟨_, rfl⟩
    have hkeys₁ : p.SameKeys p₁ := hp₁ ▸ addRef_sameKeys
    have hnum₁ : p₁.numGpuBlocks = p.numGpuBlocks := hp₁ ▸ rfl
    have hcaching₁ : p₁.enableCaching = p.enableCaching := hp₁ ▸ rfl
    have hnull₁ (j : ℕ) : (p₁.blocks j).isNull = decide (j = 0) := by
      rw [hp₁, addRef_isNull, hnull]
    have href₁ (j : ℕ) (h0 : j ≠ 0) (hj : j < p₁.numGpuBlocks) :
        (p₁.blocks j).refCnt = held.sub [i] j := by
      have h := hle j h0
      rw [List.count_cons] at h
      rw [hp₁, addRef_refCnt, href j h0 (hnum₁ ▸ hj), Ledger.sub, count_one]
      by_cases hji : j = i
      · rw [hji, beq_self_eq_true, if_pos rfl] at h
        rw [if_pos hji, if_pos hji, hji]
        omega
      · rw [if_neg hji, if_neg hji]
        rfl
    obtain ⟨p₂, h₂, hkeys₂, hnum₂, hcaching₂, hq₂, href₂, hnull₂⟩ :=
      ih hnull₁ href₁ (fun j hj => hnum₁ ▸ his j hj) (Ledger.count_le_sub hle)
    have hfirst (j : ℕ) : p₁.EvictFirst j ↔ p.EvictFirst j := by
      rw [EvictFirst, EvictFirst, hkeys₁.blockHash, hcaching₁]
    simp only [hfirst] at h₂
    refine ⟨p₂, ?_, hkeys₁.trans hkeys₂, hnum₂.trans hnum₁, hcaching₂.trans hcaching₁,
      hq₂.trans (hp₁ ▸ rfl), fun j => ?_, fun j => ?_⟩
    · -- the block is released where this was its last reference
      have hlast : ((p₁.blocks i).refCnt = 0 ∧ (p₁.blocks i).isNull = false) ↔
          i ≠ 0 ∧ held i = 1 := by
        rw [hnull₁, decide_eq_false_iff_not]
        constructor
        · rintro ⟨hz, h0⟩
          have h := hle i h0
          rw [List.count_cons_self] at h
          rw [href₁ i h0 (hnum₁ ▸ hi), Ledger.sub, List.count_singleton_self] at hz
          exact ⟨h0, by omega⟩
        · rintro ⟨h0, h1⟩
          rw [href₁ i h0 (hnum₁ ▸ hi), Ledger.sub, h1, List.count_singleton_self]
          exact ⟨rfl, h0⟩
      have hcond : ((p₁.blocks i).blockHash = none ∨ p₁.enableCaching = false) ↔ p.EvictFirst i :=
        hfirst i
      rw [freeLoop, ← hp₁]
      simp only [h₂, hlast, hcond, Ledger.released]
      by_cases hrel : i ≠ 0 ∧ held i = 1
      · rw [if_pos hrel, if_pos hrel]
        by_cases hev : p.EvictFirst i
        · simp [hev]
        · simp [hev]
      · rw [if_neg hrel, if_neg hrel]
    · have hcount : (i :: is).count j = [i].count j + is.count j := by
        rw [← List.count_append, List.singleton_append]
      rw [href₂, hp₁, addRef_refCnt, hcount, count_one]
      split <;> omega
    · rw [hnull₂, hp₁, addRef_isNull]

/-- **`free_blocks`** gives references back. The blocks without any are queued: those
without a key in front, the others behind. -/
theorem freeBlocks_ok (hc : p.Counted held xs) (hlt : ∀ i ∈ is, i < p.numGpuBlocks)
    (hle : ∀ j, j ≠ 0 → is.count j ≤ held j) :
    ∃ p', p.freeBlocks is = .ok p' ∧ p'.Counted (held.sub is)
        (((held.released is).filter fun i => p.EvictFirst i) ++ xs ++
          (held.released is).filter fun i => ¬p.EvictFirst i) ∧
      p.SameKeys p' ∧ p'.numGpuBlocks = p.numGpuBlocks ∧ p'.enableCaching = p.enableCaching := by
  obtain ⟨p₁, hloop, hkeys, hnum, hcaching, hq, href, hnull⟩ :=
    freeLoop_spec hc.isNull hc.refCnt hlt hle
  obtain ⟨first, hfirst⟩ : ∃ first, first = (held.released is).filter fun i => p.EvictFirst i :=
    ⟨_, rfl⟩
  obtain ⟨last, hlast⟩ : ∃ last, last = (held.released is).filter fun i => ¬p.EvictFirst i :=
    ⟨_, rfl⟩
  rw [← hfirst, ← hlast] at hloop ⊢
  have hmem (i : ℕ) : i ∈ first ∨ i ∈ last ↔ i ∈ held.released is := by
    rw [hfirst, hlast, List.mem_filter, List.mem_filter, ← and_or_left]
    simp [em]
  have hnodup : (first ++ xs ++ last).Nodup := by
    have hrel := Ledger.nodup_released hle
    have hqueued (i : ℕ) (hi : i ∈ held.released is) : i ∉ xs := by
      intro hx
      obtain ⟨hin, -, hheld⟩ := (Ledger.mem_released hle).mp hi
      have hpos := List.count_pos_iff.mpr hin
      have hzero := ((hc.mem_iff i).mp hx).2.2
      omega
    refine List.nodup_append.mpr ⟨List.nodup_append.mpr
      ⟨hfirst ▸ hrel.filter _, hc.queue.nodup, ?_⟩, hlast ▸ hrel.filter _, ?_⟩
    · rintro i hi j hj rfl
      exact hqueued i ((hmem i).mp (.inl hi)) hj
    · rintro i hi j hj rfl
      obtain hi | hi := List.mem_append.mp hi
      · rw [hfirst] at hi
        rw [hlast] at hj
        have h := of_decide_eq_true (List.mem_filter.mp hi).2
        exact of_decide_eq_true (List.mem_filter.mp hj).2 h
      · exact hqueued i ((hmem i).mp (.inr hj)) hi
  obtain ⟨q₁, hq₁, hholds₁⟩ := Queue.prependN_ok (hq ▸ hc.queue) (List.nodup_append.mp hnodup).1
  obtain ⟨q₂, hq₂, hholds₂⟩ := Queue.appendN_ok hholds₁ hnodup
  refine ⟨{ p₁ with freeBlockQueue := q₂ }, ?_, ⟨hnum ▸ hc.pos, hholds₂, fun i => ?_,
    fun i h0 hi => ?_, fun i => (hnull i).trans (hc.isNull i)⟩,
    hkeys.trans ⟨rfl, rfl, fun _ => rfl, fun _ => rfl⟩, hnum, hcaching⟩
  · rw [freeBlocks, hloop]
    simp only [hq₁, hq₂, bind, Except.bind, pure, Except.pure]
  · have hsplit : i ∈ first ++ xs ++ last ↔ i ∈ held.released is ∨ i ∈ xs := by
      rw [← hmem, List.mem_append, List.mem_append]
      tauto
    rw [hsplit, Ledger.mem_released hle, hc.mem_iff, Ledger.sub]
    change _ ↔ i ≠ 0 ∧ i < p₁.numGpuBlocks ∧ held i - is.count i = 0
    rw [hnum]
    constructor
    · rintro (⟨hin, h0, hheld⟩ | ⟨h0, hi, hheld⟩)
      · exact ⟨h0, hlt i hin, by omega⟩
      · exact ⟨h0, hi, by omega⟩
    · rintro ⟨h0, hi, hdiff⟩
      have h := hle i h0
      by_cases hin : i ∈ is
      · exact .inl ⟨hin, h0, by omega⟩
      · have hzero := List.count_eq_zero.mpr hin
        exact .inr ⟨h0, hi, by omega⟩
  · change (p₁.blocks i).refCnt = (held i - is.count i : ℕ)
    have hi' : i < p.numGpuBlocks := hnum ▸ hi
    have h := hle i h0
    rw [href, hc.refCnt i h0 hi']
    omega

/-! ### A new pool -/

/-- A new pool has all blocks but the null block in its queue. -/
theorem init_ok {caching : Bool} {hashBlockSize : ℕ} (hn : 0 < n) :
    ∃ p, init n caching hashBlockSize = .ok p ∧
      p.Counted (fun _ => 0) ((List.range n).tail) ∧ p.Keyed ∧ p.numGpuBlocks = n ∧
      p.enableCaching = caching ∧ p.hashBlockSize = hashBlockSize ∧
      ∀ j k, ¬p.HasKey j k := by
  obtain ⟨m, rfl⟩ : ∃ m, n = m + 1 := ⟨n - 1, by omega⟩
  have hrange : List.range (m + 1) = 0 :: (List.range (m + 1)).tail := by
    rw [List.range_succ_eq_map]
    rfl
  have hinit := Queue.init_holds (m + 1)
  rw [hrange] at hinit
  obtain ⟨q, hpop, hq⟩ := Queue.popleft_cons hinit
  refine ⟨_, by rw [init, require, if_pos hn, hpop]; rfl, ⟨hn, hq, fun i => ?_, fun _ _ _ => rfl,
    fun i => ?_⟩, ⟨fun key i => ?_, fun _ _ => rfl, fun _ _ => rfl⟩, rfl, rfl, rfl, fun j k => ?_⟩
  · have hmem : i ∈ List.range (m + 1) ↔ i = 0 ∨ i ∈ (List.range (m + 1)).tail := by
      rw [hrange, List.mem_cons, List.tail_cons]
    have hnot : 0 ∉ (List.range (m + 1)).tail := by
      have hnodup := List.nodup_range (n := m + 1)
      rw [hrange] at hnodup
      exact (List.nodup_cons.mp hnodup).1
    rw [List.mem_range] at hmem
    constructor
    · intro hi
      refine ⟨?_, hmem.mpr (.inr hi), rfl⟩
      rintro rfl
      exact hnot hi
    · rintro ⟨h0, hi, -⟩
      exact (hmem.mp hi).resolve_left h0
  · simp
  · simp [HasKey, BlockHashToBlockMap.contain]
  · simp [HasKey]

end BlockPool

end Dsv41Overlay.KvCache
