import Dsv41Overlay.KvCache.Counts
import Dsv41Overlay.Lib.System
import Mathlib.Algebra.GroupWithZero.Nat
import Mathlib.Data.List.Perm.Subperm
import Mathlib.Data.List.Dedup

/-!
# Runs of the block pool

The pool under any sequence of calls. Its users hold references, which they got from
`get_new_blocks` and `touch` and give back with `free_blocks`; what they promise is to give
back only what they hold and to name only blocks that there are (`Promise`).

`PoolState` records beside the pool what it does not know: the references that are held,
and for each block the prefixes whose keys and values its memory holds. A block handed out
by `get_new_blocks` is about to be written and holds no prefix any more; a block that is
cached holds the prefix of the key. The main results are that the pool agrees with the
references in every reachable state, so that its assertions never fail
(`pool_never_fails`), that a block found in the cache still holds the prefix asked for
(`cached_block_valid`), and that the queue evicts in order: a free block keeps its keys
until as many blocks have been taken as were queued before it (`lru_survives`).
-/

namespace Dsv41Overlay.KvCache

open Fallible

/-- A call of the pool that changes it. -/
inductive Call
  | cacheFullBlocks (requestHashes : List BlockHash) (blocks : List ℕ)
      (numCachedBlocks numFullBlocks blockSize kvCacheGroupId : ℕ) (blockMask : Option (List Bool))
  | cachePartialBlock (requestHashes : List BlockHash)
      (block numTokens kvCacheGroupId blockSize : ℕ)
  | moveBlockHashes (src dst : ℕ)
  | evictBlocks (blockIds : List ℕ)
  | resetPrefixCache
  | getNewBlocks (numBlocks : ℕ)
  | touch (blocks : List ℕ)
  | freeBlocks (orderedBlocks : List ℕ)

/-- The pool and what its users know. -/
structure PoolState where
  pool : BlockPool
  /-- The references held. -/
  held : Ledger
  /-- The block's memory holds the keys and values of the prefix. -/
  valid : ℕ → BlockHashWithGroupId → Prop

namespace Call

/-- The call: the blocks that it hands out, and the pool. -/
def run (p : BlockPool) : Call → Except Raised (List ℕ × BlockPool)
  | cacheFullBlocks hashes blocks c n bs g mask =>
    (p.cacheFullBlocks hashes blocks c n bs g mask).map fun p => ([], p)
  | cachePartialBlock hashes i n g bs =>
    (p.cachePartialBlock hashes i n g bs).map fun r => ([], r.2)
  | moveBlockHashes src dst => (p.moveBlockHashes src dst).map fun p => ([], p)
  | evictBlocks is => (p.evictBlocks is).map fun p => ([], p)
  | resetPrefixCache => .ok ([], p.resetPrefixCache.2)
  | getNewBlocks n => p.getNewBlocks n
  | touch is => (p.touch is).map fun p => ([], p)
  | freeBlocks is => (p.freeBlocks is).map fun p => ([], p)

/-- The references after the call, which has handed out `ids`. -/
def heldAfter (ids : List ℕ) (held : Ledger) : Call → Ledger
  | touch is => held.add is
  | freeBlocks is => held.sub is
  | _ => held.add ids

/-- The prefixes that memory holds after the call. -/
def validAfter (ids : List ℕ) (s : PoolState) : Call → ℕ → BlockHashWithGroupId → Prop
  | cacheFullBlocks hashes blocks c n bs g _, j, k =>
    s.valid j k ∨ s.pool.StoresFull hashes blocks c n bs g j k
  | cachePartialBlock hashes i n g _, j, k => s.valid j k ∨ s.pool.StoresPartial hashes i n g j k
  -- the private copy: the owner of `src` goes on writing into it
  | moveBlockHashes src dst, j, k =>
    s.valid j k ∧ j ≠ src ∧ j ≠ dst ∨ j = dst ∧ s.valid src k
  | getNewBlocks _, j, k => s.valid j k ∧ j ∉ ids
  | _, j, k => s.valid j k

/-- What the users of the pool promise. -/
def Promise (s : PoolState) : Call → Prop
  | cacheFullBlocks _ blocks _ _ _ _ _ => ∀ i ∈ blocks, i < s.pool.numGpuBlocks
  | cachePartialBlock _ i _ _ _ => i < s.pool.numGpuBlocks
  | moveBlockHashes _ dst => dst ≠ 0 ∧ dst < s.pool.numGpuBlocks
  | touch is => ∀ i ∈ is, i < s.pool.numGpuBlocks
  | freeBlocks is =>
    (∀ i ∈ is, i < s.pool.numGpuBlocks) ∧ ∀ i, i ≠ 0 → is.count i ≤ s.held i
  | evictBlocks _ | resetPrefixCache | getNewBlocks _ => True

end Call

/-- The runs of a pool of `n` blocks. -/
def poolRuns (n : ℕ) (enableCaching : Bool) (hashBlockSize : ℕ) : System PoolState Call where
  init s := BlockPool.init n enableCaching hashBlockSize = .ok s.pool ∧ s.held = (fun _ => 0) ∧
    s.valid = fun _ _ => False
  step s call s' := ∃ ids, call.run s.pool = .ok (ids, s'.pool) ∧
    s'.held = call.heldAfter ids s.held ∧ s'.valid = call.validAfter ids s

/-- The pool agrees with its users. -/
structure PoolInv (n : ℕ) (enableCaching : Bool) (s : PoolState) : Prop where
  counted : ∃ xs, s.pool.Counted s.held xs
  keyed : s.pool.Keyed
  numGpuBlocks : s.pool.numGpuBlocks = n
  caching : s.pool.enableCaching = enableCaching
  /-- Only blocks that there are have keys, and not the null block. -/
  hasKey : ∀ i key, s.pool.HasKey i key → i ≠ 0 ∧ i < n
  /-- A key is that of the prefix which memory holds. -/
  valid : enableCaching = true → ∀ i key, s.pool.HasKey i key → s.valid i key

variable {n hashBlockSize : ℕ} {enableCaching : Bool} {s s' : PoolState} {call : Call}

/-- A fresh pool meets the invariant: every block but the null block is free. -/
theorem PoolInv.init (h : (poolRuns n enableCaching hashBlockSize).init s) :
    PoolInv n enableCaching s := by
  obtain ⟨hinit, hheld, -⟩ := h
  have hpos : 0 < n := by
    obtain ⟨_, hpos, -⟩ := bind_eq_ok.mp hinit
    exact require_eq_ok.mp hpos
  obtain ⟨p, hp, hc, hk, hnum, hcaching, -, hnone⟩ := BlockPool.init_ok hpos
  obtain rfl := Except.ok.inj (hp.symm.trans hinit)
  exact ⟨⟨_, hheld ▸ hc⟩, hk, hnum, hcaching, fun i key h => absurd h (hnone i key),
    fun _ i key h => absurd h (hnone i key)⟩

/-- A call that changes keys only. -/
theorem PoolInv.of_keyStep {stored : ℕ → BlockHashWithGroupId → Prop} {is : List ℕ}
    (hI : PoolInv n enableCaching s) (hstep : BlockPool.KeyStep stored is s.pool s'.pool)
    (hheld : s'.held = s.held) (hstored : ∀ j k, stored j k → j ≠ 0 ∧ j < n)
    (hvalid : ∀ j k, s.valid j k ∨ stored j k → s'.valid j k) : PoolInv n enableCaching s' where
  counted := by
    obtain ⟨xs, hc⟩ := hI.counted
    exact ⟨xs, hheld ▸ hc.of_sameCounts hstep.same⟩
  keyed := hstep.keyed
  numGpuBlocks := hstep.same.numGpuBlocks.trans hI.numGpuBlocks
  caching := hstep.same.enableCaching.trans hI.caching
  hasKey i key h := (hstep.hasKey i key h).elim (hI.hasKey i key) (hstored i key)
  valid hcaching i key h :=
    hvalid i key ((hstep.hasKey i key h).imp_left (hI.valid hcaching i key))

/-- A call that changes references only. -/
theorem PoolInv.of_sameKeys {xs : List ℕ} (hI : PoolInv n enableCaching s)
    (hc : s'.pool.Counted s'.held xs) (hkeys : s.pool.SameKeys s'.pool)
    (hnum : s'.pool.numGpuBlocks = s.pool.numGpuBlocks)
    (hcaching : s'.pool.enableCaching = s.pool.enableCaching) (hvalid : s'.valid = s.valid) :
    PoolInv n enableCaching s' where
  counted := ⟨xs, hc⟩
  keyed := hkeys.keyed hI.keyed
  numGpuBlocks := hnum.trans hI.numGpuBlocks
  caching := hcaching.trans hI.caching
  hasKey i key h := hI.hasKey i key (hkeys.hasKey_iff.mp h)
  valid hc i key h := hvalid ▸ hI.valid hc i key (hkeys.hasKey_iff.mp h)

/-- A block that is not marked null is not block 0. -/
theorem PoolInv.null (hI : PoolInv n enableCaching s) {i : ℕ}
    (h : (s.pool.blocks i).isNull = false) : i ≠ 0 := by
  obtain ⟨xs, hc⟩ := hI.counted
  rw [hc.isNull] at h
  exact of_decide_eq_false h

/-- A mapped result is the image of a result. -/
theorem map_eq_ok {α β : Type} {x : Except Raised α} {f : α → β} {b : β}
    (h : x.map f = .ok b) : ∃ a, x = .ok a ∧ f a = b := by
  cases x with
  | error e => cases h
  | ok a => exact ⟨a, rfl, Except.ok.inj h⟩

/-- **The step lemma.** -/
theorem PoolInv.step (hI : PoolInv n enableCaching s) (hpromise : call.Promise s)
    (hstep : (poolRuns n enableCaching hashBlockSize).step s call s') :
    PoolInv n enableCaching s' := by
  obtain ⟨ids, hrun, hheld, hvalid⟩ := hstep
  have hnum := hI.numGpuBlocks
  obtain ⟨xs, hc⟩ := hI.counted
  cases call with
  | cacheFullBlocks hashes blocks c m bs g mask =>
    obtain ⟨p, hp, heq⟩ := map_eq_ok hrun
    obtain ⟨rfl, rfl⟩ := Prod.mk.inj heq
    refine hI.of_keyStep (BlockPool.cacheFullBlocks_keyStep hI.keyed hp) hheld ?_ ?_
    · rintro j k ⟨hnull, idx, -, -, -, -, hblock, -⟩
      exact ⟨hI.null hnull, hnum ▸ hpromise j (List.mem_of_getElem? hblock)⟩
    · intro j k hjk
      rw [hvalid]
      exact hjk
  | cachePartialBlock hashes i m g bs =>
    obtain ⟨⟨ret, p⟩, hp, heq⟩ := map_eq_ok hrun
    obtain ⟨rfl, rfl⟩ := Prod.mk.inj heq
    refine hI.of_keyStep (BlockPool.cachePartialBlock_keyStep hI.keyed hp) hheld ?_ ?_
    · rintro j k ⟨hnull, rfl, -⟩
      exact ⟨hI.null hnull, hnum ▸ hpromise⟩
    · intro j k hjk
      rw [hvalid]
      exact hjk
  | moveBlockHashes src dst =>
    obtain ⟨p, hp, heq⟩ := map_eq_ok hrun
    obtain ⟨rfl, rfl⟩ := Prod.mk.inj heq
    -- the block that gets the keys had none
    have hempty : ∀ k, ¬s.pool.HasKey dst k := by
      obtain ⟨_, hnone, -⟩ := bind_eq_ok.mp hp
      exact fun k => hI.keyed.not_hasKey (require_eq_ok.mp hnone)
    obtain ⟨hk', hsame, hhas⟩ := BlockPool.moveBlockHashes_spec hI.keyed hp
    refine ⟨⟨xs, hheld ▸ hc.of_sameCounts hsame⟩, hk', hsame.numGpuBlocks.trans hnum,
      hsame.enableCaching.trans hI.caching, fun i key h => ?_, fun hcaching i key h => ?_⟩
    · obtain ⟨h, -⟩ | ⟨rfl, -⟩ := (hhas i key).mp h
      · exact hI.hasKey i key h
      · exact ⟨hpromise.1, hnum ▸ hpromise.2⟩
    · rw [hvalid]
      obtain ⟨h, hsrc⟩ | ⟨rfl, h⟩ := (hhas i key).mp h
      · refine .inl ⟨hI.valid hcaching i key h, hsrc, ?_⟩
        rintro rfl
        exact hempty key h
      · exact .inr ⟨rfl, hI.valid hcaching src key h⟩
  | evictBlocks is =>
    obtain ⟨p, hp, heq⟩ := map_eq_ok hrun
    obtain ⟨rfl, rfl⟩ := Prod.mk.inj heq
    exact hI.of_keyStep (BlockPool.evictBlocks_keyStep hI.keyed hp) hheld
      (fun _ _ => False.elim) fun j k h => hvalid ▸ h.resolve_right id
  | resetPrefixCache =>
    obtain ⟨rfl, hp⟩ := Prod.mk.inj (Except.ok.inj hrun)
    obtain ⟨hk', hsame, hhas⟩ := BlockPool.resetPrefixCache_spec hI.keyed
    rw [hp] at hk' hsame hhas
    refine ⟨⟨xs, hheld ▸ hc.of_sameCounts hsame⟩, hk', hsame.numGpuBlocks.trans hnum,
      hsame.enableCaching.trans hI.caching, fun i key h => hI.hasKey i key ((hhas i key).mp h).1,
      fun hcaching i key h => ?_⟩
    rw [hvalid]
    exact hI.valid hcaching i key ((hhas i key).mp h).1
  | getNewBlocks m =>
    -- it has succeeded, so there were enough blocks
    have hm : m ≤ xs.length := by
      by_contra hm
      have herr := BlockPool.getNewBlocks_error hc (not_le.mp hm)
      exact absurd (herr.symm.trans hrun) (by simp)
    obtain ⟨p, hp, hc', hk', hnum', hcaching', hhas⟩ := BlockPool.getNewBlocks_ok hc hI.keyed hm
    obtain ⟨rfl, hpool⟩ := Prod.mk.inj (Except.ok.inj (hp.symm.trans hrun))
    rw [hpool] at hc' hk' hnum' hcaching' hhas
    have hheld : s'.held = s.held.add (xs.take m) := hheld
    refine ⟨⟨_, hheld.symm ▸ hc'⟩, hk', hnum'.trans hnum, hcaching'.trans hI.caching,
      fun i key h => hI.hasKey i key ((hhas i key).mp h).1, fun hcaching i key h => ?_⟩
    obtain ⟨h, hout⟩ := (hhas i key).mp h
    rw [hvalid]
    exact ⟨hI.valid hcaching i key h, fun hi => hout ⟨hI.caching.trans hcaching, hi⟩⟩
  | touch is =>
    -- a touched block keeps its keys
    obtain ⟨p, hp, heq⟩ := map_eq_ok hrun
    obtain ⟨rfl, rfl⟩ := Prod.mk.inj heq
    obtain ⟨p', hp', hc', hkeys, hnum', hcaching'⟩ := BlockPool.touch_ok hc hpromise
    obtain rfl := Except.ok.inj (hp'.symm.trans hp)
    have hheld : s'.held = s.held.add is := hheld
    exact hI.of_sameKeys (hheld.symm ▸ hc') hkeys hnum' hcaching' hvalid
  | freeBlocks is =>
    obtain ⟨p, hp, heq⟩ := map_eq_ok hrun
    -- so does a block that is given back
    obtain ⟨rfl, rfl⟩ := Prod.mk.inj heq
    obtain ⟨p', hp', hc', hkeys, hnum', hcaching'⟩ :=
      BlockPool.freeBlocks_ok hc hpromise.1 hpromise.2
    obtain rfl := Except.ok.inj (hp'.symm.trans hp)
    have hheld : s'.held = s.held.sub is := hheld
    exact hI.of_sameKeys (hheld.symm ▸ hc') hkeys hnum' hcaching' hvalid

/-- The invariant holds in every state that promised calls reach. -/
theorem PoolInv.of_reachable
    (h : (poolRuns n enableCaching hashBlockSize).ReachableVia (fun s call => call.Promise s) s) :
    PoolInv n enableCaching s :=
  h.invariant (fun _ => PoolInv.init) fun _ _ _ hI hpromise hstep => hI.step hpromise hstep

/-! ### A small run -/

/-- The state after a call, where it succeeds. -/
def PoolState.after (s : PoolState) (call : Call) : PoolState :=
  match call.run s.pool with
  | .ok r => ⟨r.2, call.heldAfter r.1 s.held, call.validAfter r.1 s⟩
  | .error _ => s

/-- A call that does not raise steps to the state after it. -/
theorem PoolState.step_after (h : (call.run s.pool).isOk = true) :
    (poolRuns n enableCaching hashBlockSize).step s call (s.after call) := by
  rw [PoolState.after]
  cases hrun : call.run s.pool with
  | error e =>
    rw [hrun] at h
    cases h
  | ok r => exact ⟨r.1, hrun, rfl, rfl⟩

/-- A pool of five blocks before any call. -/
def smallPool : PoolState where
  pool :=
    { numGpuBlocks := 5, enableCaching := true, hashBlockSize := 2
      blocks := fun i => ⟨0, none, none, decide (Node.block i = .block 0)⟩
      freeBlockQueue := match (Queue.init 5).popleft with
        | .ok r => r.2
        | .error _ => Queue.init 5
      cachedBlockHashToBlock := fun _ => none
      cachedBlockHashesByBlock := fun _ => none }
  held := fun _ => 0
  valid := fun _ _ => False

/-- A request has got two blocks, the first of them is full and cached. -/
def cachedPool : PoolState :=
  (smallPool.after (.getNewBlocks 2)).after (.cacheFullBlocks [[7], [8]] [1, 2] 0 1 2 0 none)

/-- The request has given its blocks back. -/
def freedPool : PoolState := cachedPool.after (.freeBlocks [2, 1])

/-- The pool that has cached two blocks is reached by promised calls. -/
theorem cachedPool_reachable :
    (poolRuns 5 true 2).ReachableVia (fun s call => call.Promise s) cachedPool := by
  have hget : ((Call.getNewBlocks 2).run smallPool.pool).isOk = true := rfl
  have hcache : ((Call.cacheFullBlocks [[7], [8]] [1, 2] 0 1 2 0 none).run
    (smallPool.after (.getNewBlocks 2)).pool).isOk = true := rfl
  refine .step (.step (.init ⟨rfl, rfl, rfl⟩) ?_ (PoolState.step_after hget)) ?_
    (PoolState.step_after hcache)
  · trivial
  · change ∀ i ∈ [1, 2], i < 5
    decide

/-- So is the pool that has freed them again. -/
theorem freedPool_reachable :
    (poolRuns 5 true 2).ReachableVia (fun s call => call.Promise s) freedPool := by
  have hfree : ((Call.freeBlocks [2, 1]).run cachedPool.pool).isOk = true := rfl
  have hpromise : (Call.freeBlocks [2, 1]).Promise cachedPool := by
    refine ⟨show ∀ i ∈ [2, 1], i < 5 by decide, fun i _ => ?_⟩
    change [2, 1].count i ≤ 0 + [1, 2].count i + 0
    rw [Nat.add_zero, Nat.zero_add]
    exact ((List.Perm.swap 1 2 []).count_eq i).le
  exact .step cachedPool_reachable hpromise (PoolState.step_after hfree)

/-! ### The pool never fails -/

/-- What holds of a pool between two calls. -/
structure PoolSound (n : ℕ) (enableCaching : Bool) (s : PoolState) (xs : List ℕ) : Prop where
  /-- Walking the links of the queue yields `xs`. -/
  queue : s.pool.freeBlockQueue.getAllFreeBlocks (n + 1) = .ok (some (xs.map .block))
  nodup : xs.Nodup
  /-- The queue has the blocks that nobody holds. -/
  mem_iff : ∀ i, i ∈ xs ↔ i ≠ 0 ∧ i < n ∧ s.held i = 0
  /-- A reference count counts the references. -/
  refCnt : ∀ i, i ≠ 0 → i < n → (s.pool.blocks i).refCnt = s.held i
  /-- Free blocks, held blocks and the null block are all the blocks there are. -/
  conserved : s.pool.getNumFreeBlocks +
    ((List.range n).filter fun i => i ≠ 0 ∧ s.held i ≠ 0).length + 1 = n
  /-- Blocks can be had as long as there are enough; they belong to nobody else, and their
  new owner may write into them. -/
  getNewBlocks : ∀ m, m ≤ xs.length → ∃ p', s.pool.getNewBlocks m = .ok (xs.take m, p') ∧
    ∀ i ∈ xs.take m, (p'.blocks i).refCnt = 1 ∧
      (enableCaching = true → p'.isBlockWritable i = true)
  getNewBlocks_error : ∀ m, xs.length < m → s.pool.getNewBlocks m = .error .valueError
  touch : ∀ is, (∀ i ∈ is, i < n) → ∃ p', s.pool.touch is = .ok p'
  freeBlocks : ∀ is, (∀ i ∈ is, i < n) → (∀ i, i ≠ 0 → is.count i ≤ s.held i) →
    ∃ p', s.pool.freeBlocks is = .ok p'
  evictBlocks : ∀ is, (∀ i ∈ is, i < n) → ∃ p', s.pool.evictBlocks is = .ok p'
  /-- The cache can be reset when all references have been given back, and only then. -/
  reset : s.pool.resetPrefixCache.1 = true ↔ ∀ i, i ≠ 0 → i < n → s.held i = 0

/-- The invariant gives every clause of soundness. -/
theorem PoolInv.sound (hI : PoolInv n enableCaching s) : ∃ xs, PoolSound n enableCaching s xs := by
  obtain ⟨xs, hc⟩ := hI.counted
  obtain rfl := hI.numGpuBlocks
  have hlen := hc.length
  have hheld (i : ℕ) : i ∈ (List.range s.pool.numGpuBlocks).filter (fun i => i ≠ 0 ∧ s.held i ≠ 0) ↔
      i < s.pool.numGpuBlocks ∧ i ≠ 0 ∧ s.held i ≠ 0 := by
    rw [List.mem_filter, List.mem_range, decide_eq_true_eq]
  obtain ⟨users, husers⟩ : ∃ users, users =
    (List.range s.pool.numGpuBlocks).filter fun i => i ≠ 0 ∧ s.held i ≠ 0 := ⟨_, rfl⟩
  rw [← husers] at hlen hheld
  refine ⟨xs, Queue.getAllFreeBlocks_ok hc.queue (by omega), hc.queue.nodup, hc.mem_iff, hc.refCnt,
    ?_, fun m hm => ?_, fun m hm => BlockPool.getNewBlocks_error hc hm, fun is his => ?_,
    fun is his hle => ?_, fun is his => BlockPool.evictBlocks_ok his hI.keyed, ?_⟩
  -- the number of free blocks
  · rw [← husers, hc.getNumFreeBlocks]
    omega
  -- a block that is handed out has one reference and, with a prefix cache, no hash
  · obtain ⟨p', hp, hc', hk', hnum', hcaching', hhas⟩ := BlockPool.getNewBlocks_ok hc hI.keyed hm
    refine ⟨p', hp, fun i hi => ?_⟩
    obtain ⟨h0, hlt, hzero⟩ := (hc.mem_iff i).mp (List.mem_of_mem_take hi)
    have hone : (xs.take m).count i = 1 :=
      List.count_eq_one_of_mem (hc.queue.nodup.sublist (List.take_sublist m xs)) hi
    have href : (p'.blocks i).refCnt = 1 := by
      rw [hc'.refCnt i h0 (hnum' ▸ hlt), Ledger.add, hzero, hone]
      rfl
    refine ⟨href, fun hcaching => ?_⟩
    have hnohash : (p'.blocks i).blockHash = none := by
      cases hhash : (p'.blocks i).blockHash with
      | none => rfl
      | some key =>
        have hkey := ((hhas i key).mp (.inl hhash)).2
        exact absurd ⟨hI.caching.trans hcaching, hi⟩ hkey
    rw [BlockPool.isBlockWritable, hc'.isNull, href, hnohash, decide_eq_false h0]
    rfl
  · obtain ⟨p', hp, -⟩ := BlockPool.touch_ok hc his
    exact ⟨p', hp⟩
  · obtain ⟨p', hp, -⟩ := BlockPool.freeBlocks_ok hc his hle
    exact ⟨p', hp⟩
  -- the cache is reset only when no block is in use
  · have hcond : s.pool.resetPrefixCache.1 = true ↔ users = [] := by
      have hnum : (s.pool.numGpuBlocks : ℤ) - s.pool.getNumFreeBlocks = users.length + 1 := by
        rw [hc.getNumFreeBlocks]
        omega
      rw [BlockPool.resetPrefixCache, hnum, ← List.length_eq_zero_iff]
      split
      · rename_i hne
        refine ⟨fun h => absurd h (by simp), fun h => absurd ?_ hne⟩
        rw [h]
        rfl
      · rename_i heq
        exact ⟨fun _ => by omega, fun _ => rfl⟩
    rw [hcond, List.eq_nil_iff_forall_not_mem]
    constructor
    · intro h i h0 hi
      by_contra hne
      exact h i ((hheld i).mpr ⟨hi, h0, hne⟩)
    · intro h i hi
      obtain ⟨hlt, h0, hne⟩ := (hheld i).mp hi
      exact hne (h i h0 hlt)

/-- **The pool never fails.** In every state reached by calls that keep their promises, the
reference counts and the queue are right, blocks can be had as long as there are enough,
and no other call raises. -/
theorem pool_never_fails (n : ℕ) (enableCaching : Bool) (hashBlockSize : ℕ) {s : PoolState}
    (h : (poolRuns n enableCaching hashBlockSize).ReachableVia (fun s call => call.Promise s) s) :
    ∃ xs, PoolSound n enableCaching s xs :=
  (PoolInv.of_reachable h).sound

/-- The pool with freed blocks in its cache still meets every clause. -/
theorem pool_never_fails_freed : ∃ xs, PoolSound 5 true freedPool xs :=
  pool_never_fails 5 true 2 freedPool_reachable

/-! ### What is found in the cache is valid -/

/-- **A cache hit is valid.** With a prefix cache, `get_cached_block` returns for each
group a block whose memory holds the prefix, and misses only where some group has no block
under the key. -/
theorem cached_block_valid (n hashBlockSize : ℕ) {s : PoolState}
    (h : (poolRuns n true hashBlockSize).ReachableVia (fun s call => call.Promise s) s)
    (blockHash : BlockHash) (groups : List ℕ) :
    (∀ ids, s.pool.getCachedBlock blockHash groups = some ids →
      List.Forall₂ (fun g i => s.valid i (makeBlockHashWithGroupId blockHash g) ∧ i ≠ 0 ∧ i < n)
        groups ids) ∧
    (s.pool.getCachedBlock blockHash groups = none ↔ ∃ g ∈ groups, ∀ i,
      s.pool.cachedBlockHashToBlock.contain (makeBlockHashWithGroupId blockHash g) i = false) := by
  have hI := PoolInv.of_reachable h
  rw [BlockPool.getCachedBlock]
  constructor
  -- a hit takes one block from each group
  · intro ids hids
    induction groups generalizing ids with
    | nil =>
      obtain rfl := Option.some.inj hids
      exact .nil
    | cons g groups ih =>
      rw [List.mapM_cons] at hids
      obtain ⟨i, hi, hids⟩ := Option.bind_eq_some_iff.mp hids
      obtain ⟨rest, hrest, hids⟩ := Option.bind_eq_some_iff.mp hids
      obtain rfl := Option.some.inj hids
      have hkey := (hI.keyed.contain_iff _ i).mp (BlockHashToBlockMap.contain_of_getOneBlock hi)
      exact .cons ⟨hI.valid rfl i _ hkey, hI.hasKey i _ hkey⟩ (ih rest hrest)
  -- a miss comes from a group without such a block
  · induction groups with
    | nil => simp
    | cons g groups ih =>
      rw [List.mapM_cons, List.exists_mem_cons_iff, ← ih, ← BlockHashToBlockMap.getOneBlock_eq_none]
      cases s.pool.cachedBlockHashToBlock.getOneBlock (makeBlockHashWithGroupId blockHash g) with
      | none => simp
      | some i =>
        cases groups.mapM fun g =>
          s.pool.cachedBlockHashToBlock.getOneBlock (makeBlockHashWithGroupId blockHash g) with
        | none => simp
        | some ids => simp

/-- A freed block is still found under its key, and its key is valid. -/
theorem cached_block_valid_freed :
    freedPool.pool.getCachedBlock [7] [0] = some [1] ∧
    freedPool.valid 1 (makeBlockHashWithGroupId [7] 0) := by
  have hhit : freedPool.pool.getCachedBlock [7] [0] = some [1] := rfl
  obtain _ | ⟨⟨hvalid, -⟩, -⟩ := (cached_block_valid 5 2 freedPool_reachable [7] [0]).1 [1] hhit
  exact ⟨hhit, hvalid⟩

/-! ### Eviction in order -/

namespace Call

/-- How many blocks the call takes out of the queue: `touch` takes those that nobody holds,
each once. -/
def demand (s : PoolState) : Call → ℕ
  | getNewBlocks m => m
  | touch is =>
    let queued := fun i => (s.pool.blocks i).refCnt = 0 ∧ (s.pool.blocks i).isNull = false
    (is.dedup.filter queued).length
  | _ => 0

/-- The call is about the block itself. -/
def Concerns (b : ℕ) : Call → Prop
  | cacheFullBlocks _ blocks _ _ _ _ _ => b ∈ blocks
  | cachePartialBlock _ i _ _ _ => b = i
  | moveBlockHashes src dst => b = src ∨ b = dst
  | evictBlocks is | touch is => b ∈ is
  | resetPrefixCache => True
  | getNewBlocks _ | freeBlocks _ => False

end Call

/-- A run of calls that keep their promises, with the number of blocks they take out of the
queue. -/
inductive PoolPath (n : ℕ) (enableCaching : Bool) (hashBlockSize : ℕ) :
    PoolState → List Call → ℕ → PoolState → Prop
  | nil (s : PoolState) : PoolPath n enableCaching hashBlockSize s [] 0 s
  | cons {s s₁ s' : PoolState} {call : Call} {calls : List Call} {taken : ℕ}
      (hpromise : call.Promise s)
      (hstep : (poolRuns n enableCaching hashBlockSize).step s call s₁)
      (hrest : PoolPath n enableCaching hashBlockSize s₁ calls taken s') :
      PoolPath n enableCaching hashBlockSize s (call :: calls) (call.demand s + taken) s'

/-- Taking blocks out of a queue without repetitions takes at most those named that `P`
holds of, when it holds of all queued blocks. -/
theorem length_le_filter {front is : List ℕ} {P : ℕ → Prop} [DecidablePred P]
    (h : front.Nodup) (hP : ∀ i ∈ front, P i) :
    front.length ≤ (front.filter fun i => i ∉ is).length + (is.dedup.filter P).length := by
  -- at most the blocks of the call are taken out of the front
  have hin : (front.filter fun i => i ∈ is).length ≤ (is.dedup.filter P).length := by
    refine (List.Nodup.subperm (h.filter _) fun i hi => ?_).length_le
    obtain ⟨hfront, his⟩ := List.mem_filter.mp hi
    exact List.mem_filter.mpr ⟨List.mem_dedup.mpr (of_decide_eq_true his),
      decide_eq_true (hP i hfront)⟩
  have hsplit := List.length_eq_length_filter_add (l := front) fun i => decide (i ∈ is)
  have hneg : (front.filter fun i => !decide (i ∈ is)) = front.filter fun i => i ∉ is :=
    List.filter_congr fun i _ => by simp
  rw [hneg] at hsplit
  omega

/-- One call: the block stays in the queue, loses no key, and moves towards its front by no
more than the call takes out. -/
theorem PoolInv.queued_step {front back : List ℕ} {b : ℕ} (hI : PoolInv n enableCaching s)
    (hc : s.pool.Counted s.held (front ++ b :: back)) (hpromise : call.Promise s)
    (hstep : (poolRuns n enableCaching hashBlockSize).step s call s') (hcall : ¬call.Concerns b)
    (hdemand : call.demand s ≤ front.length) :
    (∃ front' back', s'.pool.Counted s'.held (front' ++ b :: back') ∧
      front.length ≤ front'.length + call.demand s) ∧
    ∀ key, s.pool.HasKey b key → s'.pool.HasKey b key := by
  obtain ⟨ids, hrun, hheld, -⟩ := hstep
  cases call with
  | cacheFullBlocks hashes blocks c m bs g mask =>
    obtain ⟨p, hp, heq⟩ := map_eq_ok hrun
    obtain ⟨rfl, rfl⟩ := Prod.mk.inj heq
    -- caching blocks does not move the queue
    have hkeys := BlockPool.cacheFullBlocks_keyStep hI.keyed hp
    exact ⟨⟨front, back, hheld ▸ hc.of_sameCounts hkeys.same, le_rfl⟩, hkeys.keeps b hcall⟩
  | cachePartialBlock hashes i m g bs =>
    obtain ⟨⟨ret, p⟩, hp, heq⟩ := map_eq_ok hrun
    obtain ⟨rfl, rfl⟩ := Prod.mk.inj heq
    have hkeys := BlockPool.cachePartialBlock_keyStep hI.keyed hp
    exact ⟨⟨front, back, hheld ▸ hc.of_sameCounts hkeys.same, le_rfl⟩,
      hkeys.keeps b (mt List.mem_singleton.mp hcall)⟩
  | moveBlockHashes src dst =>
    obtain ⟨p, hp, heq⟩ := map_eq_ok hrun
    obtain ⟨rfl, rfl⟩ := Prod.mk.inj heq
    -- nor does moving hashes, unless it moves those of the block
    obtain ⟨-, hsame, hhas⟩ := BlockPool.moveBlockHashes_spec hI.keyed hp
    exact ⟨⟨front, back, hheld ▸ hc.of_sameCounts hsame, le_rfl⟩,
      fun key h => (hhas b key).mpr (.inl ⟨h, (not_or.mp hcall).1⟩)⟩
  | evictBlocks is =>
    obtain ⟨p, hp, heq⟩ := map_eq_ok hrun
    obtain ⟨rfl, rfl⟩ := Prod.mk.inj heq
    have hkeys := BlockPool.evictBlocks_keyStep hI.keyed hp
    exact ⟨⟨front, back, hheld ▸ hc.of_sameCounts hkeys.same, le_rfl⟩, hkeys.keeps b hcall⟩
  | resetPrefixCache => exact absurd trivial hcall
  | getNewBlocks m =>
    -- new blocks come from the front, before the block
    have hm : m ≤ front.length := hdemand
    have hle : m ≤ (front ++ b :: back).length := by
      rw [List.length_append]
      omega
    have htake : (front ++ b :: back).take m = front.take m := List.take_append_of_le_length hm
    have hdrop : (front ++ b :: back).drop m = front.drop m ++ b :: back :=
      List.drop_append_of_le_length hm
    obtain ⟨p, hp, hc', -, -, -, hhas⟩ := BlockPool.getNewBlocks_ok hc hI.keyed hle
    obtain ⟨rfl, hpool⟩ := Prod.mk.inj (Except.ok.inj (hp.symm.trans hrun))
    rw [hpool, hdrop] at hc'
    have hheld : s'.held = s.held.add ((front ++ b :: back).take m) := hheld
    refine ⟨⟨front.drop m, back, hheld.symm ▸ hc', ?_⟩, fun key h => ?_⟩
    · rw [List.length_drop]
      change front.length ≤ front.length - m + m
      omega
    · have hb : b ∉ (front ++ b :: back).take m := by
        rw [htake]
        intro hmem
        exact (List.nodup_append.mp hc.queue.nodup).2.2 b (List.mem_of_mem_take hmem) b
          List.mem_cons_self rfl
      rw [hpool] at hhas
      exact (hhas b key).mpr ⟨h, fun hin => hb hin.2⟩
  | touch is =>
    obtain ⟨p, hp, heq⟩ := map_eq_ok hrun
    obtain ⟨rfl, rfl⟩ := Prod.mk.inj heq
    obtain ⟨p', hp', hc', hkeys, -⟩ := BlockPool.touch_ok hc hpromise
    obtain rfl := Except.ok.inj (hp'.symm.trans hp)
    have hdiff : (front ++ b :: back).diff is
        = front.filter (fun i => i ∉ is) ++ b :: back.filter fun i => i ∉ is := by
      have hb : b ∉ is := hcall
      rw [hc.queue.nodup.sdiff_eq_filter, List.filter_append, List.filter_cons_of_pos (by simpa)]
    rw [hdiff] at hc'
    have hheld : s'.held = s.held.add is := hheld
    -- what stands in the queue is no block that `touch` would pass over
    have hqueued : ∀ i ∈ front,
        (s.pool.blocks i).refCnt = 0 ∧ (s.pool.blocks i).isNull = false := by
      intro i hi
      obtain ⟨h0, hlt, hfree⟩ := (hc.mem_iff i).mp (List.mem_append_left _ hi)
      refine ⟨?_, ?_⟩
      · rw [hc.refCnt i h0 hlt, hfree]
        rfl
      · rw [hc.isNull i]
        exact decide_eq_false h0
    exact ⟨⟨_, _, hheld.symm ▸ hc',
        length_le_filter (List.nodup_append.mp hc.queue.nodup).1 hqueued⟩,
      fun key h => hkeys.hasKey_iff.mpr h⟩
  | freeBlocks is =>
    obtain ⟨p, hp, heq⟩ := map_eq_ok hrun
    obtain ⟨rfl, rfl⟩ := Prod.mk.inj heq
    obtain ⟨p', hp', hc', hkeys, -⟩ := BlockPool.freeBlocks_ok hc hpromise.1 hpromise.2
    obtain rfl := Except.ok.inj (hp'.symm.trans hp)
    have hheld : s'.held = s.held.sub is := hheld
    rw [← List.append_assoc, List.append_assoc _ (b :: back), List.cons_append] at hc'
    refine ⟨⟨_, _, hheld.symm ▸ hc', ?_⟩, fun key h => hkeys.hasKey_iff.mpr h⟩
    rw [List.length_append]
    omega

/-- A run of calls, one after the other. -/
theorem PoolPath.keeps {calls : List Call} {taken : ℕ} {front back : List ℕ} {b : ℕ}
    (hpath : PoolPath n enableCaching hashBlockSize s calls taken s')
    (hI : PoolInv n enableCaching s)
    (hc : s.pool.Counted s.held (front ++ b :: back)) (hcalls : ∀ call ∈ calls, ¬call.Concerns b)
    (htaken : taken ≤ front.length) {key : BlockHashWithGroupId}
    (hkey : s.pool.HasKey b key) : s'.pool.cachedBlockHashToBlock.contain key b = true := by
  induction hpath generalizing front back with
  | nil s => exact (hI.keyed.contain_iff key b).mpr hkey
  | cons hpromise hstep _ ih =>
    obtain ⟨hcall, hcalls⟩ := List.forall_mem_cons.mp hcalls
    obtain ⟨⟨front', back', hc', hlen⟩, hkeep⟩ :=
      hI.queued_step hc hpromise hstep hcall (by omega)
    exact ih (hI.step hpromise hstep) hc' hcalls (by omega) (hkeep key hkey)

/-- **Least recently used.** Let a block stand in the queue behind the blocks `front`, in a
reachable state. It keeps its keys through every run that does not turn to the block itself
and takes at most as many blocks out of the queue as there are in front of it, however many
are queued meanwhile. -/
theorem lru_survives (n : ℕ) (enableCaching : Bool) (hashBlockSize : ℕ) {s s' : PoolState}
    (h : (poolRuns n enableCaching hashBlockSize).ReachableVia (fun s call => call.Promise s) s)
    {front back : List ℕ} {b : ℕ}
    (hqueue : s.pool.freeBlockQueue.getAllFreeBlocks (n + 1)
      = .ok (some ((front ++ b :: back).map .block)))
    {calls : List Call} {taken : ℕ}
    (hpath : PoolPath n enableCaching hashBlockSize s calls taken s')
    (hcalls : ∀ call ∈ calls, ¬call.Concerns b) (htaken : taken ≤ front.length)
    (key : BlockHashWithGroupId)
    (hkey : s.pool.cachedBlockHashToBlock.contain key b = true) :
    s'.pool.cachedBlockHashToBlock.contain key b = true := by
  have hI := PoolInv.of_reachable h
  -- the queue that is walked is the queue that is counted
  obtain ⟨xs, hc⟩ := hI.counted
  have hfuel : xs.length < n + 1 := by
    have hlen := hc.length
    have hnum := hI.numGpuBlocks
    omega
  have hmap := (Queue.getAllFreeBlocks_ok hc.queue hfuel).symm.trans hqueue
  have hinj : Function.Injective Node.block := fun _ _ h => Node.block.inj h
  obtain rfl := List.map_injective_iff.mpr hinj (Option.some.inj (Except.ok.inj hmap))
  exact hpath.keeps hI hc hcalls htaken ((hI.keyed.contain_iff key b).mp hkey)

/-- The three blocks in front of the cached one are taken, one of them by a `touch` that names
it twice. -/
theorem lru_survives_freed :
    ((freedPool.after (.touch [2, 2])).after (.getNewBlocks 2)).pool.cachedBlockHashToBlock.contain
      (makeBlockHashWithGroupId [7] 0) 1 = true := by
  have hpromise : (Call.touch [2, 2]).Promise freedPool := by
    show ∀ i ∈ [2, 2], i < 5
    decide
  have htouch : ((Call.touch [2, 2]).run freedPool.pool).isOk = true := rfl
  have hget : ((Call.getNewBlocks 2).run (freedPool.after (.touch [2, 2])).pool).isOk = true := rfl
  have hpath : PoolPath 5 true 2 freedPool [.touch [2, 2], .getNewBlocks 2]
      ((Call.touch [2, 2]).demand freedPool + (2 + 0))
      ((freedPool.after (.touch [2, 2])).after (.getNewBlocks 2)) :=
    .cons hpromise (PoolState.step_after htouch)
      (.cons trivial (PoolState.step_after hget) (.nil _))
  have hqueue : freedPool.pool.freeBlockQueue.getAllFreeBlocks 6
    = .ok (some (([2, 3, 4] ++ 1 :: []).map .block)) := rfl
  refine lru_survives 5 true 2 freedPool_reachable hqueue hpath ?_ (by decide) _ rfl
  intro call hcall
  simp only [List.mem_cons, List.not_mem_nil, or_false] at hcall
  rcases hcall with rfl | rfl
  · show 1 ∉ [2, 2]
    decide
  · exact id

end Dsv41Overlay.KvCache
