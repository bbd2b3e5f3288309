import Dsv41Overlay.KvCache.Pool
import Dsv41Overlay.SwaFinal.Blocks
import Mathlib.Data.List.AList

/-!
# The manager of one KV cache group

`SingleTypeKVCacheManager`: the block tables of the requests in one KV cache group, over a
pool that all groups share. `allocate_slots` of the cache manager goes through its methods:
how many blocks a request will need, the blocks of a prefix hit, blocks for tokens that a
connector loads, new blocks, and the blocks that have left the attention window.

The managers of full and sliding-window attention are this class with their own
`get_num_skipped_tokens` and `reachable_block_mask`, which are parameters of the group. A
`CircularBufferManager` gives each request one block and takes no part in prefix caching.
-/

namespace Dsv41Overlay.KvCache

open Fallible SwaFinal

/-- What distinguishes the managers. -/
structure Group where
  /-- `kv_cache_group_id`. -/
  groupId : ℕ
  blockSize : ℕ
  /-- A `CircularBufferManager`. -/
  ring : Bool
  /-- `get_num_skipped_tokens`. -/
  numSkippedTokens : ℕ → ℕ
  /-- `_max_admission_blocks_per_request`. -/
  maxAdmissionBlocks : Option ℕ
  /-- `reachable_block_mask` from a block to a block, for the boundaries that are kept. -/
  reachableBlockMask : ℕ → ℕ → List ℕ → Option (List Bool)
  /-- A `FullAttentionManager`, which also caches the tail of a prompt. -/
  partialTail : Bool
  /-- `use_eagle`. -/
  useEagle : Bool

/-- `SingleTypeKVCacheManager`. -/
structure Manager (R : Type) where
  group : Group
  reqToBlocks : AList fun _ : R => List ℕ
  numCachedBlock : R → Option ℕ
  /-- The block of the table that is shared, and the block shared. -/
  partialHitReqs : R → Option (ℕ × ℕ)
  pendingCowCopies : List (ℕ × ℕ)

/-- What the managers read of a request. -/
structure Request (R : Type) where
  requestId : R
  numTokens : ℕ
  numPromptTokens : ℕ
  numComputedTokens : ℕ
  numInFlightTokens : ℕ
  /-- The request is waiting or preempted. -/
  waiting : Bool
  blockHashes : List BlockHash
  sharedPrefixBoundary : ℕ

namespace Manager

/-- A manager without requests. -/
def init {R : Type} (group : Group) : Manager R where
  group := group
  reqToBlocks := ∅
  numCachedBlock := fun _ => none
  partialHitReqs := fun _ => none
  pendingCowCopies := []

variable {R : Type} [DecidableEq R] (m : Manager R) (p : BlockPool) (r : R)

/-- `req_to_blocks.get(request_id, ())`. -/
def blocksOf : List ℕ := (m.reqToBlocks.lookup r).getD []

/-- `req_to_blocks[request_id]` becomes `blocks`. -/
def setBlocks (blocks : List ℕ) : Manager R :=
  { m with reqToBlocks := m.reqToBlocks.insert r blocks }

/-- `_get_num_evictable_blocks`. -/
def getNumEvictableBlocks (blocks : List ℕ) : ℕ :=
  blocks.countP fun i => decide ((p.blocks i).refCnt = 0) && !(p.blocks i).isNull

/-- `_has_partial_local_hit`. -/
def hasPartialLocalHit (newComputedBlocks : List ℕ) (numLocalComputedTokens : ℕ) : Prop :=
  newComputedBlocks ≠ [] ∧ numLocalComputedTokens % m.group.blockSize ≠ 0

instance (blocks : List ℕ) (n : ℕ) : Decidable (m.hasPartialLocalHit blocks n) :=
  inferInstanceAs (Decidable (_ ∧ _))

/-- `get_num_blocks_to_allocate`. -/
def getNumBlocksToAllocate (numTokens : ℕ) (newComputedBlocks : List ℕ)
    (totalComputedTokens numLocalComputedTokens : ℕ) (applyAdmissionCap : Bool) :
    Except Raised ℕ :=
  if m.group.ring then .ok (if m.blocksOf r ≠ [] then 0 else 1)
  else
    let numRequiredBlocks := cdiv numTokens m.group.blockSize
    let numRequiredBlocks := match applyAdmissionCap, m.group.maxAdmissionBlocks with
      | true, some cap => min numRequiredBlocks cap
      | _, _ => numRequiredBlocks
    let numReqBlocks := (m.blocksOf r).length
    if (m.numCachedBlock r).isSome then do
      -- a running request has no new prefix hits
      require (newComputedBlocks = []) .assertionError
      return numRequiredBlocks - numReqBlocks
    else
      let numSkippedTokens := m.group.numSkippedTokens totalComputedTokens
      let numLocalComputedBlocks := newComputedBlocks.length + numReqBlocks
      let numSkippedBlocks := numSkippedTokens / m.group.blockSize
      let numNewBlocks := numRequiredBlocks - max numSkippedBlocks numLocalComputedBlocks
      let numSkippedNewComputedBlocks := numSkippedBlocks - numReqBlocks
      -- a hit that is queued leaves the queue when it is touched
      let numEvictableBlocks :=
        getNumEvictableBlocks p (newComputedBlocks.drop numSkippedNewComputedBlocks)
      -- one more block for the copy of a shared tail
      let numNewBlocks := if m.hasPartialLocalHit newComputedBlocks numLocalComputedTokens
        then numNewBlocks + 1 else numNewBlocks
      .ok (numNewBlocks + numEvictableBlocks)

/-- `_claim_ring_block`. -/
def claimRingBlock : Except Raised (Manager R × BlockPool) :=
  if m.blocksOf r ≠ [] then .ok (m, p)
  else do
    let (newBlocks, p) ← p.getNewBlocks 1
    return (m.setBlocks r newBlocks, p)

/-- `add_local_computed_blocks`. -/
def addLocalComputedBlocks (newComputedBlocks : List ℕ)
    (numLocalComputedTokens numExternalComputedTokens : ℕ) :
    Except Raised (Manager R × BlockPool) :=
  if m.group.ring then .ok (m, p)
  else do
    require (m.blocksOf r = []) .assertionError
    let numTotalComputedTokens := numLocalComputedTokens + numExternalComputedTokens
    let numSkippedBlocks := m.group.numSkippedTokens numTotalComputedTokens / m.group.blockSize
    let newComputedBlocks := newComputedBlocks.drop numSkippedBlocks
    require (p.enableCaching = true ∨ newComputedBlocks = []) .assertionError
    let p ← p.touch newComputedBlocks
    -- the blocks of skipped tokens are null blocks
    let reqBlocks := List.replicate numSkippedBlocks 0 ++ newComputedBlocks
    let m := m.setBlocks r reqBlocks
    let blockIdx := numLocalComputedTokens / m.group.blockSize
    match newComputedBlocks.getLast? with
    | some last =>
      if numLocalComputedTokens % m.group.blockSize ≠ 0 then
        return ({ m with
          numCachedBlock := Function.update m.numCachedBlock r (some blockIdx)
          partialHitReqs := Function.update m.partialHitReqs r (some (blockIdx, last)) }, p)
      else
        return ({ m with
          numCachedBlock := Function.update m.numCachedBlock r (some reqBlocks.length) }, p)
    | none =>
      return ({ m with
        numCachedBlock := Function.update m.numCachedBlock r (some reqBlocks.length) }, p)

/-- `allocate_external_computed_blocks`. -/
def allocateExternalComputedBlocks (numLocalComputedTokens numExternalComputedTokens : ℕ) :
    Except Raised (Manager R × BlockPool) :=
  if m.group.ring then m.claimRingBlock p r
  else
    let numTotalComputedTokens := numLocalComputedTokens + numExternalComputedTokens
    let numSkippedTokens := m.group.numSkippedTokens numTotalComputedTokens
    -- some of the external tokens may be skipped too
    let numExternalComputedTokens := if 0 < numSkippedTokens
      then min (numTotalComputedTokens - numSkippedTokens) numExternalComputedTokens
      else numExternalComputedTokens
    if numExternalComputedTokens = 0 then .ok (m, p)
    else do
      let reqBlocks := m.blocksOf r
      let (allocated, p) ← p.getNewBlocks
        (cdiv numTotalComputedTokens m.group.blockSize - reqBlocks.length)
      return (m.setBlocks r (reqBlocks ++ allocated), p)

/-- `_apply_cow`. -/
def applyCow (blockIdx sourceBlock cowBlock : ℕ) : Except Raised (Manager R × BlockPool) := do
  let reqBlocks := m.blocksOf r
  require (blockIdx < reqBlocks.length) .assertionError
  require (reqBlocks[blockIdx]? = some sourceBlock) .assertionError
  require ((p.blocks sourceBlock).isNull = false ∧ 0 < (p.blocks sourceBlock).refCnt)
    .assertionError
  let m := m.setBlocks r (reqBlocks.set blockIdx cowBlock)
  -- both blocks are retained until the copy has been made
  return ({ m with pendingCowCopies := m.pendingCowCopies ++ [(sourceBlock, cowBlock)] },
    p.modify cowBlock fun b => b.addRef 1)

/-- The first part of `allocate_new_blocks`: a shared tail gets a private copy. -/
def redirectPartialHit : Except Raised (List ℕ × Manager R × BlockPool) :=
  match m.partialHitReqs r with
  | none => .ok ([], m, p)
  | some (blockIdx, sourceBlock) => do
    let m := { m with partialHitReqs := Function.update m.partialHitReqs r none }
    let (cowBlocks, p) ← p.getNewBlocks 1
    match cowBlocks with
    | [] => .error .indexError
    | cowBlock :: _ => do
      let (m, p) ← m.applyCow p r blockIdx sourceBlock cowBlock
      return ([cowBlock], m, p)

/-- `allocate_new_blocks`. -/
def allocateNewBlocks (numTokens : ℕ) : Except Raised (List ℕ × Manager R × BlockPool) :=
  if m.group.ring then do
    let (m', p) ← m.claimRingBlock p r
    return (if m.blocksOf r ≠ [] then [] else m'.blocksOf r, m', p)
  else do
    let (cowBlocks, m, p) ← m.redirectPartialHit p r
    let reqBlocks := m.blocksOf r
    let numNewBlocks := cdiv numTokens m.group.blockSize - reqBlocks.length
    if numNewBlocks = 0 then return (cowBlocks, m.setBlocks r reqBlocks, p)
    else do
      let (newBlocks, p) ← p.getNewBlocks numNewBlocks
      return (cowBlocks ++ newBlocks, m.setBlocks r (reqBlocks ++ newBlocks), p)

/-- The loop of `_remove_blocks_in_range` from block `i - 1` down to `first`: the blocks
freed, in that order, and the table. -/
def removeLoop (first : ℕ) : ℕ → List ℕ → List ℕ × List ℕ
  | 0, blocks => ([], blocks)
  | i + 1, blocks =>
    if first ≤ i then
      match blocks[i]? with
      | some b =>
        if b = 0 then ([], blocks)
        else
          let (freed, blocks) := removeLoop first i (blocks.set i 0)
          (b :: freed, blocks)
      | none => ([], blocks)
    else ([], blocks)

/-- `_remove_blocks_in_range`. -/
def removeBlocksInRange (firstBlock lastBlock : ℕ) : Except Raised (Manager R × BlockPool) :=
  match m.reqToBlocks.lookup r with
  | none => .ok (m, p)
  | some blocks =>
    if lastBlock ≤ firstBlock then .ok (m, p)
    else do
      let (freed, blocks) := removeLoop firstBlock (min lastBlock blocks.length) blocks
      let p ← if freed = [] then .ok p else p.freeBlocks freed
      return (m.setBlocks r blocks, p)

/-- `remove_skipped_blocks`. -/
def removeSkippedBlocks (processedComputedTokens : ℕ) : Except Raised (Manager R × BlockPool) :=
  let numSkippedTokens := m.group.numSkippedTokens processedComputedTokens
  if m.group.ring ∨ numSkippedTokens = 0 then .ok (m, p)
  else
    -- looking up the table creates it
    let m := m.setBlocks r (m.blocksOf r)
    m.removeBlocksInRange p r 0 (min (numSkippedTokens / m.group.blockSize) (m.blocksOf r).length)

/-- `pop_blocks_for_free`. -/
def popBlocksForFree : List ℕ × Manager R :=
  (m.blocksOf r, { m with
    reqToBlocks := m.reqToBlocks.erase r
    numCachedBlock := Function.update m.numCachedBlock r none
    partialHitReqs := Function.update m.partialHitReqs r none })

/-- `free`. -/
def free : Except Raised (Manager R × BlockPool) := do
  let (blocks, m) := m.popBlocksForFree r
  let p ← p.freeBlocks blocks.reverse
  return (m, p)

/-- `take_pending_cow_copies`. -/
def takePendingCowCopies : List (ℕ × ℕ) × Manager R :=
  (m.pendingCowCopies, { m with pendingCowCopies := [] })

/-- `_cache_partial_tail_block`. -/
def cachePartialTailBlock (request : Request R) (numTokens : ℕ) :
    Except Raised (Manager R × BlockPool) :=
  let boundaryTokens := request.numPromptTokens / p.hashBlockSize * p.hashBlockSize
  if boundaryTokens = 0 ∨ numTokens < boundaryTokens then .ok (m, p)
  else if boundaryTokens % m.group.blockSize = 0 then .ok (m, p)
  else
    let blocks := m.blocksOf request.requestId
    let m := m.setBlocks request.requestId blocks
    match blocks[boundaryTokens / m.group.blockSize]? with
    | none => .ok (m, p)
    | some block => do
      let (_, p) ← p.cachePartialBlock request.blockHashes block boundaryTokens m.group.groupId
        m.group.blockSize
      return (m, p)

/-- `SingleTypeKVCacheManager.cache_blocks`. -/
def cacheFull (request : Request R) (numTokens : ℕ) : Except Raised (Manager R × BlockPool) :=
  let r := request.requestId
  let numCachedBlocks := (m.numCachedBlock r).getD 0
  let numFullBlocks := numTokens / m.group.blockSize
  if numFullBlocks ≤ numCachedBlocks then .ok (m, p)
  else
    -- the replay boundary and a shared prefix
    let boundaries := [request.numPromptTokens - 1] ++
      if request.sharedPrefixBoundary = 0 then [] else [request.sharedPrefixBoundary]
    let blockMask := m.group.reachableBlockMask numCachedBlocks numFullBlocks boundaries
    let blocks := m.blocksOf r
    do
      let p ← p.cacheFullBlocks request.blockHashes blocks numCachedBlocks numFullBlocks
        m.group.blockSize m.group.groupId blockMask
      return ({ m.setBlocks r blocks with
        numCachedBlock := Function.update m.numCachedBlock r (some numFullBlocks) }, p)

/-- `cache_blocks`. -/
def cacheBlocks (request : Request R) (numTokens : ℕ) : Except Raised (Manager R × BlockPool) :=
  if m.group.ring then .ok (m, p)
  else do
    let (m, p) ← m.cacheFull p request numTokens
    if m.group.partialTail ∧ m.group.blockSize ≠ p.hashBlockSize then
      m.cachePartialTailBlock p request numTokens
    else return (m, p)

end Manager

end Dsv41Overlay.KvCache
