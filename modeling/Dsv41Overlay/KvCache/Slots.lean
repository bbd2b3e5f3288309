import Dsv41Overlay.KvCache.Manager

/-!
# Allocating slots

`KVCacheManager` with its coordinator: the managers of all KV cache groups over one pool.
`allocateSlots` decides whether a request can be given the slots it needs, and if so gives
them: the blocks of its prefix hit in every group first, then blocks for external tokens in
every group, so that no group's new blocks are taken from another group's hit, and then new
blocks.
-/

namespace Dsv41Overlay.KvCache

open Fallible

/-- What the managers of a deployment share. -/
structure Config where
  maxModelLen : ℕ
  watermarkBlocks : ℕ
  /-- A `HybridKVCacheCoordinator`. -/
  hybrid : Bool
  /-- `enable_partial_hash_hits`. -/
  partialHashHits : Bool
  schedulerBlockSize : ℕ
  numReprefillableTokens : ℕ

/-- `KVCacheManager`: the pool and the manager of each group, group `i` at place `i`. -/
structure KVCacheManager (R : Type) where
  pool : BlockPool
  managers : List (Manager R)

/-- The arguments of `allocate_slots`. -/
structure SlotArgs where
  numNewTokens : ℕ
  numNewComputedTokens : ℕ
  /-- `new_computed_blocks` by group. -/
  newComputedBlocks : ℕ → List ℕ
  numLookaheadTokens : ℕ
  numExternalComputedTokens : ℕ
  delayCacheBlocks : Bool
  fullSequenceMustFit : Bool
  reservedBlocks : ℕ
  hasScheduledReqs : Bool

namespace KVCacheManager

variable {R : Type} [DecidableEq R] (kv : KVCacheManager R) (r : R)

/-- A loop over the managers that may fail. -/
def forManagers (f : Manager R → BlockPool → Except Raised (Manager R × BlockPool)) :
    Except Raised (KVCacheManager R) := do
  let (managers, pool) ← threadM f kv.managers kv.pool
  return { pool, managers }

/-- `KVCacheCoordinator.get_num_blocks_to_allocate`. -/
def getNumBlocksToAllocate (numTokens : ℕ) (newComputedBlocks : ℕ → List ℕ)
    (totalComputedTokens numLocalComputedTokens : ℕ) (applyAdmissionCap : Bool) :
    Except Raised ℕ :=
  kv.managers.foldlM (fun num m => do
    let n ← m.getNumBlocksToAllocate kv.pool r numTokens (newComputedBlocks m.group.groupId)
      totalComputedTokens numLocalComputedTokens applyAdmissionCap
    return num + n) 0

/-- `KVCacheCoordinator.allocate_new_computed_blocks`. -/
def allocateNewComputedBlocks (newComputedBlocks : ℕ → List ℕ)
    (numLocalComputedTokens numExternalComputedTokens : ℕ) : Except Raised (KVCacheManager R) :=
  if ∃ m ∈ kv.managers, (m.numCachedBlock r).isSome = true then do
    -- a running request has no new prefix hits
    require (∀ m ∈ kv.managers, newComputedBlocks m.group.groupId = []) .assertionError
    return kv
  else do
    -- first touch the hits of every group, then allocate for the external tokens
    let kv ← kv.forManagers fun m p =>
      m.addLocalComputedBlocks p r (newComputedBlocks m.group.groupId) numLocalComputedTokens
        numExternalComputedTokens
    if 0 < numExternalComputedTokens then
      kv.forManagers fun m p =>
        m.allocateExternalComputedBlocks p r numLocalComputedTokens numExternalComputedTokens
    else return kv

/-- `KVCacheCoordinator.allocate_new_blocks`; the lists of new blocks are left out. -/
def allocateNewBlocks (numTokens : ℕ) : Except Raised (KVCacheManager R) :=
  kv.forManagers fun m p => (m.allocateNewBlocks p r numTokens).map Prod.snd

/-- `remove_skipped_blocks`. -/
def removeSkippedBlocks (processedComputedTokens : ℕ) : Except Raised (KVCacheManager R) :=
  kv.forManagers fun m p => m.removeSkippedBlocks p r processedComputedTokens

/-- `free`. -/
def free : Except Raised (KVCacheManager R) := kv.forManagers fun m p => m.free p r

/-- `pop_blocks_for_free`: the blocks, which their taker frees later. -/
def popBlocksForFree : List ℕ × KVCacheManager R :=
  (kv.managers.flatMap fun m => (m.popBlocksForFree r).1,
    { kv with managers := kv.managers.map fun m => (m.popBlocksForFree r).2 })

/-- `take_kv_cache_block_copies`: the copies to make, and both ends of each, which their taker
frees when it has been made. -/
def takeKvCacheBlockCopies : List (ℕ × ℕ) × List ℕ × KVCacheManager R :=
  let pendingCopies := kv.managers.flatMap fun m => m.takePendingCowCopies.1
  (pendingCopies, pendingCopies.flatMap fun c => [c.1, c.2],
    { kv with managers := kv.managers.map fun m => m.takePendingCowCopies.2 })

/-- `_align_cacheable`. -/
def alignCacheable (c : Config) (numTokens : ℕ) : ℕ :=
  if c.partialHashHits then numTokens
  else numTokens / c.schedulerBlockSize * c.schedulerBlockSize

/-- How many tokens `cache_blocks` of the coordinator caches in a group. -/
def numTokensToCache (c : Config) (g : Group) (numComputedTokens : ℕ) : ℕ :=
  let finalized := numComputedTokens - c.numReprefillableTokens
  if c.hybrid then
    let aligned := alignCacheable c numComputedTokens
    -- an EAGLE group matches one block past each aligned boundary and drops it
    if g.useEagle ∧ 0 < aligned then min finalized (alignCacheable c finalized + g.blockSize)
    else aligned
  else finalized

/-- `cache_blocks`. -/
def cacheBlocks (c : Config) (request : Request R) (numComputedTokens : ℕ) :
    Except Raised (KVCacheManager R) :=
  kv.forManagers fun m p =>
    m.cacheBlocks p request (numTokensToCache c m.group numComputedTokens)

/-- The number of local computed tokens in `allocate_slots`. -/
def numLocalComputedTokens (request : Request R) (a : SlotArgs) : ℕ :=
  request.numComputedTokens + a.numNewComputedTokens

/-- `total_computed_tokens` in `allocate_slots`. -/
def totalComputedTokens (c : Config) (request : Request R) (a : SlotArgs) : ℕ :=
  min (numLocalComputedTokens request a + a.numExternalComputedTokens) c.maxModelLen

/-- `num_tokens_need_slot` in `allocate_slots`. -/
def numTokensNeedSlot (c : Config) (request : Request R) (a : SlotArgs) : ℕ :=
  min (totalComputedTokens c request a + a.numNewTokens + a.numLookaheadTokens) c.maxModelLen

/-- The admission gate of `allocate_slots`: whether the whole sequence would fit. -/
def fullSequenceFits (c : Config) (request : Request R) (a : SlotArgs) (watermarkBlocks : ℕ) :
    Except Raised Bool :=
  if a.fullSequenceMustFit then do
    let num ← kv.getNumBlocksToAllocate request.requestId (min request.numTokens c.maxModelLen)
      a.newComputedBlocks (totalComputedTokens c request a) (numLocalComputedTokens request a) true
    return decide ((num + watermarkBlocks : ℕ) ≤ kv.pool.getNumFreeBlocks)
  else return true

/-- The part of `allocate_slots` that takes blocks. -/
def takeSlots (c : Config) (request : Request R) (a : SlotArgs) :
    Except Raised (KVCacheManager R) := do
  let kv ← if (∃ m ∈ kv.managers, a.newComputedBlocks m.group.groupId ≠ []) ∨
      0 < a.numExternalComputedTokens then
    kv.allocateNewComputedBlocks request.requestId a.newComputedBlocks
      (numLocalComputedTokens request a) a.numExternalComputedTokens
    else pure kv
  kv.allocateNewBlocks request.requestId (numTokensNeedSlot c request a)

/-- `allocate_slots` up to the caching of full blocks: whether the request gets its slots,
and the managers. -/
def reserveSlots (c : Config) (request : Request R) (a : SlotArgs) :
    Except Raised (Bool × KVCacheManager R) := do
  require (a.numNewTokens ≠ 0 ∨ a.numExternalComputedTokens ≠ 0) .valueError
  -- the watermark is for waiting requests, when others are scheduled already
  let watermarkBlocks :=
    if a.hasScheduledReqs && request.waiting then c.watermarkBlocks else 0
  let fits ← kv.fullSequenceFits c request a watermarkBlocks
  if fits = false then return (false, kv)
  else do
    let kv ← kv.removeSkippedBlocks request.requestId
      (totalComputedTokens c request a - request.numInFlightTokens)
    let numBlocksToAllocate ← kv.getNumBlocksToAllocate request.requestId
      (numTokensNeedSlot c request a) a.newComputedBlocks
      (numLocalComputedTokens request a + a.numExternalComputedTokens)
      (numLocalComputedTokens request a) false
    let availableBlocks := kv.pool.getNumFreeBlocks - a.reservedBlocks
    if availableBlocks < (numBlocksToAllocate + watermarkBlocks : ℕ) then return (false, kv)
    else do
      let kv ← kv.takeSlots c request a
      return (true, kv)

/-- `allocate_slots`. -/
def allocateSlots (c : Config) (request : Request R) (a : SlotArgs) :
    Except Raised (Bool × KVCacheManager R) := do
  let (allocated, kv) ← kv.reserveSlots c request a
  if allocated = false then return (false, kv)
  else if kv.pool.enableCaching = false ∨ a.delayCacheBlocks = true then return (true, kv)
  else do
    -- drafts may still be rejected: only what the request has is cached
    let kv ← kv.cacheBlocks c request
      (min (totalComputedTokens c request a + a.numNewTokens) request.numTokens)
    return (true, kv)

end KVCacheManager

end Dsv41Overlay.KvCache
