import Dsv41Overlay.KvCache.BlockMap
import Dsv41Overlay.KvCache.Queue
import Dsv41Overlay.Lib.Fallible

/-!
# The block pool

`BlockPool`: the blocks of the KV cache with their reference counts and hashes, the queue
of free blocks, and the two maps that tell which block is cached under which key. Blocks
are named by their ids; block 0 is the null block. The pool's events and metrics are left
out: nothing here reads them.

A cached block has one primary key, kept in the block, and may have more of them
(`cached_block_hashes_by_block`), which are those of prefixes that end inside it.
-/

namespace Dsv41Overlay.KvCache

open Fallible

/-- The node of a block, not of a fake one. -/
def Node.id? : Node → Option ℕ
  | .block i => some i
  | .head | .tail => none

/-- The fields of a `KVCacheBlock` other than its id and its links. -/
structure KVCacheBlock where
  refCnt : ℤ
  blockHash : Option BlockHashWithGroupId
  blockHashNumTokens : Option ℕ
  isNull : Bool
deriving Repr, DecidableEq

namespace KVCacheBlock

/-- `set_block_hash`. -/
def setBlockHash (b : KVCacheBlock) (key : BlockHashWithGroupId) (numTokens : Option ℕ) :
    Except Raised KVCacheBlock :=
  if b.blockHash = none ∧ b.blockHashNumTokens = none then
    .ok { b with blockHash := some key, blockHashNumTokens := numTokens }
  else .error .assertionError

/-- `reset_hash`. -/
def resetHash (b : KVCacheBlock) : KVCacheBlock :=
  { b with blockHash := none, blockHashNumTokens := none }

/-- `ref_cnt += d`. -/
def addRef (b : KVCacheBlock) (d : ℤ) : KVCacheBlock := { b with refCnt := b.refCnt + d }

end KVCacheBlock

/-- `resolve_block_hashes` of a request's hashes: one hash for each `block_size` tokens,
which is the last of those computed for them. -/
def resolveBlockHashes (blockHashes : List BlockHash) (hashBlockSize blockSize : ℕ) :
    Except Raised (List BlockHash) :=
  if blockSize = hashBlockSize then .ok blockHashes
  else if blockSize % hashBlockSize = 0 then
    let scaleFactor := blockSize / hashBlockSize
    .ok ((List.range (blockHashes.length / scaleFactor)).filterMap fun idx =>
      blockHashes[(idx + 1) * scaleFactor - 1]?)
  else .error .assertionError

/-- `BlockPool`. -/
structure BlockPool where
  numGpuBlocks : ℕ
  enableCaching : Bool
  hashBlockSize : ℕ
  blocks : ℕ → KVCacheBlock
  freeBlockQueue : Queue
  cachedBlockHashToBlock : BlockHashToBlockMap
  /-- Sets, in the order in which their keys were added. -/
  cachedBlockHashesByBlock : ℕ → Option (List BlockHashWithGroupId)

namespace BlockPool

/-- `BlockPool(num_gpu_blocks, enable_caching, hash_block_size)`. -/
def init (numGpuBlocks : ℕ) (enableCaching : Bool) (hashBlockSize : ℕ) :
    Except Raised BlockPool := do
  require (0 < numGpuBlocks) .assertionError
  let (nullBlock, freeBlockQueue) ← (Queue.init numGpuBlocks).popleft
  return {
    numGpuBlocks, enableCaching, hashBlockSize, freeBlockQueue
    blocks := fun i =>
      { refCnt := 0, blockHash := none, blockHashNumTokens := none,
        isNull := decide (Node.block i = nullBlock) }
    cachedBlockHashToBlock := fun _ => none
    cachedBlockHashesByBlock := fun _ => none }

/-- An update of one block in place. -/
def modify (p : BlockPool) (i : ℕ) (f : KVCacheBlock → KVCacheBlock) : BlockPool :=
  { p with blocks := Function.update p.blocks i (f (p.blocks i)) }

/-- `get_num_free_blocks`. -/
def getNumFreeBlocks (p : BlockPool) : ℤ := p.freeBlockQueue.numFreeBlocks

/-- `get_cached_block`. -/
def getCachedBlock (p : BlockPool) (blockHash : BlockHash) (kvCacheGroupIds : List ℕ) :
    Option (List ℕ) :=
  kvCacheGroupIds.mapM fun groupId =>
    p.cachedBlockHashToBlock.getOneBlock (makeBlockHashWithGroupId blockHash groupId)

/-! ### The keys of a block -/

/-- The loop of `_remove_cached_block_hashes`: the keys that were there, and the map. -/
def popAll (blockId : ℕ) : List BlockHashWithGroupId → BlockHashToBlockMap →
    List BlockHashWithGroupId × BlockHashToBlockMap
  | [], cache => ([], cache)
  | key :: keys, cache =>
    let (block, cache) := cache.pop key blockId
    let (removed, cache) := popAll blockId keys cache
    (if block.isSome then key :: removed else removed, cache)

/-- `_remove_cached_block_hashes`. -/
def removeCachedBlockHashes (p : BlockPool) (i : ℕ) : List BlockHashWithGroupId × BlockPool :=
  -- the primary key comes first
  let blockHashes := (p.blocks i).blockHash.toList ++ (p.cachedBlockHashesByBlock i).getD []
  let p := { p with
    cachedBlockHashesByBlock := Function.update p.cachedBlockHashesByBlock i none }
  if blockHashes = [] then ([], p)
  else
    let (removed, cache) := popAll i blockHashes p.cachedBlockHashToBlock
    (removed, { p with cachedBlockHashToBlock := cache }.modify i KVCacheBlock.resetHash)

/-- `_insert_block_hash`. -/
def insertBlockHash (p : BlockPool) (key : BlockHashWithGroupId) (i : ℕ)
    (numTokens : Option ℕ) : Except Raised BlockPool :=
  if (p.blocks i).blockHash = some key then .ok p
  else if p.cachedBlockHashToBlock.contain key i then .ok p
  else do
    let p ← match (p.blocks i).blockHash with
      | none => do
        let b ← (p.blocks i).setBlockHash key numTokens
        pure (p.modify i fun _ => b)
      | some _ =>
        -- `setdefault(block_id, set()).add(key)`
        let keys := (p.cachedBlockHashesByBlock i).getD []
        let keys := if key ∈ keys then keys else keys ++ [key]
        pure { p with
          cachedBlockHashesByBlock := Function.update p.cachedBlockHashesByBlock i (some keys) }
    return { p with cachedBlockHashToBlock := p.cachedBlockHashToBlock.insert key i }

/-- The body of the loop of `cache_full_blocks` for a block that is not skipped. -/
def cacheFullBlock (p : BlockPool) (key : BlockHashWithGroupId) (i numHashTokens : ℕ) :
    Except Raised BlockPool := do
  let p ← match (p.blocks i).blockHash with
    | none => pure p
    | some _ => do
      -- the only valid case is the promotion of a partial entry to a full one
      require (∃ n ∈ (p.blocks i).blockHashNumTokens, n < numHashTokens) .assertionError
      pure (p.removeCachedBlockHashes i).2
  p.insertBlockHash key i (some numHashTokens)

/-- The loop of `cache_full_blocks` over the blocks from number `idx` on. -/
def cacheLoop (blockHashes : List BlockHash) (blockSize kvCacheGroupId : ℕ)
    (masked : ℕ → Bool) : ℕ → List ℕ → BlockPool → Except Raised BlockPool
  | _, [], p => .ok p
  | idx, i :: is, p =>
    if (p.blocks i).isNull || masked idx then
      cacheLoop blockHashes blockSize kvCacheGroupId masked (idx + 1) is p
    else
      match blockHashes[idx]? with
      | none => .error .indexError
      | some blockHash => do
        let p ← p.cacheFullBlock (makeBlockHashWithGroupId blockHash kvCacheGroupId) i
          ((idx + 1) * blockSize)
        cacheLoop blockHashes blockSize kvCacheGroupId masked (idx + 1) is p

/-- `cache_full_blocks`. -/
def cacheFullBlocks (p : BlockPool) (requestHashes : List BlockHash) (blocks : List ℕ)
    (numCachedBlocks numFullBlocks blockSize kvCacheGroupId : ℕ)
    (blockMask : Option (List Bool)) : Except Raised BlockPool :=
  if numFullBlocks ≤ numCachedBlocks then .ok p
  else do
    let newFullBlocks := (blocks.take numFullBlocks).drop numCachedBlocks
    require (∀ mask ∈ blockMask, mask.length = newFullBlocks.length) .assertionError
    let blockHashes ← resolveBlockHashes requestHashes p.hashBlockSize blockSize
    -- a block is skipped where the mask is false
    let masked (idx : ℕ) : Bool :=
      blockMask.any fun mask => mask[idx - numCachedBlocks]? == some false
    cacheLoop blockHashes blockSize kvCacheGroupId masked numCachedBlocks newFullBlocks p

/-- `_get_partial_block_hash`. -/
def getPartialBlockHash (p : BlockPool) (requestHashes : List BlockHash) (numTokens : ℕ) :
    Except Raised BlockHash := do
  require (numTokens % p.hashBlockSize = 0) .assertionError
  let numHashBlocks := numTokens / p.hashBlockSize
  require (0 < numHashBlocks ∧ numHashBlocks ≤ requestHashes.length) .assertionError
  match requestHashes[numHashBlocks - 1]? with
  | none => .error .indexError
  | some blockHash => .ok blockHash

/-- `cache_partial_block`. -/
def cachePartialBlock (p : BlockPool) (requestHashes : List BlockHash) (i numTokens : ℕ)
    (kvCacheGroupId blockSize : ℕ) : Except Raised (Option BlockHashWithGroupId × BlockPool) :=
  if (p.blocks i).isNull then .ok (none, p)
  else do
    require (p.hashBlockSize < blockSize) .assertionError
    require (blockSize % p.hashBlockSize = 0) .assertionError
    require (numTokens % blockSize ≠ 0) .assertionError
    let blockHash ← p.getPartialBlockHash requestHashes numTokens
    let numHashTokens := numTokens / p.hashBlockSize * p.hashBlockSize
    let key := makeBlockHashWithGroupId blockHash kvCacheGroupId
    let alreadyCached : Bool :=
      (p.blocks i).blockHash == some key || p.cachedBlockHashToBlock.contain key i
    -- a shorter entry of the block gives way to this one
    let p := if !alreadyCached && (p.blocks i).blockHash.isSome &&
        (p.blocks i).blockHashNumTokens.any (· < numHashTokens)
      then (p.removeCachedBlockHashes i).2 else p
    let p ← p.insertBlockHash key i (some numHashTokens)
    return (some key, p)

/-- `move_block_hashes`. -/
def moveBlockHashes (p : BlockPool) (src dst : ℕ) : Except Raised BlockPool := do
  require ((p.blocks dst).blockHash = none) .assertionError
  require (p.cachedBlockHashesByBlock dst = none) .assertionError
  let numTokens := (p.blocks src).blockHashNumTokens
  let (removed, p) := p.removeCachedBlockHashes src
  removed.foldlM (fun p key => p.insertBlockHash key dst numTokens) p

/-- `_maybe_evict_cached_block`: whether a key was evicted, and the pool. -/
def maybeEvictCachedBlock (p : BlockPool) (i : ℕ) : Bool × BlockPool :=
  let (evicted, p) := p.removeCachedBlockHashes i
  (!evicted.isEmpty, p)

/-- `evict_blocks`. -/
def evictBlocks (p : BlockPool) (blockIds : List ℕ) : Except Raised BlockPool :=
  blockIds.foldlM (fun p i => do
    require (i < p.numGpuBlocks) .assertionError
    pure (p.maybeEvictCachedBlock i).2) p

/-! ### Allocation -/

/-- The body of the loop of `get_new_blocks`. -/
def takeBlock (p : BlockPool) (i : ℕ) : Except Raised BlockPool := do
  let p := if p.enableCaching then (p.maybeEvictCachedBlock i).2 else p
  require ((p.blocks i).refCnt = 0) .assertionError
  pure (p.modify i fun b => b.addRef 1)

/-- `get_new_blocks`. -/
def getNewBlocks (p : BlockPool) (numBlocks : ℕ) : Except Raised (List ℕ × BlockPool) := do
  require (numBlocks ≤ p.getNumFreeBlocks) .valueError
  let (ret, freeBlockQueue) ← p.freeBlockQueue.popleftN numBlocks
  -- the fake blocks are never in it
  let ids := ret.filterMap Node.id?
  let p ← ids.foldlM takeBlock { p with freeBlockQueue }
  return (ids, p)

/-- The queue after a block has been touched: a free block leaves it. -/
def queueWithout (p : BlockPool) (i : ℕ) : Except Raised Queue :=
  if (p.blocks i).refCnt = 0 ∧ (p.blocks i).isNull = false then p.freeBlockQueue.remove (.block i)
  else .ok p.freeBlockQueue

/-- The body of the loop of `touch`. -/
def touchBlock (p : BlockPool) (i : ℕ) : Except Raised BlockPool := do
  let freeBlockQueue ← p.queueWithout i
  return { p with freeBlockQueue }.modify i fun b => b.addRef 1

/-- `touch`. -/
def touch (p : BlockPool) (blocks : List ℕ) : Except Raised BlockPool := blocks.foldlM touchBlock p

/-- `is_block_writable`. -/
def isBlockWritable (p : BlockPool) (i : ℕ) : Bool :=
  !(p.blocks i).isNull && (p.blocks i).refCnt == 1 && (p.blocks i).blockHash.isNone

/-- The loop of `free_blocks`: the blocks to evict first, those to evict last, and the pool. -/
def freeLoop : List ℕ → BlockPool → List ℕ × List ℕ × BlockPool
  | [], p => ([], [], p)
  | i :: is, p =>
    let p := p.modify i fun b => b.addRef (-1)
    let b := p.blocks i
    let (first, last, p') := freeLoop is p
    if b.refCnt = 0 ∧ b.isNull = false then
      if b.blockHash = none ∨ p.enableCaching = false then (i :: first, last, p')
      else (first, i :: last, p')
    else (first, last, p')

/-- `free_blocks`. -/
def freeBlocks (p : BlockPool) (orderedBlocks : List ℕ) : Except Raised BlockPool := do
  let (first, last, p) := freeLoop orderedBlocks p
  let freeBlockQueue ← p.freeBlockQueue.prependN (first.map .block)
  let freeBlockQueue ← freeBlockQueue.appendN (last.map .block)
  return { p with freeBlockQueue }

/-- `reset_prefix_cache`. -/
def resetPrefixCache (p : BlockPool) : Bool × BlockPool :=
  let numUsedBlocks := p.numGpuBlocks - p.getNumFreeBlocks
  -- the null block is always used
  if numUsedBlocks ≠ 1 then (false, p)
  else
    (true, { p with
      cachedBlockHashToBlock := fun _ => none
      cachedBlockHashesByBlock := fun _ => none
      -- ids from `num_gpu_blocks` on name no block
      blocks := fun i => (p.blocks i).resetHash })

end BlockPool

end Dsv41Overlay.KvCache
