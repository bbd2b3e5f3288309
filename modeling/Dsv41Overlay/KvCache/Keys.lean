import Dsv41Overlay.KvCache.Pool

/-!
# The keys of the pool's blocks

A key is found twice in the pool: under the block that owns it, as its primary key or in
`cached_block_hashes_by_block`, and in the map from keys to blocks. `Keyed` says that the
two agree. Every operation on keys keeps it, and is described by what it does to the
relation `HasKey` between blocks and keys; none of them changes a reference count or the
queue (`SameCounts`).
-/

namespace Dsv41Overlay.KvCache

open Fallible

namespace BlockPool

/-- The block owns the key. -/
def HasKey (p : BlockPool) (i : ℕ) (key : BlockHashWithGroupId) : Prop :=
  (p.blocks i).blockHash = some key ∨ key ∈ (p.cachedBlockHashesByBlock i).getD []

/-- The keys that blocks own are the keys under which the map finds them. -/
structure Keyed (p : BlockPool) : Prop where
  contain_iff : ∀ key i, p.cachedBlockHashToBlock.contain key i = true ↔ p.HasKey i key
  /-- A block with more keys has a primary one. -/
  primary : ∀ i, (p.blocks i).blockHash = none → p.cachedBlockHashesByBlock i = none
  numTokens : ∀ i, (p.blocks i).blockHash = none → (p.blocks i).blockHashNumTokens = none

/-- Nothing but keys differs. -/
structure SameCounts (p p' : BlockPool) : Prop where
  numGpuBlocks : p'.numGpuBlocks = p.numGpuBlocks
  enableCaching : p'.enableCaching = p.enableCaching
  freeBlockQueue : p'.freeBlockQueue = p.freeBlockQueue
  refCnt : ∀ i, (p'.blocks i).refCnt = (p.blocks i).refCnt
  isNull : ∀ i, (p'.blocks i).isNull = (p.blocks i).isNull

/-- The keys do not differ. -/
structure SameKeys (p p' : BlockPool) : Prop where
  cachedBlockHashToBlock : p'.cachedBlockHashToBlock = p.cachedBlockHashToBlock
  cachedBlockHashesByBlock : p'.cachedBlockHashesByBlock = p.cachedBlockHashesByBlock
  blockHash : ∀ i, (p'.blocks i).blockHash = (p.blocks i).blockHash
  blockHashNumTokens : ∀ i, (p'.blocks i).blockHashNumTokens = (p.blocks i).blockHashNumTokens

variable {p p' p'' : BlockPool} {i j : ℕ} {key key' : BlockHashWithGroupId}

theorem SameCounts.refl (p : BlockPool) : p.SameCounts p :=
  ⟨rfl, rfl, rfl, fun _ => rfl, fun _ => rfl⟩

theorem SameCounts.trans (h : p.SameCounts p') (h' : p'.SameCounts p'') : p.SameCounts p'' :=
  ⟨h'.1.trans h.1, h'.2.trans h.2, h'.3.trans h.3, fun i => (h'.4 i).trans (h.4 i),
    fun i => (h'.5 i).trans (h.5 i)⟩

theorem SameKeys.refl (p : BlockPool) : p.SameKeys p :=
  ⟨rfl, rfl, fun _ => rfl, fun _ => rfl⟩

theorem SameKeys.trans (h : p.SameKeys p') (h' : p'.SameKeys p'') : p.SameKeys p'' :=
  ⟨h'.1.trans h.1, h'.2.trans h.2, fun i => (h'.3 i).trans (h.3 i),
    fun i => (h'.4 i).trans (h.4 i)⟩

/-- A pool with the same keys holds the same key on the same blocks. -/
theorem SameKeys.hasKey_iff (h : p.SameKeys p') : p'.HasKey i key ↔ p.HasKey i key := by
  rw [HasKey, HasKey, h.blockHash, h.cachedBlockHashesByBlock]

/-- Whether the cached hashes and the table agree depends on the keys alone. -/
theorem SameKeys.keyed (h : p.SameKeys p') (hk : p.Keyed) : p'.Keyed where
  contain_iff key i := by
    rw [h.cachedBlockHashToBlock, hk.contain_iff, h.hasKey_iff]
  primary i hi := by
    rw [h.cachedBlockHashesByBlock]
    exact hk.primary i (h.blockHash i ▸ hi)
  numTokens i hi := by
    rw [h.blockHashNumTokens]
    exact hk.numTokens i (h.blockHash i ▸ hi)

/-- A block without a primary key has no key. -/
theorem Keyed.not_hasKey (hk : p.Keyed) (hi : (p.blocks i).blockHash = none) :
    ¬p.HasKey i key := by
  rw [HasKey, hi, hk.primary i hi]
  simp

/-- The changed block is the one asked for. -/
theorem modify_self {f : KVCacheBlock → KVCacheBlock} :
    (p.modify i f).blocks i = f (p.blocks i) := Function.update_self ..

/-- The other blocks are as before. -/
theorem modify_of_ne {f : KVCacheBlock → KVCacheBlock} (h : j ≠ i) :
    (p.modify i f).blocks j = p.blocks j := Function.update_of_ne h ..

/-- A field of the blocks that the update of one block keeps. -/
theorem update_field {α : Type*} (g : KVCacheBlock → α) {blocks : ℕ → KVCacheBlock}
    {b : KVCacheBlock} (hb : g b = g (blocks i)) (j : ℕ) :
    g (Function.update blocks i b j) = g (blocks j) := by
  by_cases hj : j = i
  · rw [hj, Function.update_self, hb]
  · rw [Function.update_of_ne hj]

/-! ### Removal -/

/-- After a block was taken out under some keys, the table still finds it under the others, and
every other block as before. -/
theorem contain_popAll {keys : List BlockHashWithGroupId} {cache : BlockHashToBlockMap} :
    (popAll i keys cache).2.contain key j = true ↔
      cache.contain key j = true ∧ ¬(key ∈ keys ∧ j = i) := by
  induction keys generalizing cache with
  | nil => simp [popAll]
  | cons k keys ih =>
    simp only [popAll, ih, BlockHashToBlockMap.contain_pop, List.mem_cons]
    by_cases hj : j = i
    · simp only [hj, and_true, not_or, and_assoc]
    · simp only [hj, and_false, not_false_eq_true, and_true]

/-- The keys that come back are those under which the block was found. -/
theorem mem_popAll_fst {keys : List BlockHashWithGroupId} {cache : BlockHashToBlockMap} :
    key ∈ (popAll i keys cache).1 ↔ key ∈ keys ∧ cache.contain key i = true := by
  induction keys generalizing cache with
  | nil => simp [popAll]
  | cons k keys ih =>
    -- the first key is found where the table contains the block under it
    have hhead : (cache.pop k i).1.isSome = true ↔ cache.contain k i = true := by
      rw [BlockHashToBlockMap.pop_fst]
      split <;> simp_all
    have hmem : key ∈ (popAll i (k :: keys) cache).1 ↔
        key = k ∧ (cache.pop k i).1.isSome = true ∨ key ∈ (popAll i keys (cache.pop k i).2).1 := by
      simp only [popAll]
      split <;> simp_all
    rw [hmem, ih, hhead, BlockHashToBlockMap.contain_pop, List.mem_cons]
    -- once taken out, a key is not found again
    by_cases hkey : key = k
    · subst hkey
      tauto
    · simp [hkey]

/-- The keys of a block in the order in which they are removed. -/
def keysOf (p : BlockPool) (i : ℕ) : List BlockHashWithGroupId :=
  (p.blocks i).blockHash.toList ++ (p.cachedBlockHashesByBlock i).getD []

/-- The keys of a block are those the table knows it by. -/
theorem mem_keysOf : key ∈ p.keysOf i ↔ p.HasKey i key := by
  simp [keysOf, HasKey]

/-- Resetting a block that has no hash changes nothing. -/
theorem Keyed.resetHash (hk : p.Keyed) (hi : (p.blocks i).blockHash = none) :
    (p.blocks i).resetHash = p.blocks i := by
  rw [KVCacheBlock.resetHash, ← hi, ← hk.numTokens i hi]

/-- Whether the block has keys or not: they go from the block and from both maps. -/
theorem removeCachedBlockHashes_eq (hk : p.Keyed) (i : ℕ) :
    p.removeCachedBlockHashes i = ((popAll i (p.keysOf i) p.cachedBlockHashToBlock).1,
      { p with
        blocks := Function.update p.blocks i (p.blocks i).resetHash
        cachedBlockHashToBlock := (popAll i (p.keysOf i) p.cachedBlockHashToBlock).2
        cachedBlockHashesByBlock := Function.update p.cachedBlockHashesByBlock i none }) := by
  unfold removeCachedBlockHashes
  by_cases hkeys : p.keysOf i = []
  · have hnone : (p.blocks i).blockHash = none := by
      simpa using (List.append_eq_nil_iff.mp hkeys).1
    rw [hkeys, hk.resetHash hnone, Function.update_eq_self]
    exact if_pos hkeys
  · exact if_neg hkeys

/-- **`_remove_cached_block_hashes`** takes all keys of one block. -/
theorem removeCachedBlockHashes_spec (hk : p.Keyed) (i : ℕ) :
    (p.removeCachedBlockHashes i).2.Keyed ∧ p.SameCounts (p.removeCachedBlockHashes i).2 ∧
      (∀ j key, (p.removeCachedBlockHashes i).2.HasKey j key ↔ p.HasKey j key ∧ j ≠ i) ∧
      ∀ key, key ∈ (p.removeCachedBlockHashes i).1 ↔ p.HasKey i key := by
  rw [removeCachedBlockHashes_eq hk]
  -- only the block itself loses its keys
  have hhas (j : ℕ) (key : BlockHashWithGroupId) : HasKey { p with
        blocks := Function.update p.blocks i (p.blocks i).resetHash
        cachedBlockHashToBlock := (popAll i (p.keysOf i) p.cachedBlockHashToBlock).2
        cachedBlockHashesByBlock := Function.update p.cachedBlockHashesByBlock i none } j key ↔
      p.HasKey j key ∧ j ≠ i := by
    by_cases hj : j = i
    · simp [HasKey, hj, KVCacheBlock.resetHash]
    · simp [HasKey, hj]
  refine ⟨⟨fun key j => ?_, fun j hj => ?_, fun j hj => ?_⟩,
    ⟨rfl, rfl, rfl, fun j => ?_, fun j => ?_⟩, hhas, fun key => ?_⟩
  -- the table agrees with the blocks
  · rw [hhas, contain_popAll, hk.contain_iff, mem_keysOf]
    constructor
    · rintro ⟨h, hnot⟩
      exact ⟨h, fun hj => hnot ⟨hj ▸ h, hj⟩⟩
    · rintro ⟨h, hj⟩
      exact ⟨h, fun hand => hj hand.2⟩
  · by_cases hji : j = i
    · simp [hji]
    · simp only [Function.update_of_ne hji] at hj ⊢
      exact hk.primary j hj
  · by_cases hji : j = i
    · simp [hji, KVCacheBlock.resetHash]
    · simp only [Function.update_of_ne hji] at hj ⊢
      exact hk.numTokens j hj
  -- the counters are untouched
  · have hsame : (p.blocks i).resetHash.refCnt = (p.blocks i).refCnt := rfl
    exact update_field KVCacheBlock.refCnt hsame j
  · have hsame : (p.blocks i).resetHash.isNull = (p.blocks i).isNull := rfl
    exact update_field KVCacheBlock.isNull hsame j
  · rw [mem_popAll_fst, hk.contain_iff, mem_keysOf, and_self]

/-! ### Insertion -/

/-- **`_insert_block_hash`** gives one block one key. -/
theorem insertBlockHash_spec (hk : p.Keyed) (key : BlockHashWithGroupId) (i : ℕ)
    (numTokens : Option ℕ) :
    ∃ p', p.insertBlockHash key i numTokens = .ok p' ∧ p'.Keyed ∧ p.SameCounts p' ∧
      ∀ j k, p'.HasKey j k ↔ p.HasKey j k ∨ j = i ∧ k = key := by
  by_cases hkey : p.HasKey i key
  · -- the block has the key: nothing is done
    have hdone : p.insertBlockHash key i numTokens = .ok p := by
      rw [insertBlockHash]
      split
      · rfl
      · exact if_pos ((hk.contain_iff key i).mpr hkey)
    refine ⟨p, hdone, hk, .refl p, fun j k => ⟨.inl, ?_⟩⟩
    rintro (h | ⟨rfl, rfl⟩)
    · exact h
    · exact hkey
  · have hprimary : ¬(p.blocks i).blockHash = some key := fun h => hkey (.inl h)
    have hcontain : ¬p.cachedBlockHashToBlock.contain key i = true :=
      fun h => hkey ((hk.contain_iff key i).mp h)
    -- what is left to show of the two ways in which the block may take the key
    have hrest (p' : BlockPool)
        (hcache : p'.cachedBlockHashToBlock = p.cachedBlockHashToBlock.insert key i)
        (hhas : ∀ j k, p'.HasKey j k ↔ p.HasKey j k ∨ j = i ∧ k = key) :
        ∀ k j, p'.cachedBlockHashToBlock.contain k j = true ↔ p'.HasKey j k := by
      intro k j
      rw [hcache, BlockHashToBlockMap.contain_insert, hhas, hk.contain_iff, and_comm]
    cases hhash : (p.blocks i).blockHash with
    -- the block takes the key as its first
    | none =>
      have htokens := hk.numTokens i hhash
      obtain ⟨b, hb⟩ : ∃ b : KVCacheBlock, b =
          { p.blocks i with blockHash := some key, blockHashNumTokens := numTokens } := ⟨_, rfl⟩
      have hset : (p.blocks i).setBlockHash key numTokens = .ok b := by
        rw [KVCacheBlock.setBlockHash, if_pos ⟨hhash, htokens⟩, hb]
      obtain ⟨p', hp'⟩ : ∃ p' : BlockPool, p' = { p with
        blocks := Function.update p.blocks i b
        cachedBlockHashToBlock := p.cachedBlockHashToBlock.insert key i } := ⟨_, rfl⟩
      have hok : p.insertBlockHash key i numTokens = .ok p' := by
        rw [insertBlockHash, if_neg hprimary, if_neg hcontain, hhash]
        simp only [hset, bind, Except.bind, pure, Except.pure, modify, hp']
      have hhas : ∀ j k, p'.HasKey j k ↔ p.HasKey j k ∨ j = i ∧ k = key := by
        intro j k
        by_cases hj : j = i
        · subst hj
          have hold : ¬p.HasKey j k := hk.not_hasKey hhash
          simp only [hold, true_and, false_or]
          simp [HasKey, hp', hb, hk.primary j hhash, eq_comm]
        · simp [HasKey, hp', hj]
      refine ⟨p', hok, ⟨hrest p' (by rw [hp']) hhas, fun j hj => ?_, fun j hj => ?_⟩, ?_, hhas⟩
      · by_cases hji : j = i
        · simp [hp', hji, hb] at hj
        · simp only [hp', Function.update_of_ne hji] at hj ⊢
          exact hk.primary j hj
      · by_cases hji : j = i
        · simp [hp', hji, hb] at hj
        · simp only [hp', Function.update_of_ne hji] at hj ⊢
          exact hk.numTokens j hj
      · rw [hp']
        have hsame : b.refCnt = (p.blocks i).refCnt ∧ b.isNull = (p.blocks i).isNull := by
          rw [hb]
          exact ⟨rfl, rfl⟩
        exact ⟨rfl, rfl, rfl, update_field KVCacheBlock.refCnt hsame.1,
          update_field KVCacheBlock.isNull hsame.2⟩
    | some old =>
      -- the block has a hash already, so the key goes to its list
      have hnew : key ∉ (p.cachedBlockHashesByBlock i).getD [] := fun h => hkey (.inr h)
      obtain ⟨p', hp'⟩ : ∃ p' : BlockPool, p' = { p with
        cachedBlockHashesByBlock := Function.update p.cachedBlockHashesByBlock i
          (some ((p.cachedBlockHashesByBlock i).getD [] ++ [key]))
        cachedBlockHashToBlock := p.cachedBlockHashToBlock.insert key i } := ⟨_, rfl⟩
      have hok : p.insertBlockHash key i numTokens = .ok p' := by
        rw [insertBlockHash, if_neg hprimary, if_neg hcontain, hhash]
        simp only [if_neg hnew, bind, Except.bind, pure, Except.pure, hp']
      have hhas : ∀ j k, p'.HasKey j k ↔ p.HasKey j k ∨ j = i ∧ k = key := by
        intro j k
        by_cases hj : j = i
        · simp [HasKey, hp', hj, or_assoc]
        · simp [HasKey, hp', hj]
      refine ⟨p', hok, ⟨hrest p' (by rw [hp']) hhas, fun j hj => ?_, fun j hj => ?_⟩, ?_, hhas⟩
      · rw [hp'] at hj ⊢
        have hji : j ≠ i := by
          rintro rfl
          exact absurd (hhash.symm.trans hj) (by simp)
        simp only [Function.update_of_ne hji]
        exact hk.primary j hj
      · rw [hp'] at hj ⊢
        exact hk.numTokens j hj
      · rw [hp']
        exact ⟨rfl, rfl, rfl, fun _ => rfl, fun _ => rfl⟩

/-! ### Caching -/

/-- What an operation on keys does: it may give the keys that `stored` tells, and takes
keys only from the blocks `is`. -/
structure KeyStep (stored : ℕ → BlockHashWithGroupId → Prop) (is : List ℕ) (p p' : BlockPool) :
    Prop where
  keyed : p'.Keyed
  same : p.SameCounts p'
  hasKey : ∀ j k, p'.HasKey j k → p.HasKey j k ∨ stored j k
  keeps : ∀ j ∉ is, ∀ k, p.HasKey j k → p'.HasKey j k

variable {stored stored' : ℕ → BlockHashWithGroupId → Prop} {is js : List ℕ}

theorem KeyStep.refl (hk : p.Keyed) : KeyStep stored is p p :=
  ⟨hk, .refl p, fun _ _ h => .inl h, fun _ _ _ h => h⟩

theorem KeyStep.trans (h : KeyStep stored is p p') (h' : KeyStep stored is p' p'') :
    KeyStep stored is p p'' where
  keyed := h'.keyed
  same := h.same.trans h'.same
  hasKey j k hjk := (h'.hasKey j k hjk).elim (h.hasKey j k) .inr
  keeps j hj k hjk := h'.keeps j hj k (h.keeps j hj k hjk)

/-- A step that stores less on fewer blocks is also a step that stores more on more. -/
theorem KeyStep.mono (h : KeyStep stored is p p') (hle : ∀ j k, stored j k → stored' j k)
    (hsub : ∀ j ∈ is, j ∈ js) : KeyStep stored' js p p' :=
  ⟨h.keyed, h.same, fun j k hjk => (h.hasKey j k hjk).imp_right (hle j k),
    fun j hj => h.keeps j fun hi => hj (hsub j hi)⟩

/-- Taking the hashes off a block is a key step that stores nothing. -/
theorem removeCachedBlockHashes_keyStep (hk : p.Keyed) (i : ℕ) :
    KeyStep stored [i] p (p.removeCachedBlockHashes i).2 := by
  obtain ⟨hkeyed, hsame, hhas, -⟩ := removeCachedBlockHashes_spec hk i
  exact ⟨hkeyed, hsame, fun j k h => .inl ((hhas j k).mp h).1,
    fun j hj k h => (hhas j k).mpr ⟨h, fun hji => hj (List.mem_singleton.mpr hji)⟩⟩

/-- A block that is cached as full has one key, that of its prefix. -/
theorem cacheFullBlock_spec {n : ℕ} (hk : p.Keyed) (h : p.cacheFullBlock key i n = .ok p') :
    p'.Keyed ∧ p.SameCounts p' ∧
      ∀ j k, p'.HasKey j k ↔ p.HasKey j k ∧ j ≠ i ∨ j = i ∧ k = key := by
  rw [cacheFullBlock] at h
  -- first the block has no key
  obtain ⟨p₁, hk₁, hsame₁, hhas₁, hinsert⟩ : ∃ p₁ : BlockPool, p₁.Keyed ∧ p.SameCounts p₁ ∧
      (∀ j k, p₁.HasKey j k ↔ p.HasKey j k ∧ j ≠ i) ∧
      p₁.insertBlockHash key i (some n) = .ok p' := by
    cases hhash : (p.blocks i).blockHash with
    | none =>
      rw [hhash] at h
      refine ⟨p, hk, .refl p, fun j k => ⟨fun hjk => ⟨hjk, ?_⟩, And.left⟩, h⟩
      rintro rfl
      exact hk.not_hasKey hhash hjk
    | some old =>
      rw [hhash] at h
      obtain ⟨-, -, hinsert⟩ := bind_eq_ok.mp h
      obtain ⟨hkeyed, hsame, hhas, -⟩ := removeCachedBlockHashes_spec hk i
      exact ⟨_, hkeyed, hsame, hhas, hinsert⟩
  -- then it takes the new one
  obtain ⟨p₂, hok, hk₂, hsame₂, hhas₂⟩ := insertBlockHash_spec hk₁ key i (some n)
  obtain rfl := Except.ok.inj (hok.symm.trans hinsert)
  refine ⟨hk₂, hsame₁.trans hsame₂, fun j k => ?_⟩
  rw [hhas₂, hhas₁]

/-- The keys that the loop of `cache_full_blocks` gives: number `idx + d` of the request's
hashes to the block at that place. -/
def CachesFull (blockHashes : List BlockHash) (kvCacheGroupId idx : ℕ) (blocks : List ℕ)
    (j : ℕ) (k : BlockHashWithGroupId) : Prop :=
  ∃ d blockHash, blocks[d]? = some j ∧ blockHashes[idx + d]? = some blockHash ∧
    k = makeBlockHashWithGroupId blockHash kvCacheGroupId

/-- What is cached from the second block on is cached from the first on. -/
theorem CachesFull.tail {blockHashes : List BlockHash} {g idx : ℕ} {is : List ℕ} {k}
    (h : CachesFull blockHashes g (idx + 1) is j k) :
    CachesFull blockHashes g idx (i :: is) j k := by
  obtain ⟨d, blockHash, hblock, hhash, hk⟩ := h
  refine ⟨d + 1, blockHash, hblock, ?_, hk⟩
  rwa [Nat.add_assoc, Nat.add_comm 1 d] at hhash

/-- Caching full blocks stores their hashes on blocks other than the null block and touches no other
key. -/
theorem cacheLoop_keyStep {blockHashes : List BlockHash} {blockSize g idx : ℕ}
    {masked : ℕ → Bool} {is : List ℕ} (hk : p.Keyed)
    (h : cacheLoop blockHashes blockSize g masked idx is p = .ok p') :
    KeyStep (fun j k => CachesFull blockHashes g idx is j k ∧ (p.blocks j).isNull = false)
      is p p' := by
  induction is generalizing p idx with
  | nil =>
    obtain rfl := Except.ok.inj h
    exact .refl hk
  | cons i is ih =>
    rw [cacheLoop] at h
    split at h
    -- a masked block is passed over
    · exact (ih hk h).mono (fun j k hjk => ⟨hjk.1.tail, hjk.2⟩)
        fun j hj => List.mem_cons_of_mem i hj
    · rename_i hnull
      split at h
      · cases h
      · rename_i blockHash hhash
        -- a block that is not is given the hash of its place
        obtain ⟨p₁, h₁, h⟩ := bind_eq_ok.mp h
        obtain ⟨hk₁, hsame₁, hhas₁⟩ := cacheFullBlock_spec hk h₁
        refine KeyStep.trans ⟨hk₁, hsame₁, fun j k hjk => ?_, fun j hj k hjk => ?_⟩
          ((ih hk₁ h).mono (fun j k hjk => ?_) fun j hj => List.mem_cons_of_mem i hj)
        · obtain ⟨hjk, -⟩ | ⟨rfl, rfl⟩ := (hhas₁ j k).mp hjk
          · exact .inl hjk
          · refine .inr ⟨⟨0, blockHash, rfl, hhash, rfl⟩, ?_⟩
            simpa using (not_or.mp (mt Bool.or_eq_true_iff.mpr hnull)).1
        · exact (hhas₁ j k).mpr (.inl ⟨hjk, fun hji => hj (hji ▸ List.mem_cons_self)⟩)
        · exact ⟨hjk.1.tail, (hsame₁.isNull j).symm.trans hjk.2⟩

/-- The keys that `cache_full_blocks` gives. -/
def StoresFull (p : BlockPool) (requestHashes : List BlockHash) (blocks : List ℕ)
    (numCachedBlocks numFullBlocks blockSize kvCacheGroupId : ℕ) (j : ℕ)
    (k : BlockHashWithGroupId) : Prop :=
  (p.blocks j).isNull = false ∧ ∃ idx blockHashes blockHash,
    numCachedBlocks ≤ idx ∧ idx < numFullBlocks ∧ blocks[idx]? = some j ∧
    resolveBlockHashes requestHashes p.hashBlockSize blockSize = .ok blockHashes ∧
    blockHashes[idx]? = some blockHash ∧ k = makeBlockHashWithGroupId blockHash kvCacheGroupId

/-- **`cache_full_blocks`** gives each block the key at its place in the request. -/
theorem cacheFullBlocks_keyStep {requestHashes : List BlockHash} {blocks : List ℕ}
    {c n blockSize g : ℕ} {mask : Option (List Bool)} (hk : p.Keyed)
    (h : p.cacheFullBlocks requestHashes blocks c n blockSize g mask = .ok p') :
    KeyStep (p.StoresFull requestHashes blocks c n blockSize g) blocks p p' := by
  rw [cacheFullBlocks] at h
  split at h
  · obtain rfl := Except.ok.inj h
    exact .refl hk
  · obtain ⟨-, -, h⟩ := bind_eq_ok.mp h
    -- the hashes are cut to the block size first
    obtain ⟨blockHashes, hhashes, h⟩ := bind_eq_ok.mp h
    refine (cacheLoop_keyStep hk h).mono (fun j k => ?_)
      fun j hj => List.mem_of_mem_take (List.mem_of_mem_drop hj)
    rintro ⟨⟨d, blockHash, hblock, hhash, rfl⟩, hnull⟩
    -- the place is one of the new full blocks
    have hlt : c + d < n := by
      have hd := (List.getElem?_eq_some_iff.mp hblock).1
      rw [List.length_drop, List.length_take] at hd
      omega
    refine ⟨hnull, c + d, blockHashes, blockHash, Nat.le_add_right c d, hlt, ?_, hhashes, hhash,
      rfl⟩
    rw [List.getElem?_drop, List.getElem?_take_of_lt hlt] at hblock
    exact hblock

/-- The key that `cache_partial_block` gives. -/
def StoresPartial (p : BlockPool) (requestHashes : List BlockHash) (i numTokens : ℕ)
    (kvCacheGroupId : ℕ) (j : ℕ) (k : BlockHashWithGroupId) : Prop :=
  (p.blocks i).isNull = false ∧ j = i ∧ ∃ blockHash,
    p.hashBlockSize ∣ numTokens ∧
    requestHashes[numTokens / p.hashBlockSize - 1]? = some blockHash ∧
    k = makeBlockHashWithGroupId blockHash kvCacheGroupId

/-- Caching a partial block stores at most the one key it computes. -/
theorem cachePartialBlock_keyStep {requestHashes : List BlockHash} {n g blockSize : ℕ}
    {ret : Option BlockHashWithGroupId} (hk : p.Keyed)
    (h : p.cachePartialBlock requestHashes i n g blockSize = .ok (ret, p')) :
    KeyStep (p.StoresPartial requestHashes i n g) [i] p p' := by
  rw [cachePartialBlock] at h
  split at h
  · obtain ⟨-, rfl⟩ := Prod.mk.inj (Except.ok.inj h)
    exact .refl hk
  · rename_i hnull
    -- the three assertions hold where the call returns
    obtain ⟨-, -, h⟩ := bind_eq_ok.mp h
    obtain ⟨-, -, h⟩ := bind_eq_ok.mp h
    obtain ⟨-, -, h⟩ := bind_eq_ok.mp h
    obtain ⟨blockHash, hhash, h⟩ := bind_eq_ok.mp h
    -- the hash that is stored is that of the prefix at this token
    have hstores :
        p.StoresPartial requestHashes i n g i (makeBlockHashWithGroupId blockHash g) := by
      rw [getPartialBlockHash] at hhash
      obtain ⟨_, hdvd, hhash⟩ := bind_eq_ok.mp hhash
      obtain ⟨-, -, hhash⟩ := bind_eq_ok.mp hhash
      have hdvd := Nat.dvd_of_mod_eq_zero (require_eq_ok.mp hdvd)
      refine ⟨by simpa using hnull, rfl, blockHash, hdvd, ?_, rfl⟩
      split at hhash
      · cases hhash
      · rename_i found hfound
        rw [hfound, Except.ok.inj hhash]
    -- a block that has hashes loses them first
    obtain ⟨p₁, hp₁, h⟩ : ∃ p₁, KeyStep (p.StoresPartial requestHashes i n g) [i] p p₁ ∧
        (p₁.insertBlockHash (makeBlockHashWithGroupId blockHash g) i
          (some (n / p.hashBlockSize * p.hashBlockSize)) >>= fun p =>
            pure (some (makeBlockHashWithGroupId blockHash g), p)) = .ok (ret, p') := by
      refine ⟨_, ?_, h⟩
      split
      · exact removeCachedBlockHashes_keyStep hk i
      · exact .refl hk
    obtain ⟨p₂, hinsert, h⟩ := bind_eq_ok.mp h
    obtain ⟨-, rfl⟩ := Prod.mk.inj (Except.ok.inj h)
    obtain ⟨p₂', hok, hk₂, hsame₂, hhas₂⟩ := insertBlockHash_spec hp₁.keyed
      (makeBlockHashWithGroupId blockHash g) i (some (n / p.hashBlockSize * p.hashBlockSize))
    obtain rfl := Except.ok.inj (hok.symm.trans hinsert)
    refine hp₁.trans ⟨hk₂, hsame₂, fun j k hjk => ?_, fun j _ k hjk => (hhas₂ j k).mpr (.inl hjk)⟩
    obtain hjk | ⟨rfl, rfl⟩ := (hhas₂ j k).mp hjk
    · exact .inl hjk
    · exact .inr hstores

/-- Inserting a block under a list of keys adds these keys and keeps the counts. -/
theorem insertAll_spec (hk : p.Keyed) (i : ℕ) (keys : List BlockHashWithGroupId) (n : Option ℕ) :
    ∃ p', keys.foldlM (fun p key => p.insertBlockHash key i n) p = .ok p' ∧ p'.Keyed ∧
      p.SameCounts p' ∧ ∀ j k, p'.HasKey j k ↔ p.HasKey j k ∨ j = i ∧ k ∈ keys := by
  induction keys generalizing p with
  | nil => exact ⟨p, rfl, hk, .refl p, fun j k => by simp⟩
  | cons key keys ih =>
    obtain ⟨p₁, h₁, hk₁, hsame₁, hhas₁⟩ := insertBlockHash_spec hk key i n
    obtain ⟨p₂, h₂, hk₂, hsame₂, hhas₂⟩ := ih hk₁
    refine ⟨p₂, ?_, hk₂, hsame₁.trans hsame₂, fun j k => ?_⟩
    · rw [List.foldlM_cons, h₁]
      exact h₂
    · rw [hhas₂, hhas₁, List.mem_cons, and_or_left, or_assoc]

/-- **`move_block_hashes`** hands the keys of one block to another. -/
theorem moveBlockHashes_spec {src dst : ℕ} (hk : p.Keyed)
    (h : p.moveBlockHashes src dst = .ok p') :
    p'.Keyed ∧ p.SameCounts p' ∧
      ∀ j k, p'.HasKey j k ↔ p.HasKey j k ∧ j ≠ src ∨ j = dst ∧ p.HasKey src k := by
  rw [moveBlockHashes] at h
  obtain ⟨-, -, h⟩ := bind_eq_ok.mp h
  obtain ⟨-, -, h⟩ := bind_eq_ok.mp h
  obtain ⟨hk₁, hsame₁, hhas₁, hremoved⟩ := removeCachedBlockHashes_spec hk src
  obtain ⟨p₂, h₂, hk₂, hsame₂, hhas₂⟩ := insertAll_spec hk₁ dst
    (p.removeCachedBlockHashes src).1 (p.blocks src).blockHashNumTokens
  obtain rfl := Except.ok.inj (h₂.symm.trans h)
  refine ⟨hk₂, hsame₁.trans hsame₂, fun j k => ?_⟩
  rw [hhas₂, hhas₁, hremoved]

/-- **`evict_blocks`** takes all keys of the blocks. -/
theorem evictBlocks_spec (hk : p.Keyed) (h : p.evictBlocks is = .ok p') :
    p'.Keyed ∧ p.SameCounts p' ∧ ∀ j k, p'.HasKey j k ↔ p.HasKey j k ∧ j ∉ is := by
  induction is generalizing p with
  | nil =>
    obtain rfl := Except.ok.inj h
    exact ⟨hk, .refl p, fun j k => by simp⟩
  | cons i is ih =>
    rw [evictBlocks, List.foldlM_cons] at h
    -- the first block is evicted, then the rest
    obtain ⟨p₁, h₁, h⟩ := bind_eq_ok.mp h
    obtain ⟨-, -, h₁⟩ := bind_eq_ok.mp h₁
    obtain ⟨hk₁, hsame₁, hhas₁, -⟩ := removeCachedBlockHashes_spec hk i
    obtain rfl : (p.removeCachedBlockHashes i).2 = p₁ := Except.ok.inj h₁
    obtain ⟨hk₂, hsame₂, hhas₂⟩ := ih hk₁ h
    refine ⟨hk₂, hsame₁.trans hsame₂, fun j k => ?_⟩
    rw [hhas₂, hhas₁, List.mem_cons, not_or, and_assoc]

/-- Evicting blocks stores no key. -/
theorem evictBlocks_keyStep (hk : p.Keyed) (h : p.evictBlocks is = .ok p') :
    KeyStep (fun _ _ => False) is p p' := by
  obtain ⟨hk', hsame, hhas⟩ := evictBlocks_spec hk h
  exact ⟨hk', hsame, fun j k hjk => .inl ((hhas j k).mp hjk).1,
    fun j hj k hjk => (hhas j k).mpr ⟨hjk, hj⟩⟩

/-- `evict_blocks` fails on ids that name no block, and on nothing else. -/
theorem evictBlocks_ok (h : ∀ i ∈ is, i < p.numGpuBlocks) (hk : p.Keyed) :
    ∃ p', p.evictBlocks is = .ok p' := by
  induction is generalizing p with
  | nil => exact ⟨p, rfl⟩
  | cons i is ih =>
    obtain ⟨hi, his⟩ := List.forall_mem_cons.mp h
    obtain ⟨hk₁, hsame₁, -⟩ := removeCachedBlockHashes_spec hk i
    obtain ⟨p₂, h₂⟩ := ih (fun j hj => hsame₁.numGpuBlocks ▸ his j hj) hk₁
    refine ⟨p₂, ?_⟩
    rw [evictBlocks, List.foldlM_cons, require, if_pos hi]
    exact h₂

/-- **`reset_prefix_cache`** takes all keys, or does nothing. -/
theorem resetPrefixCache_spec (hk : p.Keyed) :
    p.resetPrefixCache.2.Keyed ∧ p.SameCounts p.resetPrefixCache.2 ∧
      ∀ j k, p.resetPrefixCache.2.HasKey j k ↔ p.HasKey j k ∧ p.resetPrefixCache.1 = false := by
  rw [resetPrefixCache]
  split
  · exact ⟨hk, .refl p, fun j k => ⟨fun h => ⟨h, rfl⟩, And.left⟩⟩
  · refine ⟨⟨fun key i => ?_, fun _ _ => rfl, fun _ _ => rfl⟩,
      ⟨rfl, rfl, rfl, fun _ => rfl, fun _ => rfl⟩, fun j k => ?_⟩
    · simp [HasKey, BlockHashToBlockMap.contain, KVCacheBlock.resetHash]
    · simp [HasKey, KVCacheBlock.resetHash]

end BlockPool

end Dsv41Overlay.KvCache
