import Dsv41Overlay.Lib.Bytes
import Mathlib.Data.List.Nodup
import Mathlib.Logic.Function.Basic

/-!
# Hash keys and the map from keys to blocks

A cached block is found by a `BlockHashWithGroupId`: the hash of the prefix that ends with
the block, and the KV cache group, packed into one byte string. The packing can be undone
(`getBlockHash_make`, `getGroupId_make`), so that two groups never share a key.

`BlockHashToBlockMap` keeps a single block under a key as it is, and several blocks of one
key in a dictionary. Which of the two forms a key has shows in no result: `contain` is a
relation between keys and blocks, `insert` adds a pair to it (`contain_insert`), `pop`
takes one away (`contain_pop`), and `get_one_block` finds a block whenever there is one.
-/

namespace Dsv41Overlay.KvCache

abbrev BlockHash := List UInt8

abbrev BlockHashWithGroupId := List UInt8

/-- `make_block_hash_with_group_id`, for group ids below `2 ^ 32`. -/
def makeBlockHashWithGroupId (blockHash : BlockHash) (groupId : ℕ) : BlockHashWithGroupId :=
  -- four bytes, the highest first
  blockHash ++ (toLE 4 groupId).reverse

/-- `get_block_hash`. -/
def getBlockHash (key : BlockHashWithGroupId) : BlockHash := key.take (key.length - 4)

/-- `get_group_id`. -/
def getGroupId (key : BlockHashWithGroupId) : ℕ := ofLE (key.drop (key.length - 4)).reverse

section Key

variable {h h' : BlockHash} {g g' : ℕ}

/-- A packed key is its hash and four bytes for the group. -/
theorem length_make : (makeBlockHashWithGroupId h g).length - 4 = h.length := by
  rw [makeBlockHashWithGroupId, List.length_append, List.length_reverse, length_toLE,
    Nat.add_sub_cancel]

/-- The hash is read back from a packed key. -/
theorem getBlockHash_make (h : BlockHash) (g : ℕ) :
    getBlockHash (makeBlockHashWithGroupId h g) = h := by
  rw [getBlockHash, length_make]
  exact List.take_left

/-- The group is read back from a packed key, as long as it fits four bytes. -/
theorem getGroupId_make (h : BlockHash) (hg : g < 2 ^ 32) :
    getGroupId (makeBlockHashWithGroupId h g) = g := by
  rw [getGroupId, length_make, makeBlockHashWithGroupId, List.drop_left, List.reverse_reverse]
  exact ofLE_toLE hg

/-- Keys agree on nothing but equal hashes of one group. -/
theorem make_inj (hg : g < 2 ^ 32) (hg' : g' < 2 ^ 32) :
    makeBlockHashWithGroupId h g = makeBlockHashWithGroupId h' g' ↔ h = h' ∧ g = g' := by
  constructor
  · intro heq
    have hhash := congrArg getBlockHash heq
    have hgroup := congrArg getGroupId heq
    rw [getBlockHash_make, getBlockHash_make] at hhash
    rw [getGroupId_make h hg, getGroupId_make h' hg'] at hgroup
    exact ⟨hhash, hgroup⟩
  · rintro ⟨rfl, rfl⟩
    rfl

end Key

/-- What `_cache` holds under a key: a block, or a dictionary of blocks by their id. -/
inductive CachedBlocks
  | one (i : ℕ)
  /-- A dictionary is never left empty. -/
  | many (i : ℕ) (is : List ℕ)
deriving DecidableEq, Repr

/-- The ids, the first one first. -/
def CachedBlocks.ids : CachedBlocks → List ℕ
  | .one i => [i]
  | .many i is => i :: is

/-- The dictionary with these ids, if there are any. -/
def CachedBlocks.ofIds : List ℕ → Option CachedBlocks
  | [] => none
  | i :: is => some (.many i is)

/-- `BlockHashToBlockMap`. -/
abbrev BlockHashToBlockMap := BlockHashWithGroupId → Option CachedBlocks

namespace BlockHashToBlockMap

variable (cache : BlockHashToBlockMap) (key : BlockHashWithGroupId) (blockId : ℕ)

/-- `get_one_block`. -/
def getOneBlock : Option ℕ :=
  match cache key with
  | none => none
  | some (.one i) => some i
  | some (.many i _) => some i

/-- `contain`. -/
def contain : Bool :=
  match cache key with
  | none => false
  | some (.one i) => i == blockId
  | some (.many i is) => decide (blockId ∈ i :: is)

/-- `insert`. -/
def insert : BlockHashToBlockMap :=
  Function.update cache key <| match cache key with
    | none => some (.one blockId)
    -- two entries with one id are one entry of the dictionary
    | some (.one i) => some (.many i (if i = blockId then [] else [blockId]))
    | some (.many i is) =>
      some (.many i (if blockId ∈ i :: is then is else is ++ [blockId]))

/-- `pop`: the block taken out, and the map. -/
def pop : Option ℕ × BlockHashToBlockMap :=
  match cache key with
  | none => (none, cache)
  | some (.one i) => if i = blockId then (some i, Function.update cache key none) else (none, cache)
  | some (.many i is) =>
    (if blockId ∈ i :: is then some blockId else none,
      Function.update cache key (CachedBlocks.ofIds ((i :: is).filter fun j => j ≠ blockId)))

variable {cache key blockId} {key' : BlockHashWithGroupId} {i : ℕ}

/-- The table contains a block under a key when the block is among the entries of that key. -/
theorem contain_iff : cache.contain key i = true ↔ ∃ blocks, cache key = some blocks ∧
    i ∈ blocks.ids := by
  rw [contain]
  cases cache key with
  | none => simp
  | some blocks =>
    cases blocks with
    | one j =>
      simp only [Option.some.injEq, exists_eq_left', CachedBlocks.ids, beq_iff_eq,
        List.mem_singleton]
      exact eq_comm
    | many j js => simp [CachedBlocks.ids]

/-- Packing ids into an entry and reading them back gives the same ids. -/
theorem mem_ids_of_ofIds {ids : List ℕ} :
    (∃ blocks, CachedBlocks.ofIds ids = some blocks ∧ i ∈ blocks.ids) ↔ i ∈ ids := by
  cases ids with
  | nil => simp [CachedBlocks.ofIds]
  | cons j js => simp [CachedBlocks.ofIds, CachedBlocks.ids]

/-- **`get_one_block`** finds a block that is there. -/
theorem contain_of_getOneBlock (h : cache.getOneBlock key = some i) :
    cache.contain key i = true := by
  rw [getOneBlock] at h
  rw [contain_iff]
  cases hkey : cache key with
  | none =>
    rw [hkey] at h
    cases h
  | some blocks =>
    rw [hkey] at h
    refine ⟨blocks, rfl, ?_⟩
    cases blocks with
    | one j => exact List.mem_singleton.mpr (Option.some.inj h).symm
    | many j js => exact List.mem_cons.mpr (.inl (Option.some.inj h).symm)

/-- No block is found under a key exactly when the table contains none. -/
theorem getOneBlock_eq_none : cache.getOneBlock key = none ↔ ∀ i, cache.contain key i = false := by
  constructor
  · intro h i
    rw [getOneBlock] at h
    rw [contain]
    cases hkey : cache key with
    | none => rfl
    | some blocks =>
      rw [hkey] at h
      cases blocks <;> cases h
  · intro h
    cases hone : cache.getOneBlock key with
    | none => rfl
    | some i => exact absurd (contain_of_getOneBlock hone) (by simp [h i])

/-- **`insert`** adds one pair. -/
theorem contain_insert : (cache.insert key blockId).contain key' i = true ↔
    cache.contain key' i = true ∨ key' = key ∧ i = blockId := by
  by_cases hkey : key' = key
  · subst hkey
    rw [contain_iff, contain_iff, insert, Function.update_self]
    cases cache key' with
    | none => simp [CachedBlocks.ids]
    | some blocks =>
      cases blocks with
      | one j =>
        by_cases hj : j = blockId <;> simp [CachedBlocks.ids, hj]
      | many j js =>
        by_cases hj : blockId ∈ j :: js
        · have hsub : i = blockId → i ∈ j :: js := by
            rintro rfl
            exact hj
          simp only [if_pos hj, Option.some.injEq, exists_eq_left', CachedBlocks.ids, true_and]
          exact ⟨.inl, fun h => h.elim id hsub⟩
        · simp only [if_neg hj, Option.some.injEq, exists_eq_left', CachedBlocks.ids, true_and,
            ← List.cons_append, List.mem_append, List.mem_singleton]
  · simp only [contain, insert, Function.update_of_ne hkey, hkey, false_and, or_false]

/-- **`pop`** takes one pair away. -/
theorem contain_pop : (cache.pop key blockId).2.contain key' i = true ↔
    cache.contain key' i = true ∧ ¬(key' = key ∧ i = blockId) := by
  by_cases hkey : key' = key
  · subst hkey
    simp only [true_and]
    rw [contain_iff, contain_iff, pop]
    cases hcache : cache key' with
    | none => simp [hcache]
    | some blocks =>
      cases blocks with
      | one j =>
        by_cases hj : j = blockId
        · simp [CachedBlocks.ids, hj]
        · simp only [if_neg hj, hcache, Option.some.injEq, exists_eq_left', CachedBlocks.ids,
            List.mem_singleton]
          exact ⟨fun h => ⟨h, h ▸ hj⟩, And.left⟩
      | many j js =>
        dsimp only
        rw [Function.update_self, mem_ids_of_ofIds, List.mem_filter]
        simp [CachedBlocks.ids]
  · have hother : (cache.pop key blockId).2 key' = cache key' := by
      rw [pop]
      cases cache key with
      | none => rfl
      | some blocks =>
        cases blocks with
        | one j =>
          by_cases hj : j = blockId
          · simp only [if_pos hj, Function.update_of_ne hkey]
          · simp only [if_neg hj]
        | many j js => exact Function.update_of_ne hkey _ _
    rw [contain, contain, hother]
    simp [hkey]

/-- The block returned is the one asked for, and it was there. -/
theorem pop_fst : (cache.pop key blockId).1
    = if cache.contain key blockId = true then some blockId else none := by
  rw [pop, contain]
  cases cache key with
  | none => rfl
  | some blocks =>
    cases blocks with
    | one j =>
      by_cases hj : j = blockId
      · simp [hj]
      · simp [hj]
    | many j js => simp

end BlockHashToBlockMap

end Dsv41Overlay.KvCache
