import Dsv41Overlay.KvCache.Holdings
import Dsv41Overlay.KvCache.Slots
import Dsv41Overlay.Lib.Budget
import Dsv41Overlay.SwaFinal.Admission

/-!
# Admission is sound

`allocate_slots` asks every manager how many blocks the request will take, compares the sum
with the free blocks, and only then takes any: blocks of the prefix hit in every group, blocks
for external tokens, new blocks. The estimates are made before the first block is taken, group
by group and without knowledge of each other.

They are enough. A manager's estimate covers what its three methods take later, in whatever
order the groups take their turns (`getNumBlocksToAllocate_eq`, `demand_hit`,
`externalDemand_add_demand`), so that `get_new_blocks` never raises: see `reserveSlots_ok`.
-/

namespace Dsv41Overlay.KvCache

open Fallible BlockPool SwaFinal

/-- Touching blocks takes at most those of them out of the queue that are in it. -/
theorem length_le_diff (xs is : List ℕ) :
    xs.length ≤ (xs.diff is).length + is.countP (· ∈ xs) := by
  induction is generalizing xs with
  | nil => simp
  | cons i is ih =>
    -- taking one block out of the queue loses at most that block
    have hfewer : is.countP (· ∈ xs.erase i) ≤ is.countP (· ∈ xs) :=
      List.countP_mono_left fun j _ hj => by
        simpa using List.mem_of_mem_erase (of_decide_eq_true hj)
    have hrest := ih (xs.erase i)
    rw [List.diff_cons, List.countP_cons]
    by_cases hi : i ∈ xs
    · have hlen := List.length_erase_of_mem hi
      have hpos := List.length_pos_of_mem hi
      simp only [hi, decide_true, if_true]
      omega
    · rw [List.erase_of_not_mem hi] at hrest ⊢
      omega

/-- A remainder costs one more block. -/
theorem cdiv_eq_succ {a b : ℕ} (hb : 0 < b) (hmod : a % b ≠ 0) : cdiv a b = a / b + 1 := by
  refine le_antisymm (cdiv_le_div_succ hb) (Nat.succ_le_of_lt (not_le.mp fun hle => ?_))
  have hle := (cdiv_le_iff hb).mp hle
  have hdiv := Nat.div_add_mod' a b
  omega

namespace Manager

variable {R : Type} [DecidableEq R] {m m' : Manager R} {p p' : BlockPool} {r : R} {n : ℕ}
  {enableCaching : Bool} {rest refs : Multiset ℕ} {xs hits : List ℕ}
  {numTokens numLocal numExternal : ℕ}

/-- What a group promises. -/
structure Wf (m : Manager R) : Prop where
  blockSize_pos : 0 < m.group.blockSize
  /-- Only tokens that have been computed are skipped. -/
  numSkippedTokens_le : ∀ t, m.group.numSkippedTokens t ≤ t

omit [DecidableEq R] in
/-- Whether a manager is well formed is a matter of its group. -/
theorem Wf.of_group (h : m.Wf) (hgroup : m'.group = m.group) : m'.Wf :=
  ⟨hgroup ▸ h.blockSize_pos, hgroup ▸ h.numSkippedTokens_le⟩

/-- The evictable blocks are those in the queue. -/
theorem getNumEvictableBlocks_eq (h : p.Accounts n enableCaching refs xs)
    (hhits : ∀ i ∈ hits, i < n) : getNumEvictableBlocks p hits = hits.countP (· ∈ xs) := by
  rw [getNumEvictableBlocks]
  refine List.countP_congr fun i hi => ?_
  have hin := h.counted.mem_iff i
  have hlt : i < p.numGpuBlocks := h.numGpuBlocks.symm ▸ hhits i hi
  rw [h.counted.isNull, Bool.and_eq_true, decide_eq_true_eq, decide_eq_true_eq, hin]
  by_cases h0 : i = 0
  · simp [h0]
  · rw [h.counted.refCnt i h0 hlt]
    simp [h0, hlt]

/-- What a new request will take: new blocks, the blocks of its hit that leave the queue, and
the private copy of a shared tail. -/
def estimate (m : Manager R) (r : R) (hits : List ℕ) (numLocal numTotal numTokens : ℕ)
    (xs : List ℕ) : ℕ :=
  if m.group.ring then m.ringDemand r
  else
    (cdiv numTokens m.group.blockSize
        - max (m.group.numSkippedTokens numTotal / m.group.blockSize) hits.length)
      + (if m.hasPartialLocalHit hits numLocal then 1 else 0)
      + (m.touched hits numTotal).countP (· ∈ xs)

/-- For a request without blocks, the manager asks for its estimate. -/
theorem getNumBlocksToAllocate_eq (h : p.Accounts n enableCaching refs xs)
    (hempty : m.blocksOf r = []) (hnone : m.numCachedBlock r = none) (hhits : ∀ i ∈ hits, i < n)
    (numLocal numTotal : ℕ) :
    m.getNumBlocksToAllocate p r numTokens hits numTotal numLocal false
      = .ok (m.estimate r hits numLocal numTotal numTokens xs) := by
  rw [getNumBlocksToAllocate, estimate]
  by_cases hring : m.group.ring = true
  · rw [if_pos hring, if_pos hring]
    rfl
  -- the hits that are looked at are blocks of the pool
  · have hdrop : ∀ i ∈ hits.drop (m.group.numSkippedTokens numTotal / m.group.blockSize), i < n :=
      fun i hi => hhits i (List.mem_of_mem_drop hi)
    rw [if_neg hring, if_neg hring, touched, if_neg hring]
    simp only [hempty, hnone, List.length_nil, Option.isSome_none, Bool.false_eq_true, if_false,
      Nat.add_zero, Nat.sub_zero, getNumEvictableBlocks_eq h hdrop]
    by_cases hpartial : m.hasPartialLocalHit hits numLocal
    · simp only [if_pos hpartial]
    · simp only [if_neg hpartial, Nat.add_zero]

omit [DecidableEq R] in
/-- What is touched stands in the table of the hit. -/
theorem mem_hitTable {numTotal i : ℕ} (hi : i ∈ m.touched hits numTotal) :
    i ∈ m.hitTable hits numTotal := by
  have hring : ¬m.group.ring = true := by
    intro hring
    rw [touched, if_pos hring] at hi
    cases hi
  rw [hitTable, if_neg hring]
  exact List.mem_append_right _ hi

/-- With fewer free blocks among the hits, fewer blocks are asked for. -/
theorem estimate_mono {xs' : List ℕ} (hsub : ∀ i ∈ xs', i ∈ xs) (numTotal : ℕ) :
    m.estimate r hits numLocal numTotal numTokens xs'
      ≤ m.estimate r hits numLocal numTotal numTokens xs := by
  rw [estimate, estimate]
  split
  · exact le_rfl
  · refine Nat.add_le_add_left (List.countP_mono_left fun i _ hi => ?_) _
    exact decide_eq_true (hsub i (of_decide_eq_true hi))

/-- With the blocks of its hit the request needs what is left of the estimate. -/
theorem demand_hit (hgroup : m'.group = m.group) (hempty : m.blocksOf r = [])
    (htable : m'.blocksOf r = m.hitTable hits (numLocal + numExternal))
    (hhit : (m'.partialHitReqs r).map Prod.fst =
      if m.endsInside hits numLocal (numLocal + numExternal)
        then some (numLocal / m.group.blockSize) else none)
    (xs : List ℕ) :
    m'.demand r numTokens + xs.length ≤
      m.estimate r hits numLocal (numLocal + numExternal) numTokens xs
        + (xs.diff (m.touched hits (numLocal + numExternal))).length := by
  -- blocks of the hit that are in the queue have been counted for it
  have hdiff := length_le_diff xs (m.touched hits (numLocal + numExternal))
  rw [demand, estimate, hgroup]
  -- a ring group takes no part in the hit
  by_cases hring : m.group.ring = true
  · have hnil : m.hitTable hits (numLocal + numExternal) = [] := if_pos hring
    have htouched : m.touched hits (numLocal + numExternal) = [] := if_pos hring
    rw [if_pos hring, if_pos hring, ringDemand, ringDemand, htable, hnil, hempty, htouched,
      List.diff_nil]
  -- the table of a hit is as long as the hit, null blocks in front
  · have hlen : (m.hitTable hits (numLocal + numExternal)).length =
        max (m.group.numSkippedTokens (numLocal + numExternal) / m.group.blockSize)
          hits.length := by
      rw [hitTable, if_neg hring, touched, if_neg hring, List.length_append, List.length_replicate,
        List.length_drop]
      omega
    -- the private copy has been counted where the hit ends inside a block
    have hcow : m'.cowDemand r ≤ if m.hasPartialLocalHit hits numLocal then 1 else 0 := by
      rw [cowDemand]
      by_cases hends : m.endsInside hits numLocal (numLocal + numExternal)
      · -- a hit that ends inside a block is not empty
        have hpartial : m.hasPartialLocalHit hits numLocal := by
          refine ⟨?_, hends.2⟩
          rintro rfl
          exact hends.1 (by rw [touched, if_neg hring, List.drop_nil])
        rw [if_pos hpartial]
        split <;> omega
      · rw [if_neg hends] at hhit
        rw [if_pos (Option.map_eq_none_iff.mp hhit)]
        exact Nat.zero_le _
    rw [if_neg hring, if_neg hring, htable, hlen]
    omega

/-- Blocks for external tokens count towards the slots that the request needs. -/
theorem externalDemand_le (hle : numLocal + numExternal ≤ numTokens) (hwf : m.Wf) :
    m.externalDemand r numLocal numExternal ≤ m.demand r numTokens := by
  rw [externalDemand, demand]
  split
  · exact le_rfl
  · have hmono := cdiv_mono hwf.blockSize_pos hle
    split <;> omega

/-- A ring group needs one block, and none once it holds one. -/
theorem ringDemand_eq : m.ringDemand r = 1 - (m.blocksOf r).length := by
  rw [ringDemand]
  cases m.blocksOf r with
  | nil => rfl
  | cons b bs =>
    rw [if_pos (List.cons_ne_nil b bs), List.length_cons]
    omega

/-- What the external tokens have taken is not asked for again: both parts together are at most the
demand before. -/
theorem externalDemand_add_demand (hle : numLocal + numExternal ≤ numTokens) (hwf : m.Wf)
    (hgroup : m'.group = m.group) (hhit : m'.partialHitReqs = m.partialHitReqs)
    (hlen : m.externalDemand r numLocal numExternal ≤ xs.length)
    (htable : m'.blocksOf r = m.blocksOf r ++ xs.take (m.externalDemand r numLocal numExternal)) :
    m'.demand r numTokens + m.externalDemand r numLocal numExternal ≤ m.demand r numTokens := by
  -- the table is longer by the blocks for external tokens
  have hlength : (m'.blocksOf r).length =
      (m.blocksOf r).length + m.externalDemand r numLocal numExternal := by
    rw [htable, List.length_append, List.length_take, Nat.min_eq_left hlen]
  by_cases hring : m.group.ring = true
  · have hext : m.externalDemand r numLocal numExternal = m.ringDemand r := if_pos hring
    rw [demand, demand, hgroup, if_pos hring, if_pos hring, ringDemand_eq, hlength, hext,
      ringDemand_eq]
    omega
  -- external tokens lie within the tokens that need slots
  · have hext : m.externalDemand r numLocal numExternal
        ≤ cdiv numTokens m.group.blockSize - (m.blocksOf r).length := by
      rw [externalDemand, if_neg hring]
      have hmono := cdiv_mono hwf.blockSize_pos hle
      split <;> omega
    rw [demand, demand, hgroup, if_neg hring, if_neg hring, cowDemand, hhit, ← cowDemand, hlength]
    omega

/-- A running request has no hit: the estimate is what it takes. -/
theorem getNumBlocksToAllocate_running (hwf : m.Wf) (hnone : m.partialHitReqs r = none)
    (hcomputed : m.group.ring = false → numLocal ≤ (m.blocksOf r).length * m.group.blockSize) :
    m.getNumBlocksToAllocate p r numTokens [] numLocal numLocal false
      = .ok (m.demand r numTokens) := by
  rw [getNumBlocksToAllocate, demand, cowDemand, if_pos hnone, Nat.zero_add]
  cases hring : m.group.ring with
  | true => rfl
  | false =>
    -- a request that runs has a table past the tokens it skips
    have hskipped : m.group.numSkippedTokens numLocal / m.group.blockSize
        ≤ (m.blocksOf r).length :=
      (Nat.div_le_div_right ((hwf.numSkippedTokens_le _).trans (hcomputed hring))).trans
        (Nat.mul_div_cancel _ hwf.blockSize_pos).le
    -- without a new hit there is no partial one
    have hpartial : ¬m.hasPartialLocalHit [] numLocal := fun h => h.1 rfl
    simp only [Bool.false_eq_true, if_false, List.length_nil, Nat.zero_add, List.drop_nil,
      if_neg hpartial, Nat.max_eq_right hskipped]
    split
    · rfl
    · rfl

/-- An estimate fails only for a running request with a hit. -/
theorem exists_getNumBlocksToAllocate (hhits : (m.numCachedBlock r).isSome → hits = [])
    (numTotal : ℕ) (cap : Bool) :
    ∃ k, m.getNumBlocksToAllocate p r numTokens hits numTotal numLocal cap = .ok k := by
  rw [getNumBlocksToAllocate]
  split
  · exact ⟨_, rfl⟩
  · dsimp only
    split
    · rename_i hcached
      rw [hhits hcached]
      exact ⟨_, rfl⟩
    · exact ⟨_, rfl⟩

end Manager

/-! ### Loops over the managers -/

/-- Paired lists: whatever stands in the second has a partner in the first. -/
theorem exists_of_mem_right {α β : Type} {P : α → β → Prop} {as : List α} {bs : List β}
    (h : List.Forall₂ P as bs) {b : β} (hb : b ∈ bs) : ∃ a ∈ as, P a b := by
  induction h with
  | nil => cases hb
  | cons hab _ ih =>
    obtain rfl | hb := List.mem_cons.mp hb
    · exact ⟨_, List.mem_cons_self, hab⟩
    · obtain ⟨a, ha, hP⟩ := ih hb
      exact ⟨a, List.mem_cons_of_mem _ ha, hP⟩

/-- Paired lists compose. -/
theorem forall₂_trans {α β γ : Type} {P : α → β → Prop} {Q : β → γ → Prop} {S : α → γ → Prop}
    (hS : ∀ a b c, P a b → Q b c → S a c) {as : List α} {bs : List β} {cs : List γ}
    (h : List.Forall₂ P as bs) (h' : List.Forall₂ Q bs cs) : List.Forall₂ S as cs := by
  induction h generalizing cs with
  | nil =>
    cases h'
    exact .nil
  | cons hab _ ih =>
    obtain _ | ⟨hbc, h'⟩ := h'
    exact .cons (hS _ _ _ hab hbc) (ih h')

namespace KVCacheManager

variable {R : Type} [DecidableEq R] {kv kv' : KVCacheManager R} {r : R} {n : ℕ}
  {enableCaching : Bool} {retained : Multiset ℕ} {xs : List ℕ}

/-- The references of all managers. -/
def refs (kv : KVCacheManager R) : Multiset ℕ := (kv.managers.map Manager.refs).sum

omit [DecidableEq R] in
/-- What a manager references, the whole manager references. -/
theorem mem_refs {m : Manager R} (hm : m ∈ kv.managers) {i : ℕ} (hi : i ∈ m.refs) :
    i ∈ kv.refs := by
  obtain ⟨before, after, hsplit⟩ := List.append_of_mem hm
  rw [refs, hsplit, List.map_append, List.sum_append, List.map_cons, List.sum_cons]
  exact Multiset.mem_add.mpr (.inr (Multiset.mem_add.mpr (.inl hi)))

omit [DecidableEq R] in
/-- **A loop over the managers within its budget.** -/
theorem forManagers_ok (kv : KVCacheManager R)
    {f : Manager R → BlockPool → Except Raised (Manager R × BlockPool)}
    (Inv : Multiset ℕ → List ℕ → BlockPool → Prop) (need : Manager R → List ℕ → ℕ)
    (need' : Manager R → ℕ) (Post : Manager R → Manager R → Prop)
    (step : ∀ m ∈ kv.managers, ∀ rest xs p, Inv (m.refs + rest) xs p → need m xs ≤ xs.length →
      ∃ m' xs' p', f m p = .ok (m', p') ∧ Inv (m'.refs + rest) xs' p' ∧ Post m m' ∧
        need' m' + xs.length ≤ need m xs + xs'.length ∧
        ∀ m₁ ∈ kv.managers, need m₁ xs' ≤ need m₁ xs)
    (init : Inv (kv.refs + retained) xs kv.pool)
    (hbudget : (kv.managers.map fun m => need m xs).sum ≤ xs.length) :
    ∃ kv' xs', kv.forManagers f = .ok kv' ∧ Inv (kv'.refs + retained) xs' kv'.pool ∧
      List.Forall₂ Post kv.managers kv'.managers ∧
      (kv'.managers.map need').sum ≤ xs'.length := by
  obtain ⟨ms, xs', p', hrun, hinv, hpost, hle⟩ :=
    threadM_budget Manager.refs Manager.refs Inv List.length need need' Post step init hbudget
  refine ⟨⟨p', ms⟩, xs', ?_, hinv, hpost, hle⟩
  simp only [forManagers, hrun, bind, Except.bind, pure, Except.pure]

/-- The estimates add up. -/
theorem getNumBlocksToAllocate_sum {numTokens numTotal numLocal : ℕ} {hits : ℕ → List ℕ}
    {cap : Bool} {g : Manager R → ℕ}
    (h : ∀ m ∈ kv.managers, m.getNumBlocksToAllocate kv.pool r numTokens (hits m.group.groupId)
      numTotal numLocal cap = .ok (g m)) :
    kv.getNumBlocksToAllocate r numTokens hits numTotal numLocal cap
      = .ok (kv.managers.map g).sum := by
  -- the loop adds up, whatever it has so far
  have run : ∀ (ms : List (Manager R)) (acc : ℕ),
      (∀ m ∈ ms, m.getNumBlocksToAllocate kv.pool r numTokens (hits m.group.groupId)
        numTotal numLocal cap = .ok (g m)) →
      ms.foldlM (fun num m => do
        let n ← m.getNumBlocksToAllocate kv.pool r numTokens (hits m.group.groupId)
          numTotal numLocal cap
        return num + n) acc = (.ok (acc + (ms.map g).sum) : Except Raised ℕ) := by
    intro ms
    induction ms with
    | nil =>
      intro acc _
      rfl
    | cons m ms ih =>
      intro acc hms
      obtain ⟨hm, hms⟩ := List.forall_mem_cons.mp hms
      rw [List.foldlM_cons, hm, List.map_cons, List.sum_cons, ← Nat.add_assoc]
      exact ih (acc + g m) hms
  rw [getNumBlocksToAllocate, run kv.managers 0 h, Nat.zero_add]

/-- When every group can say what it needs, so can the sum. -/
theorem exists_getNumBlocksToAllocate {numTokens numTotal numLocal : ℕ} {hits : ℕ → List ℕ}
    {cap : Bool}
    (h : ∀ m ∈ kv.managers, ∃ k, m.getNumBlocksToAllocate kv.pool r numTokens
      (hits m.group.groupId) numTotal numLocal cap = .ok k) :
    ∃ k, kv.getNumBlocksToAllocate r numTokens hits numTotal numLocal cap = .ok k := by
  have hvalue : ∀ m ∈ kv.managers, m.getNumBlocksToAllocate kv.pool r numTokens
      (hits m.group.groupId) numTotal numLocal cap
      = .ok ((m.getNumBlocksToAllocate kv.pool r numTokens (hits m.group.groupId) numTotal
        numLocal cap).toOption.getD 0) := by
    intro m hm
    obtain ⟨k, hk⟩ := h m hm
    rw [hk]
    rfl
  exact ⟨_, getNumBlocksToAllocate_sum hvalue⟩

/-! ### The stages -/

/-- The skipped blocks of one table have been removed. -/
structure Trimmed (r : R) (m m' : Manager R) : Prop where
  frame : Manager.Frame r m m'
  length : (m'.blocksOf r).length = (m.blocksOf r).length
  partialHitReqs : m'.partialHitReqs = m.partialHitReqs
  numCachedBlock : m'.numCachedBlock = m.numCachedBlock
  copies : m'.pendingCowCopies = m.pendingCowCopies
  refsBut : m'.refsBut r = m.refsBut r

/-- **`remove_skipped_blocks`** only gives blocks back. -/
theorem removeSkippedBlocks_ok
    (h : kv.pool.Accounts n enableCaching (kv.refs + retained) xs) (r : R) (processed : ℕ) :
    ∃ kv' xs', kv.removeSkippedBlocks r processed = .ok kv' ∧
      kv'.pool.Accounts n enableCaching (kv'.refs + retained) xs' ∧
      kv.pool.SameKeys kv'.pool ∧ List.Forall₂ (Trimmed r) kv.managers kv'.managers := by
  obtain ⟨kv', xs', hrun, ⟨hacc, hkeys⟩, hpost, -⟩ := kv.forManagers_ok
    (f := fun m p => m.removeSkippedBlocks p r processed)
    (fun refs xs p => p.Accounts n enableCaching refs xs ∧ kv.pool.SameKeys p)
    (fun _ _ => 0) (fun _ => 0) (Trimmed r) (fun m _ rest xs p hinv _ => by
      obtain ⟨m', p', xs', hrun, hacc, hlen, hkeys, hframe, hhit, hcached, hcopies, hbut,
        hremoved⟩ := Manager.removeSkippedBlocks_ok hinv.1 r processed
      exact ⟨m', xs', p', hrun, ⟨hacc, hinv.2.trans hkeys⟩,
        ⟨hframe, hremoved.length, hhit, hcached, hcopies, hbut⟩, by omega, fun _ _ => le_rfl⟩)
    ⟨h, .refl _⟩ (by simp)
  exact ⟨kv', xs', hrun, hacc, hkeys, hpost⟩

/-- The table of a new request holds its hit. -/
structure HoldsHit (r : R) (hits : ℕ → List ℕ) (numLocal numTotal : ℕ) (m m' : Manager R) :
    Prop where
  frame : Manager.Frame r m m'
  ready : m'.Ready r
  blocksOf : m'.blocksOf r = m.hitTable (hits m.group.groupId) numTotal
  ends : (m'.partialHitReqs r).map Prod.fst =
    if m.endsInside (hits m.group.groupId) numLocal numTotal
      then some (numLocal / m.group.blockSize) else none
  copies : m'.pendingCowCopies = m.pendingCowCopies

/-- **The first phase** of `allocate_new_computed_blocks` changes no key, and leaves enough
blocks for what comes after. -/
theorem addLocalComputedBlocks_ok {hits : ℕ → List ℕ} {numLocal numExternal numTokens : ℕ}
    (h : kv.pool.Accounts n enableCaching (kv.refs + retained) xs)
    (hempty : ∀ m ∈ kv.managers, m.blocksOf r = [])
    (hnone : ∀ m ∈ kv.managers, m.partialHitReqs r = none)
    (hhits : ∀ m ∈ kv.managers, ∀ i ∈ hits m.group.groupId, i < n)
    (hcaching : ∀ m ∈ kv.managers, enableCaching = true ∨ hits m.group.groupId = [])
    (hlast : ∀ m ∈ kv.managers,
      m.LastAt (hits m.group.groupId) numLocal (numLocal + numExternal))
    (hbudget : (kv.managers.map fun m => m.estimate r (hits m.group.groupId) numLocal
      (numLocal + numExternal) numTokens xs).sum ≤ xs.length) :
    ∃ kv' xs', kv.forManagers (fun m p => m.addLocalComputedBlocks p r (hits m.group.groupId)
        numLocal numExternal) = .ok kv' ∧
      kv'.pool.Accounts n enableCaching (kv'.refs + retained) xs' ∧
      kv.pool.SameKeys kv'.pool ∧ kv.refs + retained ≤ kv'.refs + retained ∧
      List.Forall₂ (HoldsHit r hits numLocal (numLocal + numExternal)) kv.managers kv'.managers ∧
      (kv'.managers.map fun m => m.demand r numTokens).sum ≤ xs'.length := by
  obtain ⟨kv', xs', hrun, ⟨hacc, hkeys, hle⟩, hpost, hleft⟩ := kv.forManagers_ok
    (f := fun m p => m.addLocalComputedBlocks p r (hits m.group.groupId) numLocal numExternal)
    (fun refs xs p => p.Accounts n enableCaching refs xs ∧ kv.pool.SameKeys p ∧
      kv.refs + retained ≤ refs)
    (fun m xs => m.estimate r (hits m.group.groupId) numLocal (numLocal + numExternal) numTokens xs)
    (fun m => m.demand r numTokens) (HoldsHit r hits numLocal (numLocal + numExternal))
    (fun m hm rest xs p hinv _ => by
      obtain ⟨m', p', hrun, hacc, hkeys, htakes, hready, htable, hends, hcopies⟩ :=
        Manager.addLocalComputedBlocks_ok hinv.1 (hempty m hm) (hnone m hm) (hhits m hm)
          (hcaching m hm) (hlast m hm)
      refine ⟨m', _, p', hrun, ⟨hacc, hinv.2.1.trans hkeys, ?_⟩,
        ⟨htakes.frame, hready, htable, hends, hcopies⟩,
        Manager.demand_hit htakes.frame.group (hempty m hm) htable hends xs, fun m₁ _ => ?_⟩
      -- the references have only grown
      · exact hinv.2.2.trans (add_le_add htakes.refs_le le_rfl)
      -- the next group finds no more of its hit in the queue
      · exact Manager.estimate_mono (fun i hi => List.diff_subset _ _ hi) _)
    ⟨h, .refl _, le_rfl⟩ hbudget
  exact ⟨kv', xs', hrun, hacc, hkeys, hle, hpost, hleft⟩

/-- Blocks have been appended to one table. -/
structure Extended (r : R) (m m' : Manager R) : Prop where
  frame : Manager.Frame r m m'
  partialHitReqs : m'.partialHitReqs = m.partialHitReqs
  blocksOf : ∃ new, m'.blocksOf r = m.blocksOf r ++ new ∧ 0 ∉ new
  copies : m'.pendingCowCopies = m.pendingCowCopies

/-- A table that was only extended is as ready as before. -/
theorem Extended.ready {m m' : Manager R} (h : Extended r m m') (hready : m.Ready r) :
    m'.Ready r where
  paged hne := by
    rw [h.frame.group]
    exact hready.paged (h.partialHitReqs ▸ hne)
  source idx src hsome := by
    obtain ⟨new, hnew, -⟩ := h.blocksOf
    obtain ⟨hat, h0⟩ := hready.source idx src (h.partialHitReqs ▸ hsome)
    rw [hnew, List.getElem?_append_left (List.getElem?_eq_some_iff.mp hat).1]
    exact ⟨hat, h0⟩

/-- **The second phase** takes what was counted for the slots that the request needs. -/
theorem allocateExternalComputedBlocks_ok {numLocal numExternal numTokens : ℕ}
    (h : kv.pool.Accounts n enableCaching (kv.refs + retained) xs)
    (hwf : ∀ m ∈ kv.managers, m.Wf) (hle : numLocal + numExternal ≤ numTokens)
    (hbudget : (kv.managers.map fun m => m.demand r numTokens).sum ≤ xs.length) :
    ∃ kv' xs', kv.forManagers (fun m p => m.allocateExternalComputedBlocks p r numLocal
        numExternal) = .ok kv' ∧
      kv'.pool.Accounts n enableCaching (kv'.refs + retained) xs' ∧
      Keeps (kv.refs + retained) kv.pool kv'.pool ∧ kv.refs + retained ≤ kv'.refs + retained ∧
      List.Forall₂ (Extended r) kv.managers kv'.managers ∧
      (kv'.managers.map fun m => m.demand r numTokens).sum ≤ xs'.length := by
  obtain ⟨kv', xs', hrun, ⟨hacc, hkeeps, hrefs⟩, hpost, hleft⟩ := kv.forManagers_ok
    (f := fun m p => m.allocateExternalComputedBlocks p r numLocal numExternal)
    (fun refs xs p => p.Accounts n enableCaching refs xs ∧
      Keeps (kv.refs + retained) kv.pool p ∧ kv.refs + retained ≤ refs)
    (fun m _ => m.demand r numTokens) (fun m => m.demand r numTokens) (Extended r)
    (fun m hm rest xs p hinv hneed => by
      have hlen := (Manager.externalDemand_le (r := r) hle (hwf m hm)).trans hneed
      obtain ⟨m', p', hrun, hacc, htakes, htable, hhit, -, hcopies⟩ :=
        Manager.allocateExternalComputedBlocks_ok hinv.1 hlen
      refine ⟨m', _, p', hrun, ⟨hacc, fun i hi key hkey => ?_, ?_⟩,
        ⟨htakes.frame, hhit, ⟨_, htable, fun h0 => ?_⟩, hcopies⟩, ?_, fun _ _ => le_rfl⟩
      -- the hit is kept as the earlier groups have kept it
      · exact htakes.keeps i (Multiset.mem_of_le hinv.2.2 hi) key (hinv.2.1 i hi key hkey)
      · exact hinv.2.2.trans (add_le_add htakes.refs_le le_rfl)
      · exact (hinv.1.not_mem (List.mem_of_mem_take h0)).1 rfl
      -- the demand goes down by what was taken
      · have hdemand := Manager.externalDemand_add_demand hle (hwf m hm) htakes.frame.group hhit
          hlen htable
        rw [List.length_drop]
        omega)
    ⟨h, .refl _ _, le_rfl⟩ hbudget
  exact ⟨kv', xs', hrun, hacc, hkeeps, hrefs, hpost, hleft⟩

end KVCacheManager

namespace Manager

variable {R : Type} [DecidableEq R] {m m' : Manager R} {r : R}

/-- The table has slots for the tokens. -/
def Covers (m : Manager R) (r : R) (numTokens : ℕ) : Prop :=
  if m.group.ring then m.blocksOf r ≠ [] else numTokens ≤ (m.blocksOf r).length * m.group.blockSize

/-- Blocks for the whole demand make the table cover the tokens. -/
theorem covers_of_demand {xs : List ℕ} {numTokens : ℕ} (hwf : m.Wf) (hready : m.Ready r)
    (hgroup : m'.group = m.group) (hlen : m.demand r numTokens ≤ xs.length)
    (htable : m'.blocksOf r = m.redirected r xs
      ++ (xs.take (m.demand r numTokens)).drop (m.cowDemand r)) : m'.Covers r numTokens := by
  have hlength : (m'.blocksOf r).length
      = (m.blocksOf r).length + (m.demand r numTokens - m.cowDemand r) := by
    rw [htable, List.length_append, length_redirected, List.length_drop, List.length_take,
      Nat.min_eq_left hlen]
  rw [Covers, hgroup]
  cases hring : m.group.ring with
  | true =>
    -- a ring group has no partial hit
    have hnone : m.partialHitReqs r = none := by
      by_contra hne
      exact absurd (hready.paged hne) (by simp [hring])
    rw [demand, if_pos hring, cowDemand, if_pos hnone, ringDemand_eq] at hlength
    rw [if_pos rfl]
    intro hnil
    rw [hnil, List.length_nil] at hlength
    omega
  | false =>
    rw [demand, if_neg (by simp [hring]), Nat.add_sub_cancel_left] at hlength
    rw [if_neg (by simp)]
    -- enough blocks for the tokens, by the size of a block
    refine (cdiv_le_iff hwf.blockSize_pos).mp ?_
    omega

end Manager

namespace KVCacheManager

variable {R : Type} [DecidableEq R] {kv kv' : KVCacheManager R} {r : R} {n : ℕ}
  {enableCaching : Bool} {retained : Multiset ℕ} {xs : List ℕ}

/-- One table has slots for the tokens. Its blocks are as before, but for a shared tail, in
whose place stands a copy that was not among the references `base`. -/
structure Filled (r : R) (numTokens : ℕ) (base : Multiset ℕ) (m m' : Manager R) : Prop where
  frame : Manager.Frame r m m'
  settled : m'.partialHitReqs r = none
  covers : m'.Covers r numTokens
  blocksOf : ∀ j < (m.blocksOf r).length, (∀ src, m.partialHitReqs r ≠ some (j, src)) →
    (m'.blocksOf r)[j]? = (m.blocksOf r)[j]?
  copied : ∀ idx src, m.partialHitReqs r = some (idx, src) → ∃ cow, cow ∉ base ∧ cow ≠ 0 ∧
    (m'.blocksOf r)[idx]? = some cow ∧
    m'.pendingCowCopies = m.pendingCowCopies ++ [(src, cow)]
  notCopied : m.partialHitReqs r = none → m'.pendingCowCopies = m.pendingCowCopies
  /-- What is appended are real blocks. -/
  appended : ∀ j, (m.blocksOf r).length ≤ j → (m'.blocksOf r)[j]? ≠ some 0

/-- One manager of the loop of `allocate_new_blocks`. -/
theorem Filled.of_allocateNewBlocks {m m' : Manager R} {p : BlockPool} {numTokens : ℕ}
    {base rest : Multiset ℕ} (h : p.Accounts n enableCaching (m.refs + rest) xs)
    (hbase : base ≤ m.refs + rest) (hwf : m.Wf) (hready : m.Ready r)
    (hneed : m.demand r numTokens ≤ xs.length) (hframe : Manager.Frame r m m')
    (hsettled : m'.partialHitReqs r = none)
    (htable : m'.blocksOf r = m.redirected r xs
      ++ (xs.take (m.demand r numTokens)).drop (m.cowDemand r))
    (hcopies : m'.pendingCowCopies = m.pendingCowCopies ++ m.redirectCopies r xs) :
    Filled r numTokens base m m' where
  frame := hframe
  settled := hsettled
  -- what is covered is known from the demand
  covers := Manager.covers_of_demand hwf hready hframe.group hneed htable
  blocksOf j hj hother := by
    rw [htable, List.getElem?_append_left (by rwa [Manager.length_redirected]),
      Manager.redirected]
    cases hhit : m.partialHitReqs r with
    | none => rfl
    | some note =>
      obtain ⟨idx, src⟩ := note
      have hne : idx ≠ j := by
        rintro rfl
        exact hother src hhit
      exact List.getElem?_set_ne hne
  copied idx src hhit := by
    -- only a paged group notes a partial hit
    have hring := hready.paged (hhit ▸ Option.some_ne_none _)
    have hpos : 0 < xs.length := by
      rw [Manager.demand, if_neg (by simp [hring]), Manager.cowDemand, hhit,
        if_neg (Option.some_ne_none _)] at hneed
      omega
    obtain ⟨cow, xs', rfl⟩ := List.exists_cons_of_ne_nil (List.ne_nil_of_length_pos hpos)
    -- the first block of the queue is nobody's
    obtain ⟨h0, -, hnotin⟩ := h.not_mem (List.mem_cons_self (a := cow))
    have hidx := (List.getElem?_eq_some_iff.mp (hready.source idx src hhit).1).1
    refine ⟨cow, fun hin => hnotin (Multiset.mem_of_le hbase hin), h0, ?_, ?_⟩
    -- the copy stands where the hit ended
    · rw [htable, List.getElem?_append_left (by rwa [Manager.length_redirected]),
        Manager.redirected, hhit]
      exact List.getElem?_set_self hidx
    · rw [hcopies, Manager.redirectCopies, hhit]
      rfl
  notCopied hnone := by
    rw [hcopies, Manager.redirectCopies, hnone]
    exact List.append_nil _
  appended j hj hnull := by
    -- a block behind the table comes from the queue
    rw [htable, List.getElem?_append_right (by rwa [Manager.length_redirected])] at hnull
    have hqueued := List.mem_of_mem_take (List.mem_of_mem_drop (List.mem_of_getElem? hnull))
    exact (h.not_mem hqueued).1 rfl

/-- **`allocate_new_blocks`** with a queue that is long enough. A block that was nobody's has
two references at most, from a table and from a pending copy. -/
theorem allocateNewBlocks_ok {numTokens : ℕ}
    (h : kv.pool.Accounts n enableCaching (kv.refs + retained) xs)
    (hwf : ∀ m ∈ kv.managers, m.Wf) (hready : ∀ m ∈ kv.managers, m.Ready r)
    (hbudget : (kv.managers.map fun m => m.demand r numTokens).sum ≤ xs.length) :
    ∃ kv' xs', kv.allocateNewBlocks r numTokens = .ok kv' ∧
      kv'.pool.Accounts n enableCaching (kv'.refs + retained) xs' ∧
      Keeps (kv.refs + retained) kv.pool kv'.pool ∧ kv.refs ≤ kv'.refs ∧
      (∀ i ∉ kv.refs + retained, (kv'.refs + retained).count i ≤ 2) ∧
      List.Forall₂ (Filled r numTokens (kv.refs + retained)) kv.managers kv'.managers := by
  obtain ⟨kv', xs', hrun, ⟨hacc, hkeeps, hrefs, htwo⟩, hpost, -⟩ := kv.forManagers_ok
    (f := fun m p => (m.allocateNewBlocks p r numTokens).map Prod.snd)
    (fun refs xs p => p.Accounts n enableCaching refs xs ∧
      Keeps (kv.refs + retained) kv.pool p ∧ kv.refs + retained ≤ refs ∧
      ∀ i ∉ kv.refs + retained, refs.count i ≤ 2)
    (fun m _ => m.demand r numTokens) (fun _ => 0) (Filled r numTokens (kv.refs + retained))
    (fun m hm rest xs p hinv hneed => by
      obtain ⟨ids, m', p', hrun, hacc, htakes, hsettled, -, htable, hcopies, hdraws⟩ :=
        Manager.allocateNewBlocks_ok hinv.1 (hready m hm) hneed
      refine ⟨m', _, p', by rw [hrun]; rfl,
        ⟨hacc, fun i hi key hkey => ?_, ?_, fun i hi => ?_⟩,
        .of_allocateNewBlocks hinv.1 hinv.2.2.1 (hwf m hm) (hready m hm) hneed htakes.frame
          hsettled htable hcopies, ?_, fun _ _ => le_rfl⟩
      · exact htakes.keeps i (Multiset.mem_of_le hinv.2.2.1 hi) key (hinv.2.1 i hi key hkey)
      · exact hinv.2.2.1.trans (add_le_add htakes.refs_le le_rfl)
      · -- only queued blocks get references, and a queued block had none
        have hnew := hdraws i
        have hold := hinv.2.2.2 i hi
        rw [Multiset.count_add] at hold ⊢
        by_cases hqueued : i ∈ xs
        · have hzero := Multiset.count_eq_zero.mpr (hinv.1.not_mem hqueued).2.2
          rw [Multiset.count_add] at hzero
          rw [if_pos hqueued] at hnew
          omega
        · rw [if_neg hqueued] at hnew
          omega
      · rw [List.length_drop]
        omega)
    ⟨h, .refl _ _, le_rfl, fun i hi => by
      rw [Multiset.count_eq_zero.mpr hi]
      exact Nat.zero_le 2⟩ hbudget
  exact ⟨kv', xs', hrun, hacc, hkeeps, le_of_add_le_add_right hrefs, htwo, hpost⟩

/-! ### `allocate_slots` -/

/-- The managers between two calls: their tables, their pending copies and the references
taken out of them (`retained`) are what the pool has handed out. -/
structure Settled (kv : KVCacheManager R) (n : ℕ) (enableCaching : Bool)
    (retained : Multiset ℕ) : Prop where
  accounts : ∃ xs, kv.pool.Accounts n enableCaching (kv.refs + retained) xs
  wf : ∀ m ∈ kv.managers, m.Wf
  /-- No shared tail is waiting for its private copy. -/
  partialHitReqs : ∀ m ∈ kv.managers, ∀ r, m.partialHitReqs r = none

omit [DecidableEq R] in
/-- Managers that have come from settled ones, one by one. -/
theorem Settled.of_forall₂ {P : Manager R → Manager R → Prop} {retained' : Multiset ℕ}
    (h : kv.Settled n enableCaching retained)
    (hacc : kv'.pool.Accounts n enableCaching (kv'.refs + retained') xs)
    (hpost : List.Forall₂ P kv.managers kv'.managers)
    (hgroup : ∀ m m', P m m' → m'.group = m.group)
    (hhit : ∀ m m', P m m' → (∀ r, m.partialHitReqs r = none) → ∀ r, m'.partialHitReqs r = none) :
    kv'.Settled n enableCaching retained' where
  accounts := ⟨xs, hacc⟩
  wf m' hm' := by
    obtain ⟨m, hm, hmm'⟩ := exists_of_mem_right hpost hm'
    exact (h.wf m hm).of_group (hgroup m m' hmm')
  partialHitReqs m' hm' := by
    obtain ⟨m, hm, hmm'⟩ := exists_of_mem_right hpost hm'
    exact hhit m m' hmm' (h.partialHitReqs m hm)

/-- A request that comes with a prefix hit, or with external tokens: it has no table yet. Its
hit covers the local tokens in every group. -/
structure NewRequest (kv : KVCacheManager R) (n : ℕ) (enableCaching : Bool) (r : R)
    (hits : ℕ → List ℕ) (numLocal : ℕ) : Prop where
  fresh : ∀ m ∈ kv.managers, m.blocksOf r = [] ∧ m.numCachedBlock r = none
  lt : ∀ m ∈ kv.managers, ∀ i ∈ hits m.group.groupId, i < n
  caching : ∀ m ∈ kv.managers, enableCaching = true ∨ hits m.group.groupId = []
  length : ∀ m ∈ kv.managers, m.group.ring = false →
    (hits m.group.groupId).length = cdiv numLocal m.group.blockSize
  /-- A block in which the hit ends has been computed. -/
  last : ∀ m ∈ kv.managers, numLocal % m.group.blockSize ≠ 0 →
    (hits m.group.groupId).getLast? ≠ some 0

/-- A request that goes on: its tables have slots for what it has computed. A request without
any hit starts like this. -/
structure GoesOn (kv : KVCacheManager R) (r : R) (hits : ℕ → List ℕ)
    (numLocal numExternal : ℕ) : Prop where
  noHit : ∀ m ∈ kv.managers, hits m.group.groupId = []
  noExternal : numExternal = 0
  computed : ∀ m ∈ kv.managers, m.group.ring = false →
    numLocal ≤ (m.blocksOf r).length * m.group.blockSize

/-- Each trimmed manager comes from one before the trim. -/
theorem Trimmed.mem (h : List.Forall₂ (Trimmed r) kv.managers kv'.managers) {m' : Manager R}
    (hm' : m' ∈ kv'.managers) : ∃ m ∈ kv.managers, Trimmed r m m' := exists_of_mem_right h hm'

variable {hits : ℕ → List ℕ} {numLocal numExternal numTokens : ℕ}

/-- Trimming keeps a new request new. -/
theorem NewRequest.trimmed (h : kv.NewRequest n enableCaching r hits numLocal)
    (hpost : List.Forall₂ (Trimmed r) kv.managers kv'.managers) :
    kv'.NewRequest n enableCaching r hits numLocal where
  fresh m' hm' := by
    -- trimming changes no length and no group
    obtain ⟨m, hm, htrim⟩ := Trimmed.mem hpost hm'
    obtain ⟨hempty, hnone⟩ := h.fresh m hm
    refine ⟨List.length_eq_zero_iff.mp ?_, htrim.numCachedBlock ▸ hnone⟩
    rw [htrim.length, hempty, List.length_nil]
  lt m' hm' := by
    obtain ⟨m, hm, htrim⟩ := Trimmed.mem hpost hm'
    rw [htrim.frame.group]
    exact h.lt m hm
  caching m' hm' := by
    obtain ⟨m, hm, htrim⟩ := Trimmed.mem hpost hm'
    rw [htrim.frame.group]
    exact h.caching m hm
  length m' hm' := by
    obtain ⟨m, hm, htrim⟩ := Trimmed.mem hpost hm'
    rw [htrim.frame.group]
    exact h.length m hm
  last m' hm' := by
    obtain ⟨m, hm, htrim⟩ := Trimmed.mem hpost hm'
    rw [htrim.frame.group]
    exact h.last m hm

/-- Trimming keeps a running request running. -/
theorem GoesOn.trimmed (h : kv.GoesOn r hits numLocal numExternal)
    (hpost : List.Forall₂ (Trimmed r) kv.managers kv'.managers) :
    kv'.GoesOn r hits numLocal numExternal where
  noHit m' hm' := by
    obtain ⟨m, hm, htrim⟩ := Trimmed.mem hpost hm'
    rw [htrim.frame.group]
    exact h.noHit m hm
  noExternal := h.noExternal
  computed m' hm' := by
    obtain ⟨m, hm, htrim⟩ := Trimmed.mem hpost hm'
    rw [htrim.frame.group, htrim.length]
    exact h.computed m hm

/-- Trimming keeps the manager settled. -/
theorem Settled.trimmed {kv' : KVCacheManager R} (h : kv.Settled n enableCaching retained)
    (hacc : kv'.pool.Accounts n enableCaching (kv'.refs + retained) xs)
    (hpost : List.Forall₂ (Trimmed r) kv.managers kv'.managers) :
    kv'.Settled n enableCaching retained :=
  h.of_forall₂ hacc hpost (fun _ _ htrim => htrim.frame.group)
    fun _ _ htrim hnone r => (congrFun htrim.partialHitReqs r).trans (hnone r)

/-- The last block of a hit that ends inside a block stands where its tokens are. -/
theorem NewRequest.lastAt (h : kv.NewRequest n enableCaching r hits numLocal)
    {m : Manager R} (hm : m ∈ kv.managers) (hwf : m.Wf) (numTotal : ℕ) :
    m.LastAt (hits m.group.groupId) numLocal numTotal := by
  rintro ⟨hne, hmod⟩
  -- a ring group touches no block
  have hring : m.group.ring = false := by
    by_contra hring
    rw [Bool.not_eq_false] at hring
    exact hne (if_pos hring)
  have htouched : m.touched (hits m.group.groupId) numTotal = (hits m.group.groupId).drop
      (m.group.numSkippedTokens numTotal / m.group.blockSize) := if_neg (by simp [hring])
  have hlen := h.length m hm hring
  obtain ⟨k, hk⟩ : ∃ k, k = m.group.numSkippedTokens numTotal / m.group.blockSize := ⟨_, rfl⟩
  rw [htouched, ← hk] at hne
  -- a block of the hit is left behind the skipped ones
  have hlt : k < (hits m.group.groupId).length := by
    by_contra hge
    exact hne (List.drop_eq_nil_of_le (not_lt.mp hge))
  -- the hit has one block more than it fills
  have hidx : numLocal / m.group.blockSize + 1 = (hits m.group.groupId).length := by
    rw [hlen, cdiv_eq_succ hwf.blockSize_pos hmod]
  obtain ⟨last, hgetLast⟩ : ∃ last, ((hits m.group.groupId).drop k).getLast? = some last :=
    ⟨_, List.getLast?_eq_some_getLast hne⟩
  refine ⟨last, by rw [htouched, ← hk, hgetLast], ?_, ?_⟩
  · rintro rfl
    refine h.last m hm hmod ?_
    rw [← hgetLast, List.getLast?_drop, if_neg (by omega)]
  · rw [Manager.hitTable, if_neg (by simp [hring]), htouched, ← hk,
      List.getElem?_append_right (by rw [List.length_replicate]; omega), List.length_replicate,
      List.getElem?_drop]
    have hadd : k + (numLocal / m.group.blockSize - k) = (hits m.group.groupId).length - 1 := by
      omega
    rw [hadd, ← List.getLast?_eq_getElem?, ← hgetLast, List.getLast?_drop, if_neg (by omega)]

/-- The table of a new request begins with its hit. -/
structure BeginsWithHit (r : R) (hits : ℕ → List ℕ) (numLocal numTotal : ℕ) (m m' : Manager R) :
    Prop where
  frame : Manager.Frame r m m'
  ready : m'.Ready r
  blocksOf : ∃ new, m'.blocksOf r = m.hitTable (hits m.group.groupId) numTotal ++ new ∧ 0 ∉ new
  ends : (m'.partialHitReqs r).map Prod.fst =
    if m.endsInside (hits m.group.groupId) numLocal numTotal
      then some (numLocal / m.group.blockSize) else none
  copies : m'.pendingCowCopies = m.pendingCowCopies

/-- Holding the hit is beginning with it. -/
theorem HoldsHit.beginsWithHit {numTotal : ℕ} {m m' : Manager R}
    (h : HoldsHit r hits numLocal numTotal m m') : BeginsWithHit r hits numLocal numTotal m m' :=
  ⟨h.frame, h.ready, ⟨[], by rw [h.blocksOf, List.append_nil], List.not_mem_nil⟩, h.ends,
    h.copies⟩

/-- A table that is extended behind the hit still begins with it. -/
theorem HoldsHit.extended {numTotal : ℕ} {m m' m'' : Manager R}
    (h : HoldsHit r hits numLocal numTotal m m') (h' : Extended r m' m'') :
    BeginsWithHit r hits numLocal numTotal m m'' where
  frame := h.frame.trans h'.frame
  ready := h'.ready h.ready
  blocksOf := by
    obtain ⟨new, hnew, h0⟩ := h'.blocksOf
    exact ⟨new, h.blocksOf ▸ hnew, h0⟩
  ends := h'.partialHitReqs ▸ h.ends
  copies := h'.copies.trans h.copies

/-- **`allocate_new_computed_blocks`**: the hit is in the tables, and no block of it has lost a
key to another group. `base` are the references after the first phase. -/
theorem allocateNewComputedBlocks_ok
    (h : kv.pool.Accounts n enableCaching (kv.refs + retained) xs)
    (hwf : ∀ m ∈ kv.managers, m.Wf) (hnone : ∀ m ∈ kv.managers, m.partialHitReqs r = none)
    (hnew : kv.NewRequest n enableCaching r hits numLocal)
    (hle : numLocal + numExternal ≤ numTokens)
    (hbudget : (kv.managers.map fun m => m.estimate r (hits m.group.groupId) numLocal
      (numLocal + numExternal) numTokens xs).sum ≤ xs.length) :
    ∃ kv' xs' base, kv.allocateNewComputedBlocks r hits numLocal numExternal = .ok kv' ∧
      kv'.pool.Accounts n enableCaching (kv'.refs + retained) xs' ∧
      kv.refs ≤ base ∧ base ≤ kv'.refs ∧ Keeps base kv.pool kv'.pool ∧
      (∀ m ∈ kv.managers, ∀ i ∈ m.touched (hits m.group.groupId) (numLocal + numExternal),
        i ≠ 0 → i ∈ base) ∧
      List.Forall₂ (BeginsWithHit r hits numLocal (numLocal + numExternal)) kv.managers
        kv'.managers ∧
      (kv'.managers.map fun m => m.demand r numTokens).sum ≤ xs'.length := by
  -- a new request has no block that counts as cached
  have hfresh : ¬∃ m ∈ kv.managers, (m.numCachedBlock r).isSome = true := by
    rintro ⟨m, hm, hsome⟩
    rw [(hnew.fresh m hm).2] at hsome
    cases hsome
  rw [allocateNewComputedBlocks, if_neg hfresh]
  obtain ⟨kv₁, xs₁, hrun₁, hacc₁, hkeys₁, hrefs₁, hpost₁, hbudget₁⟩ := addLocalComputedBlocks_ok h
    (fun m hm => (hnew.fresh m hm).1) hnone hnew.lt hnew.caching
    (fun m hm => hnew.lastAt hm (hwf m hm) _) hbudget
  have hbase : kv.refs ≤ kv₁.refs := le_of_add_le_add_right hrefs₁
  have hkeeps₁ : Keeps kv₁.refs kv.pool kv₁.pool :=
    fun _ _ _ hkey => hkeys₁.hasKey_iff.mpr hkey
  -- each block that is touched is in a table now
  have hin : ∀ m ∈ kv.managers, ∀ i ∈ m.touched (hits m.group.groupId) (numLocal + numExternal),
      i ≠ 0 → i ∈ kv₁.refs := by
    intro m hm i hi h0
    obtain ⟨m', hm', hhold⟩ := exists_of_mem_right hpost₁.flip hm
    have hin : i ∈ m'.blocksOf r := by
      rw [hhold.blocksOf]
      exact Manager.mem_hitTable hi
    exact mem_refs hm' (Manager.mem_refs hin h0)
  simp only [hrun₁, bind, Except.bind]
  by_cases hext : 0 < numExternal
  -- the blocks for external tokens come from the free ones that are left
  · have hwf₁ : ∀ m ∈ kv₁.managers, m.Wf := by
      intro m' hm'
      obtain ⟨m, hm, hhold⟩ := exists_of_mem_right hpost₁ hm'
      exact (hwf m hm).of_group hhold.frame.group
    obtain ⟨kv₂, xs₂, hrun₂, hacc₂, hkeeps₂, hrefs₂, hpost₂, hbudget₂⟩ :=
      allocateExternalComputedBlocks_ok hacc₁ hwf₁ hle hbudget₁
    refine ⟨kv₂, xs₂, kv₁.refs, (if_pos hext).trans hrun₂, hacc₂, hbase,
      le_of_add_le_add_right hrefs₂, fun i hi key hkey => ?_, hin, ?_, hbudget₂⟩
    · exact hkeeps₂ i (Multiset.mem_add.mpr (.inl hi)) key (hkeeps₁ i hi key hkey)
    · exact forall₂_trans (Q := Extended r) (fun _ _ _ h h' => h.extended h') hpost₁ hpost₂
  · refine ⟨kv₁, xs₁, kv₁.refs, if_neg hext, hacc₁, hbase, le_rfl, hkeeps₁, hin, ?_, hbudget₁⟩
    exact hpost₁.imp fun _ _ => HoldsHit.beginsWithHit

/-- The request has its slots in one group: behind its table and its hit all blocks are
real. -/
structure Reserved (r : R) (hits : ℕ → List ℕ) (numTotal numTokens : ℕ) (m m' : Manager R) :
    Prop where
  frame : Manager.Frame r m m'
  settled : m'.partialHitReqs r = none
  covers : m'.Covers r numTokens
  appended : ∀ j, (m.blocksOf r).length ≤ j →
    (m.hitTable (hits m.group.groupId) numTotal).length ≤ j → (m'.blocksOf r)[j]? ≠ some 0

/-- The hit stands in the table, but for a block in which it ends: that one is a copy. -/
def HitInPlace (r : R) (hits : ℕ → List ℕ) (numLocal numTotal : ℕ) (m m' : Manager R) : Prop :=
  ∀ j < (m.hitTable (hits m.group.groupId) numTotal).length,
    ¬(m.endsInside (hits m.group.groupId) numLocal numTotal ∧ j = numLocal / m.group.blockSize) →
    (m'.blocksOf r)[j]? = (m.hitTable (hits m.group.groupId) numTotal)[j]?

/-- Where the hit ends inside a block, a private copy stands in its place: a block that was
nobody's and in no group's hit, and that only this table and the pending copy refer to.
Elsewhere nothing is copied. -/
def HitCopied (kv kv' : KVCacheManager R) (retained : Multiset ℕ) (r : R) (hits : ℕ → List ℕ)
    (numLocal numTotal : ℕ) (m m' : Manager R) : Prop :=
  if m.endsInside (hits m.group.groupId) numLocal numTotal then
    ∃ src cow,
      (m.hitTable (hits m.group.groupId) numTotal)[numLocal / m.group.blockSize]? = some src ∧
      (m'.blocksOf r)[numLocal / m.group.blockSize]? = some cow ∧
      m'.pendingCowCopies = m.pendingCowCopies ++ [(src, cow)] ∧
      cow ≠ 0 ∧ cow ∉ kv.refs + retained ∧
      (∀ m₁ ∈ kv.managers, cow ∉ m₁.touched (hits m₁.group.groupId) numTotal) ∧
      (kv'.refs + retained).count cow = 2
  else m'.pendingCowCopies = m.pendingCowCopies

/-- What has become of a hit: it stands in the tables, the block in which it ends as a private
copy, and its blocks are referenced and still have the keys under which they were found. -/
structure HitKept (kv kv' : KVCacheManager R) (retained : Multiset ℕ) (r : R)
    (hits : ℕ → List ℕ) (numLocal numTotal : ℕ) : Prop where
  inPlace : List.Forall₂ (HitInPlace r hits numLocal numTotal) kv.managers kv'.managers
  copied : List.Forall₂ (HitCopied kv kv' retained r hits numLocal numTotal) kv.managers
    kv'.managers
  held : ∀ m ∈ kv.managers, ∀ i ∈ m.touched (hits m.group.groupId) numTotal, i ≠ 0 → i ∈ kv'.refs
  keys : ∀ m ∈ kv.managers, ∀ i ∈ m.touched (hits m.group.groupId) numTotal, ∀ key,
    kv.pool.HasKey i key → kv'.pool.HasKey i key

/-- When every group has reserved its blocks, the manager is settled. -/
theorem Reserved.settled_of {kv' : KVCacheManager R} {numTotal : ℕ}
    (h : kv.Settled n enableCaching retained)
    (hacc : kv'.pool.Accounts n enableCaching (kv'.refs + retained) xs)
    (hpost : List.Forall₂ (Reserved r hits numTotal numTokens) kv.managers kv'.managers) :
    kv'.Settled n enableCaching retained := by
  refine h.of_forall₂ hacc hpost (fun _ _ hres => hres.frame.group) fun m m' hres hnone r' => ?_
  by_cases hr : r' = r
  · exact hr ▸ hres.settled
  · exact (hres.frame.partialHitReqs r' hr).trans (hnone r')

/-- Filling a table that begins with the hit reserves the rest and leaves the hit in place. -/
theorem BeginsWithHit.filled {numTotal : ℕ} {base : Multiset ℕ} {m m' m'' : Manager R}
    (h : BeginsWithHit r hits numLocal numTotal m m') (h' : Filled r numTokens base m' m'') :
    Reserved r hits numTotal numTokens m m'' ∧ HitInPlace r hits numLocal numTotal m m'' := by
  obtain ⟨new, hnew, hreal⟩ := h.blocksOf
  refine ⟨⟨h.frame.trans h'.frame, h'.settled, h'.covers, fun j _ hj => ?_⟩, fun j hj hother => ?_⟩
  -- a place behind the hit is in the table so far or was appended to it
  · rcases Nat.lt_or_ge j (m'.blocksOf r).length with hlt | hge
    · by_cases hnote : ∃ src, m'.partialHitReqs r = some (j, src)
      · -- the private copy
        obtain ⟨src, hsrc⟩ := hnote
        obtain ⟨cow, -, h0, hcow, -⟩ := h'.copied j src hsrc
        rw [hcow]
        exact fun hnull => h0 (Option.some.inj hnull)
      · -- a block for external tokens
        rw [h'.blocksOf j hlt fun src hsrc => hnote ⟨src, hsrc⟩, hnew,
          List.getElem?_append_right hj]
        exact fun hnull => hreal (List.mem_of_getElem? hnull)
    · exact h'.appended j hge
  have hlt : j < (m'.blocksOf r).length := by
    rw [hnew, List.length_append]
    exact Nat.lt_add_right _ hj
  rw [h'.blocksOf j hlt, hnew, List.getElem?_append_left hj]
  -- only the last block of the hit is noted
  intro src hsrc
  have hends := h.ends
  rw [hsrc] at hends
  split at hends
  · rename_i hinside
    exact hother ⟨hinside, Option.some.inj hends⟩
  · cases hends

/-- What one manager has done where the hit ends. -/
theorem BeginsWithHit.copied {numTotal : ℕ} {base : Multiset ℕ} {m m' m'' : Manager R}
    (h : BeginsWithHit r hits numLocal numTotal m m') (h' : Filled r numTokens base m' m'')
    (hlast : m.LastAt (hits m.group.groupId) numLocal numTotal) :
    if m.endsInside (hits m.group.groupId) numLocal numTotal then
      ∃ src cow,
        (m.hitTable (hits m.group.groupId) numTotal)[numLocal / m.group.blockSize]? = some src ∧
        (m''.blocksOf r)[numLocal / m.group.blockSize]? = some cow ∧
        m''.pendingCowCopies = m.pendingCowCopies ++ [(src, cow)] ∧ cow ≠ 0 ∧ cow ∉ base
    else m''.pendingCowCopies = m.pendingCowCopies := by
  have hends := h.ends
  split
  · next hinside =>
    rw [if_pos hinside] at hends
    obtain ⟨⟨idx, src⟩, hnote, rfl⟩ := Option.map_eq_some_iff.mp hends
    obtain ⟨last, -, -, hat⟩ := hlast hinside
    obtain ⟨new, hnew, -⟩ := h.blocksOf
    -- the block that is noted is the last of the hit
    have hsrc := (h.ready.source _ src hnote).1
    have hlt := (List.getElem?_eq_some_iff.mp hat).1
    rw [hnew, List.getElem?_append_left hlt, hat] at hsrc
    obtain rfl := Option.some.inj hsrc
    obtain ⟨cow, hfresh, h0, hcow, hcopies⟩ := h'.copied _ last hnote
    exact ⟨last, cow, hat, hcow, hcopies.trans (by rw [h.copies]), h0, hfresh⟩
  · next hinside =>
    rw [if_neg hinside, Option.map_eq_none_iff] at hends
    exact (h'.notCopied hends).trans h.copies

omit [DecidableEq R] in
/-- One group references no more than all groups together. -/
theorem refs_le_of_mem {m : Manager R} (hm : m ∈ kv.managers) : m.refs ≤ kv.refs := by
  obtain ⟨before, after, hsplit⟩ := List.append_of_mem hm
  rw [refs, hsplit, List.map_append, List.sum_append, List.map_cons, List.sum_cons]
  exact (Multiset.le_add_right _ _).trans (Multiset.le_add_left _ _)

/-- A new request takes what was estimated. -/
theorem takeNewSlots_ok
    (hI : kv.Settled n enableCaching retained)
    (h : kv.pool.Accounts n enableCaching (kv.refs + retained) xs)
    (hnew : kv.NewRequest n enableCaching r hits numLocal)
    (hle : numLocal + numExternal ≤ numTokens)
    (hbudget : (kv.managers.map fun m => m.estimate r (hits m.group.groupId) numLocal
      (numLocal + numExternal) numTokens xs).sum ≤ xs.length) :
    ∃ kv₁ kv', kv.allocateNewComputedBlocks r hits numLocal numExternal = .ok kv₁ ∧
      kv₁.allocateNewBlocks r numTokens = .ok kv' ∧ kv'.Settled n enableCaching retained ∧
      List.Forall₂ (Reserved r hits (numLocal + numExternal) numTokens) kv.managers
        kv'.managers ∧
      kv.HitKept kv' retained r hits numLocal (numLocal + numExternal) := by
  obtain ⟨kv₁, xs₁, base, hrun₁, hacc₁, hold, hbase, hkeeps₁, hin, hpost₁, hbudget₁⟩ :=
    allocateNewComputedBlocks_ok h hI.wf (fun m hm => hI.partialHitReqs m hm r) hnew hle hbudget
  have hbegins : ∀ m' ∈ kv₁.managers, ∃ m ∈ kv.managers,
      BeginsWithHit r hits numLocal (numLocal + numExternal) m m' :=
    -- each manager after the first phase began with its hit
    fun m' hm' => exists_of_mem_right hpost₁ hm'
  have hwf₁ : ∀ m ∈ kv₁.managers, m.Wf := by
    intro m' hm'
    obtain ⟨m, hm, hbegin⟩ := hbegins m' hm'
    exact (hI.wf m hm).of_group hbegin.frame.group
  have hready₁ : ∀ m ∈ kv₁.managers, m.Ready r := by
    intro m' hm'
    obtain ⟨m, -, hbegin⟩ := hbegins m' hm'
    exact hbegin.ready
  obtain ⟨kv', xs', hrun, hacc, hkeeps, hrefs, htwo, hpost⟩ :=
    allocateNewBlocks_ok hacc₁ hwf₁ hready₁ hbudget₁
  -- the two phases, one after the other
  have hboth := forall₂_trans (Q := Filled r numTokens (kv₁.refs + retained)) (S := fun m m'' =>
    Reserved r hits (numLocal + numExternal) numTokens m m'' ∧
      HitInPlace r hits numLocal (numLocal + numExternal) m m'')
    (fun _ _ _ h h' => h.filled h') hpost₁ hpost
  have hreserved := hboth.imp fun _ _ h => h.1
  -- what both phases have done where the hit ends
  have hcopied := forall₂_trans (Q := Filled r numTokens (kv₁.refs + retained))
    (S := fun m m'' => m.LastAt (hits m.group.groupId) numLocal (numLocal + numExternal) → _)
    (fun _ _ _ h h' hlast => h.copied h' hlast) hpost₁ hpost
  refine ⟨kv₁, kv', hrun₁, hrun, Reserved.settled_of hI hacc hreserved, hreserved,
    hboth.imp fun _ _ h => h.2, ?_, fun m hm i hi h0 => ?_, fun m hm i hi key hkey => ?_⟩
  · refine List.forall₂_iff_zip.mpr ⟨hboth.length_eq, fun {m m'} hzip => ?_⟩
    obtain ⟨hm, hm'⟩ := List.of_mem_zip hzip
    have hcopy := (List.forall₂_iff_zip.mp hcopied).2 hzip (hnew.lastAt hm (hI.wf m hm) _)
    rw [HitCopied]
    split at hcopy
    · next hinside =>
      obtain ⟨src, cow, hat, hcow, hcopies, h0, hfresh⟩ := hcopy
      rw [if_pos hinside]
      have hfree : cow ∉ kv.refs + retained := fun h =>
        hfresh (Multiset.mem_of_le (add_le_add (hold.trans hbase) le_rfl) h)
      refine ⟨src, cow, hat, hcow, hcopies, h0, hfree, fun m₁ hm₁ htouched => ?_, ?_⟩
      · exact hfresh (Multiset.mem_add.mpr
          (.inl (Multiset.mem_of_le hbase (hin m₁ hm₁ cow htouched h0))))
      · -- at most two references, and two that are known
        have hpending : (src, cow) ∈ m'.pendingCowCopies := by
          rw [hcopies]
          exact List.mem_append_right _ (List.mem_singleton_self _)
        have hown := Manager.two_le_count hcow h0 hpending
        have hall := Multiset.count_le_of_le cow
          ((refs_le_of_mem hm').trans (Multiset.le_add_right kv'.refs retained))
        exact le_antisymm (htwo cow hfresh) (hown.trans hall)
    · next hinside =>
      rw [if_neg hinside]
      exact hcopy
  -- the hit keeps its reference through both phases
  · exact Multiset.mem_of_le (hbase.trans hrefs) (hin m hm i hi h0)
  -- and its keys
  · have hi := hin m hm i hi (h.hasKey hkey).1
    exact hkeeps i (Multiset.mem_add.mpr (.inl (Multiset.mem_of_le hbase hi))) key
      (hkeeps₁ i hi key hkey)

/-- A request that goes on takes what was estimated. -/
theorem takeMoreSlots_ok (hits : ℕ → List ℕ) (numTotal : ℕ)
    (hI : kv.Settled n enableCaching retained)
    (h : kv.pool.Accounts n enableCaching (kv.refs + retained) xs)
    (hbudget : (kv.managers.map fun m => m.demand r numTokens).sum ≤ xs.length) :
    ∃ kv', kv.allocateNewBlocks r numTokens = .ok kv' ∧ kv'.Settled n enableCaching retained ∧
      List.Forall₂ (fun m m' => Reserved r hits numTotal numTokens m m' ∧
        m'.pendingCowCopies = m.pendingCowCopies) kv.managers kv'.managers := by
  -- a request that runs has no hit to copy
  have hready : ∀ m ∈ kv.managers, m.Ready r := by
    intro m hm
    have hnone := hI.partialHitReqs m hm r
    refine ⟨fun hne => absurd hnone hne, fun idx src hsome => ?_⟩
    rw [hnone] at hsome
    cases hsome
  obtain ⟨kv', xs', hrun, hacc, -, -, -, hpost⟩ := allocateNewBlocks_ok h hI.wf hready hbudget
  have hreserved : List.Forall₂ (Reserved r hits numTotal numTokens) kv.managers kv'.managers :=
    hpost.imp fun _ _ h => ⟨h.frame, h.settled, h.covers, fun j hj _ => h.appended j hj⟩
  refine ⟨kv', hrun, Reserved.settled_of hI hacc hreserved,
    List.forall₂_iff_zip.mpr ⟨hpost.length_eq, fun {m m'} hzip => ?_⟩⟩
  have hfilled := (List.forall₂_iff_zip.mp hpost).2 hzip
  exact ⟨(List.forall₂_iff_zip.mp hreserved).2 hzip,
    hfilled.notCopied (hI.partialHitReqs m (List.of_mem_zip hzip).1 r)⟩

theorem Trimmed.refl (r : R) (m : Manager R) : Trimmed r m m :=
  ⟨.refl r m, rfl, rfl, rfl, rfl, rfl⟩

/-- A request without a table has nothing to trim. -/
theorem Trimmed.refs_eq {m m' : Manager R} (h : Trimmed r m m') (hempty : m.blocksOf r = []) :
    m'.refs = m.refs := by
  have hempty' : m'.blocksOf r = [] :=
    List.length_eq_zero_iff.mp (h.length.trans (hempty ▸ rfl))
  rw [m'.refs_eq r, m.refs_eq r, hempty, hempty', h.refsBut]

/-- Where the request has no blocks yet, trimming changes no reference. -/
theorem refs_eq_of_trimmed (hpost : List.Forall₂ (Trimmed r) kv.managers kv'.managers)
    (hempty : ∀ m ∈ kv.managers, m.blocksOf r = []) : kv'.refs = kv.refs := by
  have run : ∀ {ms ms' : List (Manager R)}, List.Forall₂ (Trimmed r) ms ms' →
      (∀ m ∈ ms, m.blocksOf r = []) → (ms'.map Manager.refs).sum = (ms.map Manager.refs).sum := by
    intro ms ms' h hms
    induction h with
    | nil => rfl
    | cons htrim _ ih =>
      obtain ⟨hm, hms⟩ := List.forall_mem_cons.mp hms
      rw [List.map_cons, List.map_cons, List.sum_cons, List.sum_cons, htrim.refs_eq hm, ih hms]
  exact run hpost hempty

/-- What became of the hit after the tables have been trimmed. -/
theorem HitKept.of_trimmed {kv₁ : KVCacheManager R} {numTotal : ℕ}
    (h : kv₁.HitKept kv' retained r hits numLocal numTotal) (hkeys : kv.pool.SameKeys kv₁.pool)
    (hpost : List.Forall₂ (Trimmed r) kv.managers kv₁.managers)
    (hempty : ∀ m ∈ kv.managers, m.blocksOf r = []) :
    kv.HitKept kv' retained r hits numLocal numTotal where
  inPlace := by
    refine forall₂_trans (Q := HitInPlace r hits numLocal numTotal)
      (fun m m₁ m' htrim hplace => ?_) hpost h.inPlace
    rw [HitInPlace, Manager.hitTable, Manager.endsInside, Manager.touched, htrim.frame.group]
      at hplace
    exact hplace
  copied := by
    refine forall₂_trans (Q := HitCopied kv₁ kv' retained r hits numLocal numTotal)
      (fun m m₁ m' htrim hcopy => ?_) hpost h.copied
    -- the trim changes neither the hit nor where it ends
    have hiff : m₁.endsInside (hits m₁.group.groupId) numLocal numTotal ↔
        m.endsInside (hits m.group.groupId) numLocal numTotal := by
      rw [Manager.endsInside, Manager.endsInside, Manager.touched, Manager.touched,
        htrim.frame.group]
    by_cases hends : m.endsInside (hits m.group.groupId) numLocal numTotal
    · obtain ⟨src, cow, hat, hcow, hcopies, h0, hfree, hother, htwo⟩ :=
        (if_pos (hiff.mpr hends)).mp hcopy
      rw [Manager.hitTable, Manager.touched, htrim.frame.group] at hat
      rw [htrim.frame.group] at hcow
      rw [htrim.copies] at hcopies
      rw [refs_eq_of_trimmed hpost hempty] at hfree
      rw [HitCopied, if_pos hends]
      refine ⟨src, cow, hat, hcow, hcopies, h0, hfree, fun m₂ hm₂ htouched => ?_, htwo⟩
      obtain ⟨m₃, hm₃, htrim₃⟩ := exists_of_mem_right hpost.flip hm₂
      refine hother m₃ hm₃ ?_
      rw [Manager.touched, htrim₃.frame.group]
      exact htouched
    · rw [HitCopied, if_neg hends, ← htrim.copies]
      exact (if_neg (mt hiff.mp hends)).mp hcopy
  held m hm i hi := by
    obtain ⟨m₁, hm₁, htrim⟩ := exists_of_mem_right hpost.flip hm
    refine h.held m₁ hm₁ i ?_
    rw [Manager.touched, htrim.frame.group]
    exact hi
  keys m hm i hi key hkey := by
    obtain ⟨m₁, hm₁, htrim⟩ := exists_of_mem_right hpost.flip hm
    refine h.keys m₁ hm₁ i ?_ key (hkeys.hasKey_iff.mpr hkey)
    rw [Manager.touched, htrim.frame.group]
    exact hi

/-- A new request without a hit and without external tokens has computed nothing. -/
theorem NewRequest.goesOn (h : kv.NewRequest n enableCaching r hits numLocal)
    (hwf : ∀ m ∈ kv.managers, m.Wf) (hnone : ∀ m ∈ kv.managers, hits m.group.groupId = [])
    (hzero : numExternal = 0) : kv.GoesOn r hits numLocal numExternal where
  noHit := hnone
  noExternal := hzero
  computed m hm hring := by
    have hlen := h.length m hm hring
    rw [hnone m hm, List.length_nil] at hlen
    have hle := (cdiv_le_iff (hwf m hm).blockSize_pos).mp hlen.ge
    rw [Nat.zero_mul] at hle
    exact hle.trans (Nat.zero_le _)

/-- Nothing is expected of an empty hit. -/
theorem NewRequest.hitKept (h : kv.NewRequest n enableCaching r hits numLocal)
    (hwf : ∀ m ∈ kv.managers, m.Wf) (hnone : ∀ m ∈ kv.managers, hits m.group.groupId = [])
    (hpost : List.Forall₂ (fun m m' => Reserved r hits numLocal numTokens m m' ∧
      m'.pendingCowCopies = m.pendingCowCopies) kv.managers kv'.managers) :
    kv.HitKept kv' retained r hits numLocal numLocal where
  inPlace := by
    -- without a hit, nothing is skipped either
    have hmem : ∀ m ∈ kv.managers, m.hitTable (hits m.group.groupId) numLocal = [] := by
      intro m hm
      rw [Manager.hitTable]
      split
      · rfl
      · rename_i hring
        have hlen := h.length m hm (by simpa using hring)
        rw [hnone m hm, List.length_nil] at hlen
        have hle := (cdiv_le_iff (hwf m hm).blockSize_pos).mp hlen.ge
        rw [Nat.zero_mul] at hle
        have hskip := (hwf m hm).numSkippedTokens_le numLocal
        have hzero : m.group.numSkippedTokens numLocal = 0 := by omega
        rw [hzero, Nat.zero_div, Manager.touched, if_neg hring, hnone m hm, List.drop_nil]
        rfl
    refine List.forall₂_iff_zip.mpr ⟨hpost.length_eq, fun {m m'} hzip j hj _ => ?_⟩
    rw [hmem m (List.of_mem_zip hzip).1] at hj
    exact absurd hj (Nat.not_lt_zero j)
  copied := by
    refine List.forall₂_iff_zip.mpr ⟨hpost.length_eq, fun {m m'} hzip => ?_⟩
    -- nor does a hit end inside a block
    have hnot : ¬m.endsInside (hits m.group.groupId) numLocal numLocal := fun hends => by
      refine hends.1 ?_
      rw [Manager.touched, hnone m (List.of_mem_zip hzip).1, List.drop_nil, ite_self]
    rw [HitCopied, if_neg hnot]
    exact ((List.forall₂_iff_zip.mp hpost).2 hzip).2
  held m hm i hi := by
    rw [Manager.touched, hnone m hm, List.drop_nil, ite_self] at hi
    cases hi
  keys m hm i hi := by
    rw [Manager.touched, hnone m hm, List.drop_nil, ite_self] at hi
    cases hi

variable {c : Config} {request : Request R} {a : SlotArgs}

/-- What the callers of `allocate_slots` promise. -/
structure Promised (kv : KVCacheManager R) (n : ℕ) (enableCaching : Bool) (c : Config)
    (request : Request R) (a : SlotArgs) : Prop where
  work : a.numNewTokens ≠ 0 ∨ a.numExternalComputedTokens ≠ 0
  fits : numLocalComputedTokens request a + a.numExternalComputedTokens ≤ c.maxModelLen
  kind : kv.NewRequest n enableCaching request.requestId a.newComputedBlocks
      (numLocalComputedTokens request a) ∨
    kv.GoesOn request.requestId a.newComputedBlocks (numLocalComputedTokens request a)
      a.numExternalComputedTokens

/-- The admission gate does not fail. -/
theorem Promised.fullSequenceFits (h : kv.Promised n enableCaching c request a) (watermark : ℕ) :
    ∃ fits, kv.fullSequenceFits c request a watermark = .ok fits := by
  rw [KVCacheManager.fullSequenceFits]
  split
  -- a request with cached blocks brings no new hit
  · have hhits : ∀ m ∈ kv.managers, (m.numCachedBlock request.requestId).isSome →
        a.newComputedBlocks m.group.groupId = [] := by
      intro m hm hsome
      obtain hnew | hgoes := h.kind
      · rw [(hnew.fresh m hm).2] at hsome
        cases hsome
      · exact hgoes.noHit m hm
    have hestimate : ∀ m ∈ kv.managers, ∃ k, m.getNumBlocksToAllocate kv.pool request.requestId
        (min request.numTokens c.maxModelLen) (a.newComputedBlocks m.group.groupId)
        (totalComputedTokens c request a) (numLocalComputedTokens request a) true = .ok k :=
      fun m hm => Manager.exists_getNumBlocksToAllocate (hhits m hm) _ _
    obtain ⟨k, hk⟩ := exists_getNumBlocksToAllocate hestimate
    rw [hk]
    exact ⟨_, rfl⟩
  · exact ⟨true, rfl⟩

/-- What the caller promised survives the trim. -/
theorem Promised.trimmed (h : kv.Promised n enableCaching c request a)
    (hpost : List.Forall₂ (Trimmed request.requestId) kv.managers kv'.managers) :
    kv'.Promised n enableCaching c request a :=
  ⟨h.work, h.fits, h.kind.imp (·.trimmed hpost) (·.trimmed hpost)⟩

/-- The part of `allocate_slots` that takes blocks, where the estimate fits in the queue. -/
theorem takeSlots_ok (hI : kv.Settled n enableCaching retained)
    (h : kv.pool.Accounts n enableCaching (kv.refs + retained) xs)
    (hpromise : kv.Promised n enableCaching c request a) :
    ∃ k, kv.getNumBlocksToAllocate request.requestId (numTokensNeedSlot c request a)
        a.newComputedBlocks (numLocalComputedTokens request a + a.numExternalComputedTokens)
        (numLocalComputedTokens request a) false = .ok k ∧
      (k ≤ xs.length → ∃ kv', kv.takeSlots c request a = .ok kv' ∧
        kv'.Settled n enableCaching retained ∧
        List.Forall₂ (Reserved request.requestId a.newComputedBlocks
          (numLocalComputedTokens request a + a.numExternalComputedTokens)
          (numTokensNeedSlot c request a)) kv.managers kv'.managers ∧
        (kv.NewRequest n enableCaching request.requestId a.newComputedBlocks
            (numLocalComputedTokens request a) →
          kv.HitKept kv' retained request.requestId a.newComputedBlocks
            (numLocalComputedTokens request a)
            (numLocalComputedTokens request a + a.numExternalComputedTokens))) := by
  have hle : numLocalComputedTokens request a + a.numExternalComputedTokens
      ≤ numTokensNeedSlot c request a := by
    have hfits := hpromise.fits
    rw [numTokensNeedSlot, totalComputedTokens]
    omega
  rw [takeSlots]
  by_cases hsome : (∃ m ∈ kv.managers, a.newComputedBlocks m.group.groupId ≠ []) ∨
      0 < a.numExternalComputedTokens
  · -- a hit or external tokens: the request is new
    have hnew : kv.NewRequest n enableCaching request.requestId a.newComputedBlocks
        (numLocalComputedTokens request a) := by
      refine hpromise.kind.resolve_right fun hgoes => ?_
      obtain ⟨m, hm, hne⟩ | hpos := hsome
      · exact hne (hgoes.noHit m hm)
      · exact absurd hgoes.noExternal hpos.ne'
    refine ⟨_, getNumBlocksToAllocate_sum fun m hm => Manager.getNumBlocksToAllocate_eq h
      (hnew.fresh m hm).1 (hnew.fresh m hm).2 (hnew.lt m hm) _ _, fun hbudget => ?_⟩
    obtain ⟨kv₁, kv', hrun₁, hrun, hI', hpost, hkept⟩ := takeNewSlots_ok hI h hnew hle hbudget
    refine ⟨kv', ?_, hI', hpost, fun _ => hkept⟩
    simp only [if_pos hsome, hrun₁, hrun, bind, Except.bind]
  · obtain ⟨hnone, hzero⟩ := not_or.mp hsome
    have hnone : ∀ m ∈ kv.managers, a.newComputedBlocks m.group.groupId = [] := by
      simpa using hnone
    have hzero : a.numExternalComputedTokens = 0 := by omega
    have hgoes : kv.GoesOn request.requestId a.newComputedBlocks
        (numLocalComputedTokens request a) a.numExternalComputedTokens :=
      hpromise.kind.elim (fun hnew => hnew.goesOn hI.wf hnone hzero) id
    rw [hzero, Nat.add_zero]
    refine ⟨_, getNumBlocksToAllocate_sum
      (g := fun m => m.demand request.requestId (numTokensNeedSlot c request a))
      fun m hm => ?_, fun hbudget => ?_⟩
    · rw [hnone m hm]
      exact Manager.getNumBlocksToAllocate_running (hI.wf m hm) (hI.partialHitReqs m hm _)
        (hgoes.computed m hm)
    · obtain ⟨kv', hrun, hI', hpost⟩ := takeMoreSlots_ok a.newComputedBlocks
        (numLocalComputedTokens request a) hI h hbudget
      refine ⟨kv', ?_, hI', hpost.imp fun _ _ h => h.1,
        fun hnew => hnew.hitKept hI.wf hnone hpost⟩
      rw [hzero] at hsome
      simp only [if_neg hsome, bind, Except.bind, pure, Except.pure, hrun]

/-- **`allocate_slots` up to the caching of full blocks.** It does not fail. A request that is
refused has at most lost skipped blocks; one that is not has its slots in every group, and its
hit is in place. -/
theorem reserveSlots_ok (hI : kv.Settled n enableCaching retained)
    (hpromise : kv.Promised n enableCaching c request a) :
    ∃ allocated kv', kv.reserveSlots c request a = .ok (allocated, kv') ∧
      kv'.Settled n enableCaching retained ∧
      (allocated = false → List.Forall₂ (Trimmed request.requestId) kv.managers kv'.managers) ∧
      (allocated = true →
        List.Forall₂ (Reserved request.requestId a.newComputedBlocks
          (numLocalComputedTokens request a + a.numExternalComputedTokens)
          (numTokensNeedSlot c request a)) kv.managers kv'.managers ∧
        (kv.NewRequest n enableCaching request.requestId a.newComputedBlocks
            (numLocalComputedTokens request a) →
          kv.HitKept kv' retained request.requestId a.newComputedBlocks
            (numLocalComputedTokens request a)
            (numLocalComputedTokens request a + a.numExternalComputedTokens))) := by
  obtain ⟨watermark, hwatermark⟩ : ∃ w, w =
    if a.hasScheduledReqs && request.waiting then c.watermarkBlocks else 0 := ⟨_, rfl⟩
  obtain ⟨fits, hfits⟩ := hpromise.fullSequenceFits watermark
  simp only [reserveSlots, require, if_pos hpromise.work, bind, Except.bind, pure, Except.pure,
    ← hwatermark, hfits]
  cases fits with
  | false =>
    -- the gate refuses the request
    exact ⟨false, kv, rfl, hI, fun _ => List.forall₂_same.mpr fun m _ => .refl _ m,
      fun h => absurd h Bool.false_ne_true⟩
  | true =>
    obtain ⟨xs, hacc⟩ := hI.accounts
    obtain ⟨kv₁, xs₁, hrun₁, hacc₁, hkeys₁, htrim⟩ := removeSkippedBlocks_ok hacc request.requestId
      (totalComputedTokens c request a - request.numInFlightTokens)
    have hI₁ := hI.trimmed hacc₁ htrim
    obtain ⟨k, hk, htake⟩ := takeSlots_ok hI₁ hacc₁ (hpromise.trimmed htrim)
    simp only [hrun₁, hk, Bool.true_eq_false, if_false]
    split
    · -- there are not enough free blocks
      exact ⟨false, kv₁, rfl, hI₁, fun _ => htrim, fun h => absurd h Bool.false_ne_true⟩
    · rename_i hroom
      have hle : k ≤ xs₁.length := by
        rw [hacc₁.getNumFreeBlocks] at hroom
        omega
      obtain ⟨kv', hrun, hI', hpost, hkept⟩ := htake hle
      rw [hrun]
      refine ⟨true, kv', rfl, hI', fun h => absurd h Bool.true_eq_false.mp,
        fun _ => ⟨?_, fun hnew => ?_⟩⟩
      · refine forall₂_trans (Q := Reserved request.requestId a.newComputedBlocks
          (numLocalComputedTokens request a + a.numExternalComputedTokens)
          (numTokensNeedSlot c request a)) (fun m m₁ m' h h' => ?_) htrim hpost
        refine ⟨h.frame.trans h'.frame, h'.settled, h'.covers, fun j hj hhit => ?_⟩
        rw [Manager.hitTable, Manager.touched, ← h.frame.group] at hhit
        exact h'.appended j (h.length ▸ hj) hhit
      · exact (hkept (hnew.trimmed htrim)).of_trimmed hkeys₁ htrim
          fun m hm => (hnew.fresh m hm).1

end KVCacheManager

end Dsv41Overlay.KvCache
