import Dsv41Overlay.KvCache.PoolRuns
import Mathlib.Algebra.Order.Group.Multiset

/-!
# The accounts of the pool

The managers of the KV cache groups share one pool. Each accounts for the references that
its tables hold; together they are a multiset of blocks, and `Accounts` says that a pool
agrees with it: the pool is one that a run of its calls has led to, in which just these
references are held. So whatever holds of the runs of the pool holds for its managers.

One rule for each call of the pool says what the call does to the accounts, and that it does
not fail. In no rule does a block that is referenced lose a key (`Keeps`).
-/

namespace Dsv41Overlay.KvCache

open Fallible

/-- The references in a table: it may be padded with null blocks, which nobody counts. -/
def live (blocks : List ℕ) : Multiset ℕ := (blocks.filter (· ≠ 0) : List ℕ)

/-- Appending tables adds what they hold. -/
theorem live_append (is js : List ℕ) : live (is ++ js) = live is + live js := by
  rw [live, List.filter_append, ← Multiset.coe_add]
  rfl

@[simp] theorem live_nil : live [] = 0 := rfl

/-- Null blocks are not held. -/
@[simp] theorem live_replicate (k : ℕ) : live (List.replicate k 0) = 0 := by
  rw [live, List.filter_eq_nil_iff.mpr]
  · rfl
  · intro i hi
    simp [List.eq_of_mem_replicate hi]

/-- What a table holds does not depend on its order. -/
theorem live_perm {is js : List ℕ} (h : is.Perm js) : live is = live js :=
  Multiset.coe_eq_coe.mpr (h.filter _)

/-- A block other than the null block is held once for its entry. -/
theorem live_cons {i : ℕ} (hi : i ≠ 0) (is : List ℕ) : live (i :: is) = i ::ₘ live is := by
  rw [live, List.filter_cons_of_pos (by simpa using hi), ← Multiset.cons_coe]
  rfl

/-- A block is held as often as it stands in the table. -/
theorem count_live {i : ℕ} (hi : i ≠ 0) (is : List ℕ) : (live is).count i = is.count i := by
  rw [live, Multiset.coe_count, List.count_filter (by simpa using hi)]

/-- The blocks held are the entries but the null block. -/
theorem mem_live {i : ℕ} {is : List ℕ} : i ∈ live is ↔ i ∈ is ∧ i ≠ 0 := by
  rw [live, Multiset.mem_coe, List.mem_filter, decide_eq_true_eq]

namespace BlockPool

/-- References to the null block do not matter. -/
theorem Counted.congr {p : BlockPool} {held held' : Ledger} {xs : List ℕ} (h : p.Counted held xs)
    (hheld : ∀ i, i ≠ 0 → held' i = held i) : p.Counted held' xs where
  pos := h.pos
  queue := h.queue
  mem_iff i := by
    rw [h.mem_iff]
    by_cases hi : i = 0
    · simp [hi]
    · rw [hheld i hi]
  refCnt i hi hn := by rw [h.refCnt i hi hn, hheld i hi]
  isNull := h.isNull

/-- The pool is one of `n` blocks that its users have led to, and they hold just the
references `refs`; `xs` is its queue. -/
structure Accounts (p : BlockPool) (n : ℕ) (enableCaching : Bool) (refs : Multiset ℕ)
    (xs : List ℕ) : Prop where
  reached : ∃ (hashBlockSize : ℕ) (s : PoolState),
    (poolRuns n enableCaching hashBlockSize).ReachableVia (fun s call => call.Promise s) s ∧
    s.pool = p ∧ ∀ i, i ≠ 0 → s.held i = refs.count i
  counted : p.Counted (fun i => refs.count i) xs
  lt : ∀ i ∈ refs, i < n

/-- Blocks with a reference keep their keys. -/
def Keeps (refs : Multiset ℕ) (p p' : BlockPool) : Prop :=
  ∀ i ∈ refs, ∀ key, p.HasKey i key → p'.HasKey i key

theorem Keeps.refl (refs : Multiset ℕ) (p : BlockPool) : Keeps refs p p := fun _ _ _ h => h

variable {p p' : BlockPool} {n k : ℕ} {enableCaching : Bool} {refs refs' : Multiset ℕ}
  {xs xs' is ids : List ℕ} {i : ℕ} {call : Call}

namespace Accounts

/-- The accounts are those of a pool state that meets the pool invariant. -/
theorem inv (h : p.Accounts n enableCaching refs xs) :
    ∃ s, PoolInv n enableCaching s ∧ s.pool = p := by
  obtain ⟨_, s, hs, hp, -⟩ := h.reached
  exact ⟨s, PoolInv.of_reachable hs, hp⟩

/-- The number of blocks is the configured one. -/
theorem numGpuBlocks (h : p.Accounts n enableCaching refs xs) : p.numGpuBlocks = n := by
  obtain ⟨s, hI, rfl⟩ := h.inv
  exact hI.numGpuBlocks

/-- Whether the prefix cache is on does not change. -/
theorem caching (h : p.Accounts n enableCaching refs xs) : p.enableCaching = enableCaching := by
  obtain ⟨s, hI, rfl⟩ := h.inv
  exact hI.caching

/-- The cached hashes and the table agree. -/
theorem keyed (h : p.Accounts n enableCaching refs xs) : p.Keyed := by
  obtain ⟨s, hI, rfl⟩ := h.inv
  exact hI.keyed

/-- Only real blocks other than the null block carry a key. -/
theorem hasKey (h : p.Accounts n enableCaching refs xs) {key : BlockHashWithGroupId}
    (hkey : p.HasKey i key) : i ≠ 0 ∧ i < n := by
  obtain ⟨s, hI, rfl⟩ := h.inv
  exact hI.hasKey i key hkey

/-- There is at least the null block. -/
theorem pos (h : p.Accounts n enableCaching refs xs) : 0 < n := h.numGpuBlocks ▸ h.counted.pos

/-- The free blocks are those of the queue. -/
theorem getNumFreeBlocks (h : p.Accounts n enableCaching refs xs) :
    p.getNumFreeBlocks = xs.length := h.counted.getNumFreeBlocks

/-- A block in the queue is no null block and has no reference. -/
theorem not_mem (h : p.Accounts n enableCaching refs xs) (hi : i ∈ xs) :
    i ≠ 0 ∧ i < n ∧ i ∉ refs := by
  obtain ⟨h0, hlt, hcount⟩ := (h.counted.mem_iff i).mp hi
  exact ⟨h0, h.numGpuBlocks ▸ hlt, Multiset.count_eq_zero.mp hcount⟩

/-- A new pool: nothing is held. -/
theorem init {hashBlockSize : ℕ} (h : BlockPool.init n enableCaching hashBlockSize = .ok p) :
    ∃ xs, p.Accounts n enableCaching 0 xs := by
  have hinit : (poolRuns n enableCaching hashBlockSize).init ⟨p, fun _ => 0, fun _ _ => False⟩ :=
    ⟨h, rfl, rfl⟩
  obtain ⟨xs, hc⟩ := (PoolInv.init hinit).counted
  have hzero (i : ℕ) : 0 = (0 : Multiset ℕ).count i := (Multiset.count_zero i).symm
  exact ⟨xs, ⟨hashBlockSize, _, .init hinit, rfl, fun i _ => hzero i⟩,
    hc.congr fun i _ => (hzero i).symm, fun i hi => absurd hi (Multiset.notMem_zero i)⟩

/-- One more call of the pool. -/
theorem step (call : Call) (h : p.Accounts n enableCaching refs xs)
    (hpromise : ∀ s : PoolState, s.pool = p → (∀ i, i ≠ 0 → s.held i = refs.count i) →
      call.Promise s)
    (hrun : call.run p = .ok (ids, p'))
    (hheld : ∀ held : Ledger, (∀ i, i ≠ 0 → held i = refs.count i) →
      ∀ i, i ≠ 0 → call.heldAfter ids held i = refs'.count i)
    (hc : p'.Counted (fun i => refs'.count i) xs') (hlt : ∀ i ∈ refs', i < n) :
    p'.Accounts n enableCaching refs' xs' := by
  obtain ⟨hashBlockSize, s, hs, rfl, hrefs⟩ := h.reached
  exact ⟨⟨hashBlockSize, ⟨p', call.heldAfter ids s.held, call.validAfter ids s⟩,
    hs.step (hpromise s rfl hrefs) ⟨ids, hrun, rfl, rfl⟩, rfl, hheld s.held hrefs⟩, hc, hlt⟩

/-- A call that changes no reference. -/
theorem of_sameCounts (call : Call) (h : p.Accounts n enableCaching refs xs)
    (hpromise : ∀ s : PoolState, s.pool = p → (∀ i, i ≠ 0 → s.held i = refs.count i) →
      call.Promise s)
    (hrun : call.run p = .ok ([], p')) (hsame : p.SameCounts p')
    (hheld : ∀ held : Ledger, call.heldAfter [] held = held) :
    p'.Accounts n enableCaching refs xs :=
  h.step call hpromise hrun (fun held hrefs i hi => by rw [hheld]; exact hrefs i hi)
    (h.counted.of_sameCounts hsame) h.lt

/-- **`get_new_blocks`** hands out the front of the queue. -/
theorem getNewBlocks (h : p.Accounts n enableCaching refs xs) (hk : k ≤ xs.length) :
    ∃ p', p.getNewBlocks k = .ok (xs.take k, p') ∧
      p'.Accounts n enableCaching (live (xs.take k) + refs) (xs.drop k) ∧ Keeps refs p p' := by
  obtain ⟨p', hp, hc, -, -, -, hhas⟩ := getNewBlocks_ok h.counted h.keyed hk
  have hcount (i : ℕ) (hi : i ≠ 0) :
      (live (xs.take k) + refs).count i = refs.count i + (xs.take k).count i := by
    rw [Multiset.count_add, count_live hi, Nat.add_comm]
  refine ⟨p', hp, h.step (.getNewBlocks k) (fun _ _ _ => trivial) hp
    (fun held hrefs i hi => ?_) (hc.congr hcount) fun i hi => ?_, fun i hi key hkey => ?_⟩
  · rw [hcount i hi, ← hrefs i hi]
    rfl
  · obtain hi | hi := Multiset.mem_add.mp hi
    · exact (h.not_mem (List.mem_of_mem_take (mem_live.mp hi).1)).2.1
    · exact h.lt i hi
  · exact (hhas i key).mpr ⟨hkey, fun hand => (h.not_mem (List.mem_of_mem_take hand.2)).2.2 hi⟩

/-- **`touch`** takes references; the blocks leave the queue. -/
theorem touch (h : p.Accounts n enableCaching refs xs) (his : ∀ i ∈ is, i < n) :
    ∃ p', p.touch is = .ok p' ∧ p'.Accounts n enableCaching (live is + refs) (xs.diff is) ∧
      p.SameKeys p' := by
  have his' : ∀ i ∈ is, i < p.numGpuBlocks := h.numGpuBlocks.symm ▸ his
  obtain ⟨p', hp, hc, hkeys, -⟩ := touch_ok h.counted his'
  have hcount (i : ℕ) (hi : i ≠ 0) :
      (live is + refs).count i = refs.count i + is.count i := by
    rw [Multiset.count_add, count_live hi, Nat.add_comm]
  have hrun : (Call.touch is).run p = .ok ([], p') := by
    rw [Call.run, hp]
    rfl
  refine ⟨p', hp, h.step (.touch is) (fun s hs _ => ?_) hrun
    (fun held hrefs i hi => ?_) (hc.congr hcount) fun i hi => ?_, hkeys⟩
  · change ∀ i ∈ is, i < s.pool.numGpuBlocks
    rwa [hs]
  · rw [hcount i hi, ← hrefs i hi]
    rfl
  · obtain hi | hi := Multiset.mem_add.mp hi
    · exact his i (mem_live.mp hi).1
    · exact h.lt i hi

/-- A block with a reference may get another one. -/
theorem addRef (h : p.Accounts n enableCaching refs xs) (hi : i ∈ refs) (h0 : i ≠ 0) :
    (p.modify i fun b => b.addRef 1).Accounts n enableCaching (i ::ₘ refs) xs := by
  -- for the pool it is touched, and stays out of the queue
  obtain ⟨p', hp, hacc, -⟩ := h.touch (List.forall_mem_singleton.mpr (h.lt i hi))
  have href : (p.blocks i).refCnt ≠ 0 := by
    rw [h.counted.refCnt i h0 (h.numGpuBlocks ▸ h.lt i hi)]
    have := Multiset.count_pos.mpr hi
    omega
  have hnotin : i ∉ xs := fun hx => (h.not_mem hx).2.2 hi
  rw [BlockPool.touch, List.foldlM_cons, touchBlock, queueWithout, if_neg (fun hand => href hand.1)]
    at hp
  obtain rfl := Except.ok.inj hp
  rwa [live_cons h0, live_nil, Multiset.cons_add, zero_add, List.diff_cons,
    List.erase_of_not_mem hnotin, List.diff_nil] at hacc

/-- **`free_blocks`** gives references back, and the queue does not get shorter. -/
theorem freeBlocks (h : p.Accounts n enableCaching (live is + refs) xs) (his : ∀ i ∈ is, i < n) :
    ∃ p' xs', p.freeBlocks is = .ok p' ∧ p'.Accounts n enableCaching refs xs' ∧
      xs.length ≤ xs'.length ∧ p.SameKeys p' := by
  have his' : ∀ i ∈ is, i < p.numGpuBlocks := h.numGpuBlocks.symm ▸ his
  have hcount (i : ℕ) (hi : i ≠ 0) : (live is + refs).count i = is.count i + refs.count i := by
    rw [Multiset.count_add, count_live hi]
  have hle (i : ℕ) (hi : i ≠ 0) : is.count i ≤ (live is + refs).count i := by
    rw [hcount i hi]
    exact Nat.le_add_right _ _
  obtain ⟨p', hp, hc, hkeys, -⟩ := freeBlocks_ok h.counted his' hle
  have hsub (i : ℕ) (hi : i ≠ 0) : refs.count i = (live is + refs).count i - is.count i := by
    rw [hcount i hi, Nat.add_sub_cancel_left]
  have hrun : (Call.freeBlocks is).run p = .ok ([], p') := by
    rw [Call.run, hp]
    rfl
  refine ⟨p', _, hp, h.step (.freeBlocks is) (fun s hs hrefs => ?_) hrun
    (fun held hrefs i hi => ?_) (hc.congr hsub)
    (fun i hi => h.lt i (Multiset.mem_add.mpr (.inr hi))), ?_, hkeys⟩
  · refine ⟨hs ▸ his', fun i hi => ?_⟩
    rw [hrefs i hi]
    exact hle i hi
  · rw [hsub i hi, ← hrefs i hi]
    rfl
  · rw [List.length_append, List.length_append]
    omega

/-- Any order of the blocks will do. -/
theorem freeBlocks_reverse (h : p.Accounts n enableCaching (live is + refs) xs)
    (his : ∀ i ∈ is, i < n) :
    ∃ p' xs', p.freeBlocks is.reverse = .ok p' ∧ p'.Accounts n enableCaching refs xs' ∧
      xs.length ≤ xs'.length ∧ p.SameKeys p' := by
  refine freeBlocks ?_ fun i hi => his i (List.mem_reverse.mp hi)
  rwa [live_perm (List.reverse_perm is)]

end Accounts

end BlockPool

end Dsv41Overlay.KvCache
