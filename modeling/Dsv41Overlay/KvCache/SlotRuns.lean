import Dsv41Overlay.KvCache.Reserve

/-!
# Runs of the cache manager

The cache manager under any sequence of calls. Requests are given slots, have their full
blocks cached, lose the blocks that have left the attention window and give the rest back.
Some blocks leave the manager before they go back to the pool: the ends of a copy that is
still to be made, and the blocks of a request whose last step is in flight. Their takers hold
them (`retained`) and free them later.

In every reachable state the reference counts of the pool are the references in the tables,
in the pending copies and of the takers, so that the pool is in a state that a run of its own
calls leads to; and no call fails (`slots_sound`). What `allocate_slots` reserves for a
request with a prefix hit leaves the hit intact in all groups (`reserved_hit_kept`).
-/

namespace Dsv41Overlay.KvCache

open Fallible BlockPool

namespace KVCacheManager

variable {R : Type} [DecidableEq R] {kv kv' : KVCacheManager R} {r : R} {n : ℕ}
  {enableCaching : Bool} {retained : Multiset ℕ} {xs is : List ℕ}

/-! ### The other calls -/

omit [DecidableEq R] in
/-- The methods of the managers that hand blocks over keep the references. -/
theorem refs_handOver {f : Manager R → List ℕ} {g : Manager R → Manager R}
    (h : ∀ m, m.refs = live (f m) + (g m).refs) :
    kv.refs = live (kv.managers.flatMap f) +
      ({ kv with managers := kv.managers.map g } : KVCacheManager R).refs := by
  have run (ms : List (Manager R)) : (ms.map Manager.refs).sum =
      live (ms.flatMap f) + ((ms.map g).map Manager.refs).sum := by
    induction ms with
    | nil => rfl
    | cons m ms ih =>
      rw [List.map_cons, List.sum_cons, ih, h, List.flatMap_cons, live_append, List.map_cons,
        List.map_cons, List.sum_cons, add_add_add_comm]
  exact run kv.managers

/-- Popping a request hands its blocks to the caller and leaves the manager settled. -/
theorem Settled.popBlocksForFree (h : kv.Settled n enableCaching retained) (r : R) :
    (kv.popBlocksForFree r).2.Settled n enableCaching
      (live (kv.popBlocksForFree r).1 + retained) := by
  obtain ⟨xs, hacc⟩ := h.accounts
  have hrefs : kv.refs = live (kv.popBlocksForFree r).1 + (kv.popBlocksForFree r).2.refs :=
    refs_handOver fun m => Manager.refs_popBlocksForFree
  rw [hrefs, add_comm (live _), add_assoc] at hacc
  refine h.of_forall₂ hacc (P := fun m m' => m' = (m.popBlocksForFree r).2) ?_ ?_ ?_
  · exact List.forall₂_map_right_iff.mpr (List.forall₂_same.mpr fun _ _ => rfl)
  · rintro m _ rfl
    rfl
  · rintro m _ rfl hnone r'
    by_cases hr : r' = r
    · exact hr ▸ Function.update_self ..
    · exact (Manager.popBlocksForFree_frame.partialHitReqs r' hr).trans (hnone r')

omit [DecidableEq R] in
/-- Taking the pending copies hands their blocks to the caller and leaves the manager settled. -/
theorem Settled.takeKvCacheBlockCopies (h : kv.Settled n enableCaching retained) :
    kv.takeKvCacheBlockCopies.2.2.Settled n enableCaching
      (live kv.takeKvCacheBlockCopies.2.1 + retained) := by
  obtain ⟨xs, hacc⟩ := h.accounts
  have hends : kv.takeKvCacheBlockCopies.2.1 = kv.managers.flatMap fun m =>
      m.takePendingCowCopies.1.flatMap fun c => [c.1, c.2] := List.flatMap_assoc
  have hrefs : kv.refs = live kv.takeKvCacheBlockCopies.2.1 +
      kv.takeKvCacheBlockCopies.2.2.refs := by
    rw [hends]
    refine refs_handOver fun m => ?_
    rw [← Manager.copyRefs_eq]
    exact Manager.refs_takePendingCowCopies
  rw [hrefs, add_comm (live _), add_assoc] at hacc
  refine h.of_forall₂ hacc (P := fun m m' => m' = m.takePendingCowCopies.2) ?_ ?_ ?_
  · exact List.forall₂_map_right_iff.mpr (List.forall₂_same.mpr fun _ _ => rfl)
  · rintro m _ rfl
    rfl
  · rintro m _ rfl hnone
    exact hnone

/-- **`free`** does not fail, and leaves no table of the request. -/
theorem Settled.free (h : kv.Settled n enableCaching retained) (r : R) :
    ∃ kv', kv.free r = .ok kv' ∧ kv'.Settled n enableCaching retained ∧
      ∀ m ∈ kv'.managers, m.blocksOf r = [] := by
  obtain ⟨xs, hacc⟩ := h.accounts
  obtain ⟨kv', xs', hrun, hacc', hpost, -⟩ := kv.forManagers_ok (f := fun m p => m.free p r)
    (fun refs xs p => p.Accounts n enableCaching refs xs) (fun _ _ => 0) (fun _ => 0)
    (fun m m' => m' = (m.popBlocksForFree r).2) (fun m _ rest xs p hinv _ => by
      obtain ⟨p', xs', hrun, hacc, hlen, -⟩ := Manager.free_ok (r := r) hinv
      exact ⟨_, xs', p', hrun, hacc, rfl, by omega, fun _ _ => le_rfl⟩)
    hacc (by simp)
  refine ⟨kv', hrun, h.of_forall₂ hacc' hpost ?_ ?_, fun m' hm' => ?_⟩
  · rintro m _ rfl
    rfl
  · rintro m _ rfl hnone r'
    by_cases hr : r' = r
    · exact hr ▸ Function.update_self ..
    · exact (Manager.popBlocksForFree_frame.partialHitReqs r' hr).trans (hnone r')
  · obtain ⟨m, -, rfl⟩ := exists_of_mem_right hpost hm'
    exact Manager.blocksOf_popBlocksForFree

/-- **`remove_skipped_blocks`** does not fail. -/
theorem Settled.removeSkippedBlocks (h : kv.Settled n enableCaching retained) (r : R)
    (processed : ℕ) :
    ∃ kv', kv.removeSkippedBlocks r processed = .ok kv' ∧
      kv'.Settled n enableCaching retained := by
  obtain ⟨xs, hacc⟩ := h.accounts
  obtain ⟨kv', xs', hrun, hacc', -, hpost⟩ := removeSkippedBlocks_ok hacc r processed
  exact ⟨kv', hrun, h.trimmed hacc' hpost⟩

/-- `cache_blocks` changes keys only. -/
theorem Settled.cacheBlocks (h : kv.Settled n enableCaching retained) {c : Config}
    {request : Request R} {numTokens : ℕ} (hrun : kv.cacheBlocks c request numTokens = .ok kv') :
    kv'.Settled n enableCaching retained ∧
      List.Forall₂ (Manager.Caches request.requestId) kv.managers kv'.managers := by
  obtain ⟨xs, hacc⟩ := h.accounts
  obtain ⟨⟨ms, p⟩, hloop, heq⟩ := bind_eq_ok.mp hrun
  obtain rfl := Except.ok.inj heq
  obtain ⟨hacc', hpost⟩ := threadM_keeps Manager.refs Manager.refs
    (fun refs p => p.Accounts n enableCaching refs xs) (Manager.Caches request.requestId)
    (fun _ _ _ _ _ hinv hm => Manager.cacheBlocks_ok hinv hm) hacc hloop
  exact ⟨h.of_forall₂ hacc' hpost (fun _ _ hcaches => hcaches.frame.group)
    fun _ _ hcaches hnone r => (congrFun hcaches.partialHitReqs r).trans (hnone r), hpost⟩

/-- `allocate_slots` reserves slots; the caching of full blocks that follows changes keys
only. -/
theorem Settled.allocateSlots (h : kv.Settled n enableCaching retained) {c : Config}
    {request : Request R} {a : SlotArgs} (hpromise : kv.Promised n enableCaching c request a)
    {allocated : Bool} (hrun : kv.allocateSlots c request a = .ok (allocated, kv')) :
    kv'.Settled n enableCaching retained ∧
      ∃ kv₁, kv.reserveSlots c request a = .ok (allocated, kv₁) ∧
        List.Forall₂ (Manager.Caches request.requestId) kv₁.managers kv'.managers := by
  obtain ⟨granted, kv₁, hreserve, h₁, -⟩ := reserveSlots_ok h hpromise
  have hsame : List.Forall₂ (Manager.Caches request.requestId) kv₁.managers kv₁.managers :=
    List.forall₂_same.mpr fun m _ => .refl _ m
  rw [KVCacheManager.allocateSlots, hreserve] at hrun
  simp only [bind, Except.bind] at hrun
  split at hrun
  · next hrefused =>
    obtain ⟨rfl, rfl⟩ := Prod.mk.inj (Except.ok.inj hrun)
    exact ⟨h₁, kv₁, hrefused ▸ hreserve, hsame⟩
  next hgranted =>
  have hreserve' : kv.reserveSlots c request a = .ok (true, kv₁) := by
    rw [hreserve, Bool.eq_true_of_not_eq_false hgranted]
  split at hrun
  · obtain ⟨rfl, rfl⟩ := Prod.mk.inj (Except.ok.inj hrun)
    exact ⟨h₁, kv₁, hreserve', hsame⟩
  · obtain ⟨kv₂, hcache, hrun⟩ := bind_eq_ok.mp hrun
    obtain ⟨rfl, rfl⟩ := Prod.mk.inj (Except.ok.inj hrun)
    exact ⟨(h₁.cacheBlocks hcache).1, kv₁, hreserve', (h₁.cacheBlocks hcache).2⟩

omit [DecidableEq R] in
/-- The managers stay as they are. -/
theorem Settled.of_pool {p : BlockPool} {retained' : Multiset ℕ}
    (h : kv.Settled n enableCaching retained)
    (hacc : p.Accounts n enableCaching (kv.refs + retained') xs) :
    ({ kv with pool := p } : KVCacheManager R).Settled n enableCaching retained' :=
  ⟨⟨xs, hacc⟩, h.wf, h.partialHitReqs⟩

omit [DecidableEq R] in
/-- Blocks that were taken out of the manager can be freed. -/
theorem Settled.freeBlocks (h : kv.Settled n enableCaching retained) (his : ∀ i ∈ is, i < n)
    (hle : live is ≤ retained) :
    ∃ p, kv.pool.freeBlocks is = .ok p ∧
      ({ kv with pool := p } : KVCacheManager R).Settled n enableCaching (retained - live is) := by
  obtain ⟨xs, hacc⟩ := h.accounts
  rw [← add_tsub_cancel_of_le hle, add_left_comm] at hacc
  obtain ⟨p, xs', hrun, hacc', -, -⟩ := hacc.freeBlocks his
  exact ⟨p, hrun, h.of_pool hacc'⟩

omit [DecidableEq R] in
/-- Evicting blocks raises nothing and leaves the manager settled. -/
theorem Settled.evictBlocks (h : kv.Settled n enableCaching retained) (his : ∀ i ∈ is, i < n) :
    ∃ p, kv.pool.evictBlocks is = .ok p ∧
      ({ kv with pool := p } : KVCacheManager R).Settled n enableCaching retained := by
  obtain ⟨xs, hacc⟩ := h.accounts
  obtain ⟨p, hp⟩ := evictBlocks_ok (hacc.numGpuBlocks.symm ▸ his) hacc.keyed
  have hrun : (Call.evictBlocks is).run kv.pool = .ok ([], p) := by
    rw [Call.run, hp]
    rfl
  exact ⟨p, hp, h.of_pool (hacc.of_sameCounts (.evictBlocks is) (fun _ _ _ => trivial) hrun
    (evictBlocks_keyStep hacc.keyed hp).same fun _ => rfl)⟩

omit [DecidableEq R] in
/-- Resetting the prefix cache leaves the manager settled. -/
theorem Settled.resetPrefixCache (h : kv.Settled n enableCaching retained) :
    ({ kv with pool := kv.pool.resetPrefixCache.2 } : KVCacheManager R).Settled n enableCaching
      retained := by
  obtain ⟨xs, hacc⟩ := h.accounts
  exact h.of_pool (hacc.of_sameCounts .resetPrefixCache (fun _ _ _ => trivial) rfl
    (resetPrefixCache_spec hacc.keyed).2.1 fun _ => rfl)

end KVCacheManager

/-! ### The run system -/

/-- A call of the cache manager, or one of its pool by a taker of blocks. -/
inductive SlotCall (R : Type)
  | allocateSlots (request : Request R) (a : SlotArgs)
  | cacheBlocks (request : Request R) (numComputedTokens : ℕ)
  | removeSkippedBlocks (r : R) (processedComputedTokens : ℕ)
  | free (r : R)
  | popBlocksForFree (r : R)
  | takeKvCacheBlockCopies
  | freeBlocks (orderedBlocks : List ℕ)
  | evictBlocks (blockIds : List ℕ)
  | resetPrefixCache

/-- The managers, and the references that were taken out of them. -/
structure SlotState (R : Type) where
  kv : KVCacheManager R
  retained : Multiset ℕ

namespace SlotCall

variable {R : Type} [DecidableEq R]

/-- The call: the blocks that it hands over, and the managers. -/
def run (c : Config) (kv : KVCacheManager R) :
    SlotCall R → Except Raised (List ℕ × KVCacheManager R)
  | allocateSlots request a => (kv.allocateSlots c request a).map fun r => ([], r.2)
  | cacheBlocks request t =>
    if kv.pool.enableCaching = true then (kv.cacheBlocks c request t).map fun kv => ([], kv)
    else .ok ([], kv)
  | removeSkippedBlocks r t => (kv.removeSkippedBlocks r t).map fun kv => ([], kv)
  | free r => (kv.free r).map fun kv => ([], kv)
  | popBlocksForFree r => .ok (kv.popBlocksForFree r)
  | takeKvCacheBlockCopies => .ok kv.takeKvCacheBlockCopies.2
  | freeBlocks is => (kv.pool.freeBlocks is).map fun p => ([], { kv with pool := p })
  | evictBlocks is => (kv.pool.evictBlocks is).map fun p => ([], { kv with pool := p })
  | resetPrefixCache => .ok ([], { kv with pool := kv.pool.resetPrefixCache.2 })

omit [DecidableEq R] in
/-- What is retained after the call, which has handed over `ids`. -/
def retainedAfter (ids : List ℕ) (retained : Multiset ℕ) : SlotCall R → Multiset ℕ
  | freeBlocks is => retained - live is
  | _ => live ids + retained

/-- What the callers promise. -/
def Promise (n : ℕ) (enableCaching : Bool) (c : Config) (s : SlotState R) : SlotCall R → Prop
  | allocateSlots request a => s.kv.Promised n enableCaching c request a
  | freeBlocks is => (∀ i ∈ is, i < n) ∧ live is ≤ s.retained
  | evictBlocks is => ∀ i ∈ is, i < n
  | _ => True

end SlotCall

variable {R : Type} [DecidableEq R]

/-- The runs of a cache manager with these groups over a pool of `n` blocks. -/
def slotRuns (c : Config) (groups : List Group) (n : ℕ) (enableCaching : Bool)
    (hashBlockSize : ℕ) : System (SlotState R) (SlotCall R) where
  init s := BlockPool.init n enableCaching hashBlockSize = .ok s.kv.pool ∧
    s.kv.managers = groups.map Manager.init ∧ s.retained = 0
  step s call s' := ∃ ids, call.run c s.kv = .ok (ids, s'.kv) ∧
    s'.retained = call.retainedAfter ids s.retained

variable {c : Config} {groups : List Group} {n hashBlockSize : ℕ} {enableCaching : Bool}
  {s s' : SlotState R} {call : SlotCall R}

/-- A fresh manager is settled. -/
theorem settled_init (hgroups : ∀ g ∈ groups, (Manager.init g : Manager R).Wf)
    (h : (slotRuns c groups n enableCaching hashBlockSize).init s) :
    s.kv.Settled n enableCaching s.retained := by
  obtain ⟨hpool, hmanagers, hretained⟩ := h
  obtain ⟨xs, hacc⟩ := Accounts.init hpool
  have hnone (gs : List Group) : ((gs.map Manager.init).map (Manager.refs (R := R))).sum = 0 := by
    induction gs with
    | nil => rfl
    | cons g gs ih =>
      rw [List.map_cons, List.map_cons, List.sum_cons, ih, add_zero]
      rfl
  have hrefs : s.kv.refs + s.retained = 0 := by
    rw [KVCacheManager.refs, hmanagers, hretained, hnone, add_zero]
  refine ⟨⟨xs, by rwa [hrefs]⟩, fun m hm => ?_, fun m hm r => ?_⟩
  · obtain ⟨g, hg, rfl⟩ := List.mem_map.mp (hmanagers ▸ hm)
    exact hgroups g hg
  · obtain ⟨g, -, rfl⟩ := List.mem_map.mp (hmanagers ▸ hm)
    rfl

/-- **The step lemma.** -/
theorem settled_step (hI : s.kv.Settled n enableCaching s.retained)
    (hpromise : call.Promise n enableCaching c s)
    (hstep : (slotRuns c groups n enableCaching hashBlockSize).step s call s') :
    s'.kv.Settled n enableCaching s'.retained := by
  obtain ⟨kv', retained'⟩ := s'
  obtain ⟨ids, hrun, rfl⟩ := hstep
  change call.run c s.kv = .ok (ids, kv') at hrun
  -- no blocks are handed over
  have hsame {retained : Multiset ℕ} (h : kv'.Settled n enableCaching retained) :
      kv'.Settled n enableCaching (live [] + retained) := by
    rwa [live_nil, zero_add]
  cases call with
  | allocateSlots request a =>
    obtain ⟨⟨allocated, _⟩, hcall, heq⟩ := map_eq_ok hrun
    obtain ⟨rfl, rfl⟩ := Prod.mk.inj heq
    exact hsame (hI.allocateSlots hpromise hcall).1
  | cacheBlocks request t =>
    rw [SlotCall.run] at hrun
    split at hrun
    · obtain ⟨_, hcall, heq⟩ := map_eq_ok hrun
      obtain ⟨rfl, rfl⟩ := Prod.mk.inj heq
      exact hsame (hI.cacheBlocks hcall).1
    · obtain ⟨rfl, rfl⟩ := Prod.mk.inj (Except.ok.inj hrun)
      exact hsame hI
  | removeSkippedBlocks r t =>
    obtain ⟨_, hcall, heq⟩ := map_eq_ok hrun
    obtain ⟨rfl, rfl⟩ := Prod.mk.inj heq
    obtain ⟨_, hcall', hI'⟩ := hI.removeSkippedBlocks r t
    obtain rfl := Except.ok.inj (hcall'.symm.trans hcall)
    exact hsame hI'
  | free r =>
    obtain ⟨_, hcall, heq⟩ := map_eq_ok hrun
    obtain ⟨rfl, rfl⟩ := Prod.mk.inj heq
    obtain ⟨_, hcall', hI', -⟩ := hI.free r
    obtain rfl := Except.ok.inj (hcall'.symm.trans hcall)
    exact hsame hI'
  | popBlocksForFree r =>
    obtain ⟨rfl, rfl⟩ := Prod.mk.inj (Except.ok.inj hrun)
    exact hI.popBlocksForFree r
  | takeKvCacheBlockCopies =>
    obtain ⟨rfl, rfl⟩ := Prod.mk.inj (Except.ok.inj hrun)
    exact hI.takeKvCacheBlockCopies
  | freeBlocks is =>
    obtain ⟨_, hcall, heq⟩ := map_eq_ok hrun
    obtain ⟨rfl, rfl⟩ := Prod.mk.inj heq
    obtain ⟨_, hcall', hI'⟩ := hI.freeBlocks hpromise.1 hpromise.2
    obtain rfl := Except.ok.inj (hcall'.symm.trans hcall)
    exact hI'
  | evictBlocks is =>
    obtain ⟨_, hcall, heq⟩ := map_eq_ok hrun
    obtain ⟨rfl, rfl⟩ := Prod.mk.inj heq
    obtain ⟨_, hcall', hI'⟩ := hI.evictBlocks hpromise
    obtain rfl := Except.ok.inj (hcall'.symm.trans hcall)
    exact hsame hI'
  | resetPrefixCache =>
    obtain ⟨rfl, rfl⟩ := Prod.mk.inj (Except.ok.inj hrun)
    exact hsame hI.resetPrefixCache

/-- The manager is settled in every state that promised calls reach. -/
theorem settled_of_reachable (hgroups : ∀ g ∈ groups, (Manager.init g : Manager R).Wf)
    (h : (slotRuns c groups n enableCaching hashBlockSize).ReachableVia
      (fun s call => call.Promise n enableCaching c s) s) :
    s.kv.Settled n enableCaching s.retained :=
  h.invariant (fun _ => settled_init hgroups) fun _ _ _ hI hpromise hstep =>
    settled_step hI hpromise hstep

/-! ### A small run -/

/-- The state after a call, where it succeeds. -/
def SlotState.after (c : Config) (s : SlotState R) (call : SlotCall R) : SlotState R :=
  match call.run c s.kv with
  | .ok r => ⟨r.2, call.retainedAfter r.1 s.retained⟩
  | .error _ => s

/-- A call that does not raise steps to the state after it. -/
theorem SlotState.step_after (h : (call.run c s.kv).isOk = true) :
    (slotRuns c groups n enableCaching hashBlockSize).step s call (s.after c call) := by
  rw [SlotState.after]
  cases hrun : call.run c s.kv with
  | error e =>
    rw [hrun] at h
    cases h
  | ok r => exact ⟨r.1, hrun, rfl⟩

/-- Full attention over blocks of two tokens, and a ring. -/
def smallGroups : List Group :=
  let full : Group :=
    { groupId := 0, blockSize := 2, ring := false, numSkippedTokens := fun _ => 0,
      maxAdmissionBlocks := none, reachableBlockMask := fun _ _ _ => none, partialTail := false,
      useEagle := false }
  [full, { full with groupId := 1, ring := true }]

def smallConfig : Config :=
  { maxModelLen := 8, watermarkBlocks := 0, hybrid := false, partialHashHits := false,
    schedulerBlockSize := 2, numReprefillableTokens := 0 }

def smallSlots : SlotState ℕ := ⟨⟨smallPool.pool, smallGroups.map Manager.init⟩, 0⟩

/-- A request for three tokens, of which two fill a block. -/
def smallRequest (r : ℕ) : Request ℕ :=
  { requestId := r, numTokens := 3, numPromptTokens := 3, numComputedTokens := 0,
    numInFlightTokens := 0, waiting := true, blockHashes := [[7]], sharedPrefixBoundary := 0 }

/-- The request with a hit in the first group. -/
def smallArgs (numNew numHit : ℕ) (hit : List ℕ) : SlotArgs :=
  { numNewTokens := numNew, numNewComputedTokens := numHit,
    newComputedBlocks := fun g => if g = 0 then hit else [], numLookaheadTokens := 0,
    numExternalComputedTokens := 0, delayCacheBlocks := false, fullSequenceMustFit := true,
    reservedBlocks := 0, hasScheduledReqs := false }

/-- A request has come and gone. -/
def servedSlots : SlotState ℕ :=
  (smallSlots.after smallConfig (.allocateSlots (smallRequest 0) (smallArgs 3 0 []))).after
    smallConfig (.free 0)

/-- Both small groups are well formed. -/
theorem smallGroups_wf : ∀ g ∈ smallGroups, (Manager.init g : Manager ℕ).Wf := by
  intro g hg
  obtain rfl | hg := List.mem_cons.mp hg
  · exact ⟨Nat.two_pos, fun t => Nat.zero_le t⟩
  · obtain rfl := List.mem_singleton.mp hg
    exact ⟨Nat.two_pos, fun t => Nat.zero_le t⟩

/-- The manager that has served a request is reached by promised calls. -/
theorem servedSlots_reachable :
    (slotRuns smallConfig smallGroups 5 true 2).ReachableVia
      (fun s call => SlotCall.Promise 5 true smallConfig s call) servedSlots := by
  have hallocate : ((SlotCall.allocateSlots (smallRequest 0) (smallArgs 3 0 [])).run smallConfig
    smallSlots.kv).isOk = true := rfl
  have hfree : ((SlotCall.free 0).run smallConfig (smallSlots.after smallConfig
    (.allocateSlots (smallRequest 0) (smallArgs 3 0 []))).kv).isOk = true := rfl
  refine .step (.step (.init ⟨rfl, rfl, rfl⟩) ?_ (SlotState.step_after hallocate)) ?_
    (SlotState.step_after hfree)
  · exact ⟨.inl (by decide), by decide,
      .inr ⟨fun m _ => ite_self [], rfl, fun m _ _ => Nat.zero_le _⟩⟩
  · trivial

/-! ### The accounts are right, and no call fails -/

/-- What holds of the managers between two calls. -/
structure SlotsSound (n : ℕ) (enableCaching : Bool) (c : Config) (s : SlotState R) : Prop where
  /-- The pool is in a state that a run of its own calls leads to, and the references held are
  those in the tables, in the pending copies and of the takers. -/
  pool : ∃ xs, s.kv.pool.Accounts n enableCaching (s.kv.refs + s.retained) xs
  /-- A reference count counts them. -/
  refCnt : ∀ i, i ≠ 0 → i < n →
    (s.kv.pool.blocks i).refCnt = (s.kv.refs + s.retained).count i
  /-- Free blocks, blocks with a reference and the null block are all the blocks there are. -/
  conserved : s.kv.pool.getNumFreeBlocks +
    ((List.range n).filter fun i => i ≠ 0 ∧ i ∈ s.kv.refs + s.retained).length + 1 = n
  /-- A request is given its slots in every group, real blocks behind its table and its hit,
  or it is refused. -/
  reserveSlots : ∀ request a, s.kv.Promised n enableCaching c request a →
    ∃ allocated kv', s.kv.reserveSlots c request a = .ok (allocated, kv') ∧
      (allocated = true → (∀ m ∈ kv'.managers,
        m.Covers request.requestId (KVCacheManager.numTokensNeedSlot c request a)) ∧
        List.Forall₂ (KVCacheManager.Reserved request.requestId a.newComputedBlocks
          (KVCacheManager.numLocalComputedTokens request a + a.numExternalComputedTokens)
          (KVCacheManager.numTokensNeedSlot c request a)) s.kv.managers kv'.managers)
  removeSkippedBlocks : ∀ r t, ∃ kv', s.kv.removeSkippedBlocks r t = .ok kv'
  free : ∀ r, ∃ kv', s.kv.free r = .ok kv' ∧ ∀ m ∈ kv'.managers, m.blocksOf r = []
  freeBlocks : ∀ is, (∀ i ∈ is, i < n) → live is ≤ s.retained →
    ∃ p, s.kv.pool.freeBlocks is = .ok p
  evictBlocks : ∀ is, (∀ i ∈ is, i < n) → ∃ p, s.kv.pool.evictBlocks is = .ok p
  /-- The prefix cache can be reset when nobody has a block, and only then. -/
  reset : s.kv.pool.resetPrefixCache.1 = true ↔ ∀ i ∈ s.kv.refs + s.retained, i = 0

/-- **The cache manager is sound.** In every state that its calls lead to, whatever requests
come and go, the reference counts are right, no block is lost or used twice, and no call
fails: the estimate made before the first block is taken covers all that the groups take. -/
theorem slots_sound (c : Config) (groups : List Group) (n : ℕ) (enableCaching : Bool)
    (hashBlockSize : ℕ) (hgroups : ∀ g ∈ groups, (Manager.init g : Manager R).Wf)
    {s : SlotState R} (h : (slotRuns c groups n enableCaching hashBlockSize).ReachableVia
      (fun s call => call.Promise n enableCaching c s) s) : SlotsSound n enableCaching c s := by
  have hI := settled_of_reachable hgroups h
  obtain ⟨xs, hacc⟩ := hI.accounts
  obtain ⟨_, ps, hps, hpool, hheld⟩ := hacc.reached
  obtain ⟨_, hsound⟩ := (PoolInv.of_reachable hps).sound
  have hmem (i : ℕ) (hi : i ≠ 0) : ps.held i ≠ 0 ↔ i ∈ s.kv.refs + s.retained := by
    rw [hheld i hi, Multiset.count_ne_zero]
  refine ⟨⟨xs, hacc⟩, fun i hi hn => ?_, ?_, fun request a hpromise => ?_, fun r t => ?_,
    fun r => ?_, fun is his hle => ?_, fun is his => ?_, ?_⟩
  · rw [← hpool, hsound.refCnt i hi hn, hheld i hi]
  · have hfilter : ((List.range n).filter fun i => i ≠ 0 ∧ i ∈ s.kv.refs + s.retained) =
        (List.range n).filter fun i => i ≠ 0 ∧ ps.held i ≠ 0 :=
      List.filter_congr fun i _ => decide_eq_decide.mpr (and_congr_right fun hi => (hmem i hi).symm)
    rw [hfilter, ← hpool]
    exact hsound.conserved
  · obtain ⟨allocated, kv', hrun, -, -, hpost⟩ := KVCacheManager.reserveSlots_ok hI hpromise
    refine ⟨allocated, kv', hrun, fun hallocated => ⟨fun m' hm' => ?_, (hpost hallocated).1⟩⟩
    obtain ⟨m, -, hreserved⟩ := exists_of_mem_right (hpost hallocated).1 hm'
    exact hreserved.covers
  · obtain ⟨kv', hrun, -⟩ := hI.removeSkippedBlocks r t
    exact ⟨kv', hrun⟩
  · obtain ⟨kv', hrun, -, hempty⟩ := hI.free r
    exact ⟨kv', hrun, hempty⟩
  · obtain ⟨p, hrun, -⟩ := hI.freeBlocks his hle
    exact ⟨p, hrun⟩
  · obtain ⟨p, hrun, -⟩ := hI.evictBlocks his
    exact ⟨p, hrun⟩
  · rw [← hpool, hsound.reset]
    constructor
    · intro hnone i hi
      by_contra h0
      exact (hmem i h0).mpr hi (hnone i h0 (hacc.lt i hi))
    · intro hnone i h0 _
      by_contra hne
      exact h0 (hnone i ((hmem i h0).mp hne))

/-- The state in which a request has come and gone meets every clause. -/
theorem slots_sound_served : SlotsSound 5 true smallConfig servedSlots :=
  slots_sound smallConfig smallGroups 5 true 2 smallGroups_wf servedSlots_reachable

/-! ### The hit stays -/

/-- **A reserved hit is kept.** When a request with a prefix hit gets its slots, the hit is in
the tables of all groups, its blocks are referenced, and each block still has the keys under
which it was found: neither the external tokens of one group nor its new blocks have been put
where another group's hit is. In the place of a block in which the hit ends stands a private
copy, a block that was free, with the copy pending. The caching of full blocks at the end of
`allocate_slots` leaves tables, references and pending copies as they are. -/
theorem reserved_hit_kept (c : Config) (groups : List Group) (n : ℕ) (enableCaching : Bool)
    (hashBlockSize : ℕ) (hgroups : ∀ g ∈ groups, (Manager.init g : Manager R).Wf)
    {s : SlotState R} (h : (slotRuns c groups n enableCaching hashBlockSize).ReachableVia
      (fun s call => call.Promise n enableCaching c s) s)
    {request : Request R} {a : SlotArgs} (hpromise : s.kv.Promised n enableCaching c request a)
    (hnew : s.kv.NewRequest n enableCaching request.requestId a.newComputedBlocks
      (KVCacheManager.numLocalComputedTokens request a)) :
    (∀ kv', s.kv.reserveSlots c request a = .ok (true, kv') →
      s.kv.HitKept kv' s.retained request.requestId a.newComputedBlocks
        (KVCacheManager.numLocalComputedTokens request a)
        (KVCacheManager.numLocalComputedTokens request a + a.numExternalComputedTokens)) ∧
    ∀ kv'', s.kv.allocateSlots c request a = .ok (true, kv'') →
      ∃ kv', s.kv.reserveSlots c request a = .ok (true, kv') ∧
        List.Forall₂ (Manager.Caches request.requestId) kv'.managers kv''.managers := by
  have hI := settled_of_reachable hgroups h
  constructor
  · intro kv' hrun
    obtain ⟨_, _, hrun', -, -, hpost⟩ := KVCacheManager.reserveSlots_ok hI hpromise
    obtain ⟨rfl, rfl⟩ := Prod.mk.inj (Except.ok.inj (hrun'.symm.trans hrun))
    exact (hpost rfl).2 hnew
  · intro kv'' hrun
    exact (hI.allocateSlots hpromise hrun).2

/-- The managers after another request has got slots. Its hit is the first token of the block
of the request that has gone. -/
def servedAgain : KVCacheManager ℕ :=
  match servedSlots.kv.reserveSlots smallConfig (smallRequest 1) (smallArgs 2 1 [1]) with
  | .ok r => r.2
  | .error _ => servedSlots.kv

/-- Block `3` is the private copy of block `1`. -/
theorem reserved_hit_kept_served :
    servedAgain.managers.map (fun m => (m.blocksOf 1, m.pendingCowCopies))
      = [([3, 2], [(1, 3)]), ([4], [])] ∧
    servedSlots.kv.HitKept servedAgain 0 1 (smallArgs 2 1 [1]).newComputedBlocks 1 1 := by
  have hnew : servedSlots.kv.NewRequest 5 true 1 (smallArgs 2 1 [1]).newComputedBlocks 1 :=
    ⟨by decide, by decide, fun _ _ => .inl rfl, by decide, by decide⟩
  have hpromise : servedSlots.kv.Promised 5 true smallConfig (smallRequest 1)
    (smallArgs 2 1 [1]) := ⟨.inl (by decide), by decide, .inl hnew⟩
  have hrun : servedSlots.kv.reserveSlots smallConfig (smallRequest 1) (smallArgs 2 1 [1])
    = .ok (true, servedAgain) := rfl
  exact ⟨rfl, (reserved_hit_kept smallConfig smallGroups 5 true 2 smallGroups_wf
    servedSlots_reachable hpromise hnew).1 servedAgain hrun⟩

end Dsv41Overlay.KvCache
