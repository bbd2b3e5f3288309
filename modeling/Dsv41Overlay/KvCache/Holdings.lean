import Dsv41Overlay.KvCache.Accounts
import Dsv41Overlay.KvCache.Manager
import Dsv41Overlay.Lib.Tables
import Mathlib.Tactic.Abel

/-!
# What a manager holds

The references of one manager are the blocks in the tables of its requests and both ends of
its pending copies (`Manager.refs`). Each method of the manager keeps the accounts of the
pool, beside whatever other managers hold, and does not fail where the queue is long enough
for what it takes; it turns to the table of one request only (`Manager.Frame`).
-/

namespace Dsv41Overlay.KvCache

open Fallible BlockPool SwaFinal

namespace Manager

variable {R : Type} [DecidableEq R]

/-- The ends of the pending copies. -/
def copyRefs (copies : List (ℕ × ℕ)) : Multiset ℕ := (copies.map fun c => live [c.1, c.2]).sum

omit [DecidableEq R] in
/-- What a family of tables holds is the sum of what each holds. -/
theorem live_flatMap {α : Type} (f : α → List ℕ) (as : List α) :
    live (as.flatMap f) = (as.map fun a => live (f a)).sum := by
  induction as with
  | nil => rfl
  | cons a as ih => rw [List.flatMap_cons, live_append, ih, List.map_cons, List.sum_cons]

omit [DecidableEq R] in
/-- A pending copy keeps a reference on both of its blocks. -/
theorem copyRefs_eq (copies : List (ℕ × ℕ)) :
    copyRefs copies = live (copies.flatMap fun c => [c.1, c.2]) := (live_flatMap _ _).symm

/-- All references of the manager. -/
def refs (m : Manager R) : Multiset ℕ :=
  Tables.total live m.reqToBlocks + copyRefs m.pendingCowCopies

/-- Those that are not in the table of one request. -/
def refsBut (m : Manager R) (r : R) : Multiset ℕ :=
  Tables.total live (m.reqToBlocks.erase r) + copyRefs m.pendingCowCopies

/-- Nothing but the table of one request and what is noted of it has changed. -/
structure Frame (r : R) (m m' : Manager R) : Prop where
  group : m'.group = m.group
  blocksOf : ∀ r', r' ≠ r → m'.blocksOf r' = m.blocksOf r'
  numCachedBlock : ∀ r', r' ≠ r → m'.numCachedBlock r' = m.numCachedBlock r'
  partialHitReqs : ∀ r', r' ≠ r → m'.partialHitReqs r' = m.partialHitReqs r'

/-- A hit that ends inside a block is noted with that block of the table. -/
structure Ready (m : Manager R) (r : R) : Prop where
  paged : m.partialHitReqs r ≠ none → m.group.ring = false
  source : ∀ idx src, m.partialHitReqs r = some (idx, src) →
    (m.blocksOf r)[idx]? = some src ∧ src ≠ 0

variable {m m' m'' : Manager R} {p p' : BlockPool} {r r' : R} {n k : ℕ} {enableCaching : Bool}
  {rest : Multiset ℕ} {xs blocks : List ℕ}

theorem Frame.refl (r : R) (m : Manager R) : Frame r m m :=
  ⟨rfl, fun _ _ => rfl, fun _ _ => rfl, fun _ _ => rfl⟩

theorem Frame.trans (h : Frame r m m') (h' : Frame r m' m'') : Frame r m m'' :=
  ⟨h'.1.trans h.1, fun r' hr => (h'.2 r' hr).trans (h.2 r' hr),
    fun r' hr => (h'.3 r' hr).trans (h.3 r' hr), fun r' hr => (h'.4 r' hr).trans (h.4 r' hr)⟩

/-- A method takes references for one request: it gives none back, and no block that was
referenced loses a key. -/
structure Takes (r : R) (rest : Multiset ℕ) (m : Manager R) (p : BlockPool) (m' : Manager R)
    (p' : BlockPool) : Prop where
  frame : Frame r m m'
  refs_le : m.refs ≤ m'.refs
  keeps : Keeps (m.refs + rest) p p'

theorem Takes.refl (r : R) (rest : Multiset ℕ) (m : Manager R) (p : BlockPool) :
    Takes r rest m p m p := ⟨.refl r m, le_rfl, .refl _ p⟩

theorem Takes.trans {p'' : BlockPool} (h : Takes r rest m p m' p')
    (h' : Takes r rest m' p' m'' p'') : Takes r rest m p m'' p'' where
  frame := h.frame.trans h'.frame
  refs_le := h.refs_le.trans h'.refs_le
  keeps i hi key hkey :=
    h'.keeps i (Multiset.mem_of_le (add_le_add h.refs_le le_rfl) hi) key (h.keeps i hi key hkey)

/-! ### Tables -/

/-- The references of a manager are those of one request and those of the others. -/
theorem refs_eq (m : Manager R) (r : R) : m.refs = live (m.blocksOf r) + m.refsBut r := by
  rw [refs, Tables.total_eq m.reqToBlocks r [] live_nil, add_assoc]
  rfl

/-- The table that is set is the table that is read. -/
@[simp] theorem blocksOf_setBlocks : (m.setBlocks r blocks).blocksOf r = blocks := by
  rw [blocksOf, setBlocks, AList.lookup_insert, Option.getD_some]

@[simp] theorem group_setBlocks : (m.setBlocks r blocks).group = m.group := rfl

/-- Setting one request's table leaves the others. -/
theorem blocksOf_setBlocks_of_ne (hr : r' ≠ r) :
    (m.setBlocks r blocks).blocksOf r' = m.blocksOf r' := by
  rw [blocksOf, setBlocks, AList.lookup_insert_ne hr]
  rfl

/-- Setting a table is a change to that request alone. -/
theorem setBlocks_frame : Frame r m (m.setBlocks r blocks) :=
  ⟨rfl, fun _ hr => blocksOf_setBlocks_of_ne hr, fun _ _ => rfl, fun _ _ => rfl⟩

/-- After a table was set, its request holds that table. -/
theorem refs_setBlocks : (m.setBlocks r blocks).refs = live blocks + m.refsBut r := by
  rw [refs, setBlocks, Tables.total_insert, add_assoc]
  rfl

@[simp] theorem refsBut_setBlocks : (m.setBlocks r blocks).refsBut r = m.refsBut r := by
  rw [refsBut, setBlocks, Tables.erase_insert]
  rfl

/-- Looking a table up creates it. -/
theorem refs_setBlocks_self : (m.setBlocks r (m.blocksOf r)).refs = m.refs := by
  rw [refs_setBlocks, ← refs_eq]

/-- New blocks at the end of a table. -/
theorem refs_append : (m.setBlocks r (m.blocksOf r ++ blocks)).refs = live blocks + m.refs := by
  rw [refs_setBlocks, live_append, m.refs_eq r, add_assoc, add_left_comm]

/-- A block in a table is referenced, unless it is the null block. -/
theorem mem_refs {i : ℕ} (hi : i ∈ m.blocksOf r) (h0 : i ≠ 0) : i ∈ m.refs := by
  rw [m.refs_eq r, Multiset.mem_add]
  exact .inl (mem_live.mpr ⟨hi, h0⟩)

/-- The private copy of a shared tail is referenced by the table and by the pending copy. -/
theorem two_le_count {idx src i : ℕ} (hat : (m.blocksOf r)[idx]? = some i) (h0 : i ≠ 0)
    (hcopy : (src, i) ∈ m.pendingCowCopies) : 2 ≤ m.refs.count i := by
  have htable : i ∈ live (m.blocksOf r) := mem_live.mpr ⟨List.mem_of_getElem? hat, h0⟩
  have hpending : i ∈ copyRefs m.pendingCowCopies := by
    rw [copyRefs_eq]
    exact mem_live.mpr ⟨List.mem_flatMap.mpr ⟨_, hcopy, by simp⟩, h0⟩
  have hone := Multiset.one_le_count_iff_mem.mpr htable
  have hother := Multiset.one_le_count_iff_mem.mpr hpending
  rw [m.refs_eq r, refsBut, Multiset.count_add, Multiset.count_add]
  omega

/-- A block in a table is a block of the pool. -/
theorem blocksOf_lt (h : p.Accounts n enableCaching (m.refs + rest) xs) {i : ℕ}
    (hi : i ∈ m.blocksOf r) : i < n := by
  by_cases h0 : i = 0
  · exact h0 ▸ h.pos
  · exact h.lt i (Multiset.mem_add.mpr (.inl (mem_refs hi h0)))

/-! ### New blocks -/

/-- `get_new_blocks` for the end of a table. -/
theorem getNewBlocks_append (h : p.Accounts n enableCaching (m.refs + rest) xs)
    (hk : k ≤ xs.length) :
    ∃ p', p.getNewBlocks k = .ok (xs.take k, p') ∧
      p'.Accounts n enableCaching ((m.setBlocks r (m.blocksOf r ++ xs.take k)).refs + rest)
        (xs.drop k) ∧ Takes r rest m p (m.setBlocks r (m.blocksOf r ++ xs.take k)) p' := by
  obtain ⟨p', hp, hacc, hkeeps⟩ := h.getNewBlocks hk
  refine ⟨p', hp, ?_, setBlocks_frame, ?_, hkeeps⟩
  · rwa [refs_append, add_assoc]
  · rw [refs_append]
    exact Multiset.le_add_left ..

/-- New references are to blocks of the queue, at most `k` to each. -/
def Draws (k : ℕ) (xs : List ℕ) (m m' : Manager R) : Prop :=
  ∀ i, m'.refs.count i ≤ m.refs.count i + if i ∈ xs then k else 0

omit [DecidableEq R] in
theorem Draws.refl (k : ℕ) (xs : List ℕ) (m : Manager R) : Draws k xs m m :=
  fun _ => Nat.le_add_right _ _

omit [DecidableEq R] in
/-- More draws from a longer queue are allowed where fewer from a shorter one are. -/
theorem Draws.mono {k' : ℕ} {xs' : List ℕ} (h : Draws k xs m m') (hk : k ≤ k')
    (hxs : ∀ i ∈ xs, i ∈ xs') : Draws k' xs' m m' := by
  intro i
  refine (h i).trans (Nat.add_le_add_left ?_ _)
  by_cases hi : i ∈ xs
  · rw [if_pos hi, if_pos (hxs i hi)]
    exact hk
  · rw [if_neg hi]
    exact Nat.zero_le _

/-- A table gets each new block once. -/
theorem draws_append (h : p.Accounts n enableCaching (m.refs + rest) xs) (k : ℕ) :
    Draws 1 (xs.take k) m (m.setBlocks r (m.blocksOf r ++ xs.take k)) := by
  intro i
  rw [refs_append, Multiset.count_add, Nat.add_comm]
  refine Nat.add_le_add_left ?_ _
  by_cases hi : i ∈ live (xs.take k)
  · obtain ⟨hmem, h0⟩ := mem_live.mp hi
    rw [count_live h0, if_pos hmem]
    exact List.nodup_iff_count_le_one.mp
      (h.counted.queue.nodup.sublist (List.take_sublist k xs)) i
  · rw [Multiset.count_eq_zero.mpr hi]
    exact Nat.zero_le _

/-- What `_claim_ring_block` takes. -/
def ringDemand (m : Manager R) (r : R) : ℕ := if m.blocksOf r ≠ [] then 0 else 1

/-- A ring group claims its one block from the front of the queue, once. -/
theorem claimRingBlock_ok (h : p.Accounts n enableCaching (m.refs + rest) xs)
    (hk : m.ringDemand r ≤ xs.length) :
    ∃ m' p', m.claimRingBlock p r = .ok (m', p') ∧
      p'.Accounts n enableCaching (m'.refs + rest) (xs.drop (m.ringDemand r)) ∧
      Takes r rest m p m' p' ∧ m'.blocksOf r = m.blocksOf r ++ xs.take (m.ringDemand r) ∧
      m'.partialHitReqs = m.partialHitReqs ∧ m'.numCachedBlock = m.numCachedBlock ∧
      m'.pendingCowCopies = m.pendingCowCopies ∧ Draws 1 xs m m' := by
  rw [ringDemand] at hk ⊢
  by_cases hempty : m.blocksOf r = []
  -- the first block of the queue becomes the ring
  · simp only [hempty, ne_eq, not_true_eq_false, if_false, List.nil_append] at hk ⊢
    obtain ⟨p', hp, hacc, htakes⟩ := getNewBlocks_append (r := r) h hk
    have hdraws := draws_append (r := r) h 1
    rw [hempty, List.nil_append] at hacc htakes hdraws
    refine ⟨m.setBlocks r (xs.take 1), p', ?_, hacc, htakes, blocksOf_setBlocks, rfl, rfl, rfl,
      hdraws.mono le_rfl fun _ => List.mem_of_mem_take⟩
    rw [claimRingBlock, if_neg (not_not.mpr hempty), hp]
    rfl
  -- the ring is there already
  · simp only [hempty, ne_eq, not_false_eq_true, if_true, List.take_zero, List.append_nil]
    refine ⟨m, p, ?_, h, .refl r rest m p, rfl, rfl, rfl, rfl, .refl 1 xs m⟩
    rw [claimRingBlock, if_pos hempty]

/-! ### The blocks of a hit -/

/-- The blocks of a hit that are not skipped. -/
def touched (m : Manager R) (hits : List ℕ) (numTotalComputedTokens : ℕ) : List ℕ :=
  if m.group.ring then []
  else hits.drop (m.group.numSkippedTokens numTotalComputedTokens / m.group.blockSize)

/-- The table that `add_local_computed_blocks` makes. -/
def hitTable (m : Manager R) (hits : List ℕ) (numTotalComputedTokens : ℕ) : List ℕ :=
  if m.group.ring then []
  else List.replicate (m.group.numSkippedTokens numTotalComputedTokens / m.group.blockSize) 0
    ++ m.touched hits numTotalComputedTokens

/-- The hit ends inside a block. -/
def endsInside (m : Manager R) (hits : List ℕ) (numLocal numTotal : ℕ) : Prop :=
  m.touched hits numTotal ≠ [] ∧ numLocal % m.group.blockSize ≠ 0

instance (hits : List ℕ) (numLocal numTotal : ℕ) :
    Decidable (m.endsInside hits numLocal numTotal) :=
  inferInstanceAs (Decidable (_ ∧ _))

/-- Where a hit ends inside a block, that block is its last and has been computed. -/
def LastAt (m : Manager R) (hits : List ℕ) (numLocal numTotal : ℕ) : Prop :=
  m.endsInside hits numLocal numTotal → ∃ last, (m.touched hits numTotal).getLast? = some last ∧
    last ≠ 0 ∧ (m.hitTable hits numTotal)[numLocal / m.group.blockSize]? = some last

/-- The manager with a table, a number of cached blocks and a note for one request. -/
def noted (m : Manager R) (r : R) (table : List ℕ) (cached : ℕ) (hit : Option (ℕ × ℕ)) :
    Manager R :=
  { m.setBlocks r table with
    numCachedBlock := Function.update m.numCachedBlock r (some cached)
    partialHitReqs := Function.update m.partialHitReqs r hit }

section Noted

variable {cached : ℕ} {hit : Option (ℕ × ℕ)}

@[simp] theorem group_noted : (m.noted r blocks cached hit).group = m.group := rfl

@[simp] theorem blocksOf_noted : (m.noted r blocks cached hit).blocksOf r = blocks :=
  blocksOf_setBlocks

@[simp] theorem numCachedBlock_noted :
    (m.noted r blocks cached hit).numCachedBlock r = some cached := Function.update_self ..

@[simp] theorem partialHitReqs_noted : (m.noted r blocks cached hit).partialHitReqs r = hit :=
  Function.update_self ..

/-- Noting a hit leaves the request with the table of the hit. -/
theorem refs_noted : (m.noted r blocks cached hit).refs = live blocks + m.refsBut r :=
  refs_setBlocks

/-- Noting a hit is a change to that request alone. -/
theorem noted_frame : Frame r m (m.noted r blocks cached hit) :=
  ⟨rfl, fun _ hr => blocksOf_setBlocks_of_ne hr, fun _ hr => Function.update_of_ne hr ..,
    fun _ hr => Function.update_of_ne hr ..⟩

end Noted

/-- What is noted of a hit: the number of its blocks that are cached, and its last block where
it ends inside. -/
def hitNoted (m : Manager R) (r : R) (hits : List ℕ) (numLocal numTotal : ℕ) : Manager R :=
  if m.endsInside hits numLocal numTotal then
    m.noted r (m.hitTable hits numTotal) (numLocal / m.group.blockSize)
      ((m.touched hits numTotal).getLast?.map fun last => (numLocal / m.group.blockSize, last))
  else m.noted r (m.hitTable hits numTotal) (m.hitTable hits numTotal).length none

/-- Whether the hit ends inside a block or not, it is one note with different values. -/
theorem hitNoted_eq_noted (m : Manager R) (r : R) (hits : List ℕ) (numLocal numTotal : ℕ) :
    ∃ cached hit, m.hitNoted r hits numLocal numTotal =
      m.noted r (m.hitTable hits numTotal) cached hit := by
  rw [hitNoted]
  split
  · exact ⟨_, _, rfl⟩
  · exact ⟨_, _, rfl⟩

/-- For a request without blocks, adding the local hit touches the hit and notes it. -/
theorem addLocalComputedBlocks_eq {hits : List ℕ} {numLocal numExternal : ℕ}
    (hring : m.group.ring = false) (hempty : m.blocksOf r = [])
    (hnone : m.partialHitReqs r = none)
    (hcaching : p.enableCaching = true ∨ m.touched hits (numLocal + numExternal) = [])
    (hp : p.touch (m.touched hits (numLocal + numExternal)) = .ok p') :
    m.addLocalComputedBlocks p r hits numLocal numExternal =
      .ok (m.hitNoted r hits numLocal (numLocal + numExternal), p') := by
  have hring' : ¬m.group.ring = true := by simp [hring]
  have htouched : m.touched hits (numLocal + numExternal) = hits.drop
      (m.group.numSkippedTokens (numLocal + numExternal) / m.group.blockSize) := if_neg hring'
  have htable : m.hitTable hits (numLocal + numExternal) = List.replicate
      (m.group.numSkippedTokens (numLocal + numExternal) / m.group.blockSize) 0 ++
      m.touched hits (numLocal + numExternal) := if_neg hring'
  have hself : Function.update m.partialHitReqs r none = m.partialHitReqs :=
    hnone ▸ Function.update_eq_self ..
  rw [addLocalComputedBlocks, if_neg hring', hitNoted, noted, noted, htable, hself]
  -- both sides are the same note once the cases agree
  simp only [← htouched, endsInside]
  rw [require, if_pos hempty, require, if_pos hcaching]
  simp only [bind, Except.bind, hp]
  split
  · rename_i last hlast
    have hne : m.touched hits (numLocal + numExternal) ≠ [] := by
      rintro hnil
      -- a last block exists only where something was touched
      simp [hnil] at hlast
    by_cases hmod : numLocal % m.group.blockSize = 0
    · simp only [group_setBlocks, hmod, ne_eq, not_true_eq_false, and_false, if_false]
      rfl
    · simp only [group_setBlocks, hmod, hne, hlast, ne_eq, not_false_eq_true, and_self, if_true]
      rfl
  · rename_i hlast
    have hnil := List.getLast?_eq_none_iff.mp hlast
    simp only [hnil, ne_eq, not_true_eq_false, false_and, if_false]
    rfl

/-- **`add_local_computed_blocks`** takes references to the blocks of a hit that are not
skipped. -/
theorem addLocalComputedBlocks_ok {hits : List ℕ} {numLocal numExternal : ℕ}
    (h : p.Accounts n enableCaching (m.refs + rest) xs) (hempty : m.blocksOf r = [])
    (hnone : m.partialHitReqs r = none) (hhits : ∀ i ∈ hits, i < n)
    (hcaching : enableCaching = true ∨ hits = [])
    (hlast : m.LastAt hits numLocal (numLocal + numExternal)) :
    ∃ m' p', m.addLocalComputedBlocks p r hits numLocal numExternal = .ok (m', p') ∧
      p'.Accounts n enableCaching (m'.refs + rest)
        (xs.diff (m.touched hits (numLocal + numExternal))) ∧
      p.SameKeys p' ∧ Takes r rest m p m' p' ∧ m'.Ready r ∧
      m'.blocksOf r = m.hitTable hits (numLocal + numExternal) ∧
      (m'.partialHitReqs r).map Prod.fst = (if m.endsInside hits numLocal (numLocal + numExternal)
        then some (numLocal / m.group.blockSize) else none) ∧
      m'.pendingCowCopies = m.pendingCowCopies := by
  cases hring : m.group.ring with
  | true =>
    -- a ring group leaves everything as it is
    have htouched : m.touched hits (numLocal + numExternal) = [] := if_pos hring
    refine ⟨m, p, if_pos hring, ?_, .refl p, .refl r rest m p, ⟨fun hne => absurd hnone hne,
      fun idx src hsome => ?_⟩, ?_, ?_, rfl⟩
    · rwa [htouched, List.diff_nil]
    · rw [hnone] at hsome
      cases hsome
    · rw [hempty, hitTable, if_pos hring]
    · have hnot : ¬m.endsInside hits numLocal (numLocal + numExternal) := fun h => h.1 htouched
      rw [hnone, if_neg hnot]
      rfl
  | false =>
    have hring' : ¬m.group.ring = true := by simp [hring]
    have htouched : m.touched hits (numLocal + numExternal) = hits.drop
        (m.group.numSkippedTokens (numLocal + numExternal) / m.group.blockSize) := if_neg hring'
    have hlt : ∀ i ∈ m.touched hits (numLocal + numExternal), i < n := by
      rw [htouched]
      exact fun i hi => hhits i (List.mem_of_mem_drop hi)
    have hcaching' : p.enableCaching = true ∨ m.touched hits (numLocal + numExternal) = [] := by
      rw [h.caching, htouched]
      exact hcaching.imp_right fun hnil => by rw [hnil, List.drop_nil]
    obtain ⟨p', hp, hacc, hkeys⟩ := h.touch hlt
    -- whatever is noted, the references are those of the table
    have hrefs : (m.hitNoted r hits numLocal (numLocal + numExternal)).refs
        = live (m.touched hits (numLocal + numExternal)) + m.refs := by
      obtain ⟨cached, hit, hnoted⟩ := m.hitNoted_eq_noted r hits numLocal (numLocal + numExternal)
      have hlive : live (m.hitTable hits (numLocal + numExternal))
          = live (m.touched hits (numLocal + numExternal)) := by
        rw [hitTable, if_neg hring', live_append, live_replicate, zero_add]
      rw [hnoted, refs_noted, hlive, m.refs_eq r, hempty, live_nil, zero_add]
    have hkeeps : Keeps (m.refs + rest) p p' := fun i _ key hkey => hkeys.hasKey_iff.mpr hkey
    -- the table, the note and the keys of the touched blocks
    refine ⟨m.hitNoted r hits numLocal (numLocal + numExternal), p',
      addLocalComputedBlocks_eq hring hempty hnone hcaching' hp, ?_, hkeys,
      ⟨?_, hrefs ▸ Multiset.le_add_left .., hkeeps⟩, ?_⟩
    · rwa [hrefs, add_assoc]
    · obtain ⟨cached, hit, hnoted⟩ := m.hitNoted_eq_noted r hits numLocal (numLocal + numExternal)
      exact hnoted ▸ noted_frame
    · rw [hitNoted]
      by_cases hends : m.endsInside hits numLocal (numLocal + numExternal)
      -- the last block of the hit is the one that is noted
      · obtain ⟨last, hgetLast, h0, hat⟩ := hlast hends
        rw [if_pos hends, hgetLast]
        refine ⟨⟨fun _ => hring, fun idx src hsome => ?_⟩, blocksOf_noted, ?_, rfl⟩
        · rw [partialHitReqs_noted] at hsome
          obtain ⟨rfl, rfl⟩ := Prod.mk.inj (Option.some.inj hsome)
          exact ⟨by rwa [blocksOf_noted], h0⟩
        · rw [partialHitReqs_noted, if_pos hends]
          rfl
      -- otherwise nothing is noted
      · rw [if_neg hends]
        refine ⟨⟨fun hne => absurd partialHitReqs_noted hne, fun idx src hsome => ?_⟩,
          blocksOf_noted, ?_, rfl⟩
        · rw [partialHitReqs_noted] at hsome
          cases hsome
        · rw [partialHitReqs_noted, if_neg hends]
          rfl

/-! ### Blocks for external tokens -/

/-- The external tokens that are not skipped. -/
def externalTokens (m : Manager R) (numLocal numExternal : ℕ) : ℕ :=
  if 0 < m.group.numSkippedTokens (numLocal + numExternal) then
    min (numLocal + numExternal - m.group.numSkippedTokens (numLocal + numExternal)) numExternal
  else numExternal

/-- What `allocate_external_computed_blocks` takes. -/
def externalDemand (m : Manager R) (r : R) (numLocal numExternal : ℕ) : ℕ :=
  if m.group.ring then m.ringDemand r
  else if m.externalTokens numLocal numExternal = 0 then 0
  else cdiv (numLocal + numExternal) m.group.blockSize - (m.blocksOf r).length

/-- **`allocate_external_computed_blocks`** appends new blocks to the table. -/
theorem allocateExternalComputedBlocks_ok {numLocal numExternal : ℕ}
    (h : p.Accounts n enableCaching (m.refs + rest) xs)
    (hk : m.externalDemand r numLocal numExternal ≤ xs.length) :
    ∃ m' p', m.allocateExternalComputedBlocks p r numLocal numExternal = .ok (m', p') ∧
      p'.Accounts n enableCaching (m'.refs + rest)
        (xs.drop (m.externalDemand r numLocal numExternal)) ∧ Takes r rest m p m' p' ∧
      m'.blocksOf r = m.blocksOf r ++ xs.take (m.externalDemand r numLocal numExternal) ∧
      m'.partialHitReqs = m.partialHitReqs ∧ m'.numCachedBlock = m.numCachedBlock ∧
      m'.pendingCowCopies = m.pendingCowCopies := by
  rw [externalDemand] at hk ⊢
  rw [allocateExternalComputedBlocks]
  by_cases hring : m.group.ring = true
  -- a ring group claims its block here
  · rw [if_pos hring] at hk
    rw [if_pos hring, if_pos hring]
    obtain ⟨m', p', hp, hacc, htakes, hblocks, hhit, hcached, hcopies, -⟩ := claimRingBlock_ok h hk
    exact ⟨m', p', hp, hacc, htakes, hblocks, hhit, hcached, hcopies⟩
  · rw [if_neg hring] at hk
    rw [if_neg hring, if_neg hring]
    -- the tokens may be covered by the hit
    by_cases hzero : m.externalTokens numLocal numExternal = 0
    -- then no block is taken
    · rw [if_pos hzero]
      refine ⟨m, p, if_pos hzero, h, .refl r rest m p, ?_, rfl, rfl, rfl⟩
      rw [List.take_zero, List.append_nil]
    · rw [if_neg hzero] at hk ⊢
      obtain ⟨p', hp, hacc, htakes⟩ := getNewBlocks_append (r := r) h hk
      refine ⟨_, p', (if_neg hzero).trans ?_, hacc, htakes, blocksOf_setBlocks, rfl, rfl, rfl⟩
      simp only [hp, bind, Except.bind, pure, Except.pure]

/-! ### New blocks for tokens -/

/-- A private copy of a shared tail takes one block. -/
def cowDemand (m : Manager R) (r : R) : ℕ := if m.partialHitReqs r = none then 0 else 1

/-- What `allocate_new_blocks` takes: that copy, and blocks for the tokens that have none. -/
def demand (m : Manager R) (r : R) (numTokens : ℕ) : ℕ :=
  if m.group.ring then m.ringDemand r
  else m.cowDemand r + (cdiv numTokens m.group.blockSize - (m.blocksOf r).length)

/-- The table with the private copy in place of the shared tail, where `xs` is the queue. -/
def redirected (m : Manager R) (r : R) (xs : List ℕ) : List ℕ :=
  match m.partialHitReqs r with
  | none => m.blocksOf r
  | some (idx, _) => (m.blocksOf r).set idx (xs.headD 0)

/-- The copy to make of the shared tail, where `xs` is the queue. -/
def redirectCopies (m : Manager R) (r : R) (xs : List ℕ) : List (ℕ × ℕ) :=
  match m.partialHitReqs r with
  | none => []
  | some (_, src) => [(src, xs.headD 0)]

/-- Redirecting the copied block keeps the length of the table. -/
theorem length_redirected : (m.redirected r xs).length = (m.blocksOf r).length := by
  rw [redirected]
  split
  · rfl
  · exact List.length_set

/-- One block of a table gives way to another. -/
theorem live_set {idx src dst : ℕ} (hat : blocks[idx]? = some src) (hsrc : src ≠ 0)
    (hdst : dst ≠ 0) : live (blocks.set idx dst) + live [src] = live blocks + live [dst] := by
  obtain ⟨hidx, hget⟩ := List.getElem?_eq_some_iff.mp hat
  -- the table around the place that changes
  have hsplit : blocks = blocks.take idx ++ src :: blocks.drop (idx + 1) := by
    rw [← hget, List.getElem_cons_drop, List.take_append_drop]
  have hset : blocks.set idx dst = blocks.take idx ++ dst :: blocks.drop (idx + 1) :=
    List.set_eq_take_append_cons_drop.trans (if_pos hidx)
  rw [hset]
  conv_rhs => rw [hsplit]
  rw [live_append, live_append, live_cons hsrc, live_cons hdst, live_cons hsrc, live_cons hdst,
    live_nil, ← Multiset.singleton_add dst, ← Multiset.singleton_add src,
    ← Multiset.singleton_add src, ← Multiset.singleton_add dst]
  abel

/-- A shared tail gets a private copy: the table has the copy, and both blocks are kept until
it has been made. -/
theorem redirectPartialHit_ok (h : p.Accounts n enableCaching (m.refs + rest) xs)
    (hready : m.Ready r) (hk : m.cowDemand r ≤ xs.length) :
    ∃ ids m' p', m.redirectPartialHit p r = .ok (ids, m', p') ∧
      p'.Accounts n enableCaching (m'.refs + rest) (xs.drop (m.cowDemand r)) ∧
      Takes r rest m p m' p' ∧ m'.partialHitReqs r = none ∧
      m'.numCachedBlock = m.numCachedBlock ∧ m'.blocksOf r = m.redirected r xs ∧
      m'.pendingCowCopies = m.pendingCowCopies ++ m.redirectCopies r xs ∧
      Draws 2 (xs.take (m.cowDemand r)) m m' := by
  rw [cowDemand] at hk ⊢
  rw [redirected, redirectCopies]
  cases hhit : m.partialHitReqs r with
  -- no partial hit, nothing to copy
  | none =>
    refine ⟨[], m, p, ?_, h, .refl r rest m p, hhit, rfl, rfl, (List.append_nil _).symm,
      .refl 2 _ m⟩
    rw [redirectPartialHit, hhit]
  | some note =>
    obtain ⟨idx, src⟩ := note
    rw [hhit] at hk
    simp only [reduceCtorEq, if_false] at hk ⊢
    obtain ⟨hat, hsrc⟩ := hready.source idx src hhit
    obtain ⟨cow, xs', rfl⟩ : ∃ cow xs', xs = cow :: xs' :=
      List.exists_cons_of_ne_nil (List.ne_nil_of_length_pos hk)
    obtain ⟨hcow, -, -⟩ := h.not_mem List.mem_cons_self
    obtain ⟨p₁, hp₁, hacc₁, hkeeps₁⟩ := h.getNewBlocks hk
    -- the place of the source lies in the table
    have hlen : idx < (m.blocksOf r).length := (List.getElem?_eq_some_iff.mp hat).1
    have hmem : src ∈ m.refs := mem_refs (List.mem_of_getElem? hat) hsrc
    -- the source is referenced by the table
    have hsource : (p₁.blocks src).isNull = false ∧ 0 < (p₁.blocks src).refCnt := by
      have hin : src ∈ live (List.take 1 (cow :: xs')) + (m.refs + rest) := by
        simp [hmem]
      have hpos := Multiset.count_pos.mpr hin
      rw [hacc₁.counted.isNull,
        hacc₁.counted.refCnt src hsrc (hacc₁.numGpuBlocks.symm ▸ hacc₁.lt src hin)]
      exact ⟨decide_eq_false hsrc, by omega⟩
    obtain ⟨m', hm'⟩ : ∃ m' : Manager R, m' =
        { m.setBlocks r ((m.blocksOf r).set idx cow) with
          partialHitReqs := Function.update m.partialHitReqs r none
          pendingCowCopies := m.pendingCowCopies ++ [(src, cow)] } := ⟨_, rfl⟩
    -- the copy is referenced by the table and by the pending pair
    have hrefs : m'.refs = cow ::ₘ (live [cow] + m.refs) := by
      have hcopies : copyRefs (m.pendingCowCopies ++ [(src, cow)])
          = copyRefs m.pendingCowCopies + (live [src] + live [cow]) := by
        rw [copyRefs, List.map_append, List.sum_append, List.map_singleton, List.sum_singleton,
          ← live_append]
        rfl
      have hm'refs : m'.refs = live ((m.blocksOf r).set idx cow)
          + Tables.total live (m.reqToBlocks.erase r)
          + copyRefs (m.pendingCowCopies ++ [(src, cow)]) := by
        rw [hm', refs, ← Tables.total_insert]
        rfl
      have hone : cow ::ₘ (live [cow] + m.refs) = live [cow] + (live [cow] + m.refs) := by
        rw [live_cons hcow, live_nil]
        rfl
      rw [hm'refs, hcopies, hone, m.refs_eq r, refsBut]
      calc live ((m.blocksOf r).set idx cow) + Tables.total live (m.reqToBlocks.erase r)
            + (copyRefs m.pendingCowCopies + (live [src] + live [cow]))
          = live ((m.blocksOf r).set idx cow) + live [src]
            + (live [cow] + (Tables.total live (m.reqToBlocks.erase r)
              + copyRefs m.pendingCowCopies)) := by abel
        _ = live (m.blocksOf r) + live [cow]
            + (live [cow] + (Tables.total live (m.reqToBlocks.erase r)
              + copyRefs m.pendingCowCopies)) := by rw [live_set hat hsrc hcow]
        _ = live [cow] + (live [cow] + (live (m.blocksOf r)
            + (Tables.total live (m.reqToBlocks.erase r) + copyRefs m.pendingCowCopies))) := by
          abel
    have hin : cow ∈ live (List.take 1 (cow :: xs')) + (m.refs + rest) := by
      simp [mem_live, hcow]
    refine ⟨[cow], m', p₁.modify cow fun b => b.addRef 1, ?_, ?_, ⟨?_, ?_, ?_⟩, ?_, ?_, ?_, ?_, ?_⟩
    · rw [redirectPartialHit, hhit]
      have happly : applyCow { m with partialHitReqs := Function.update m.partialHitReqs r none }
          p₁ r idx src cow = .ok (m', p₁.modify cow fun b => b.addRef 1) := by
        have hblocks : blocksOf { m with
            partialHitReqs := Function.update m.partialHitReqs r none } r = m.blocksOf r := rfl
        rw [applyCow, hblocks, require, if_pos hlen, require, if_pos hat, require,
          if_pos hsource, hm']
        rfl
      simp only [hp₁, List.take_succ_cons, List.take_zero, bind, Except.bind, happly, pure,
        Except.pure]
    -- one reference more for the copy
    · have hacc := hacc₁.addRef hin hcow
      rw [hrefs, Multiset.cons_add, add_assoc]
      exact hacc
    · rw [hm']
      exact ⟨rfl, fun _ hr => blocksOf_setBlocks_of_ne hr, fun _ _ => rfl,
        fun _ hr => Function.update_of_ne hr ..⟩
    · rw [hrefs]
      exact (Multiset.le_add_left ..).trans (Multiset.le_cons_self ..)
    · intro i hi key hkey
      exact addRef_sameKeys.hasKey_iff.mpr (hkeeps₁ i hi key hkey)
    · rw [hm']
      exact Function.update_self ..
    · rw [hm']
      rfl
    · rw [hm']
      exact blocksOf_setBlocks
    · rw [hm']
      rfl
    · -- the copy is referenced by the table and by the pending copy
      intro i
      rw [hrefs, live_cons hcow, live_nil, Multiset.cons_add, zero_add, Multiset.count_cons,
        Multiset.count_cons, List.take_succ_cons, List.take_zero]
      by_cases hi : i = cow
      · rw [if_pos hi, if_pos (List.mem_singleton.mpr hi)]
      · rw [if_neg hi, if_neg (mt List.mem_singleton.mp hi)]

/-- **`allocate_new_blocks`** gives the request slots for `numTokens` tokens. -/
theorem allocateNewBlocks_ok {numTokens : ℕ}
    (h : p.Accounts n enableCaching (m.refs + rest) xs) (hready : m.Ready r)
    (hk : m.demand r numTokens ≤ xs.length) :
    ∃ ids m' p', m.allocateNewBlocks p r numTokens = .ok (ids, m', p') ∧
      p'.Accounts n enableCaching (m'.refs + rest) (xs.drop (m.demand r numTokens)) ∧
      Takes r rest m p m' p' ∧ m'.partialHitReqs r = none ∧
      m'.numCachedBlock = m.numCachedBlock ∧ m'.blocksOf r = m.redirected r xs
        ++ (xs.take (m.demand r numTokens)).drop (m.cowDemand r) ∧
      m'.pendingCowCopies = m.pendingCowCopies ++ m.redirectCopies r xs ∧ Draws 2 xs m m' := by
  rw [demand] at hk ⊢
  rw [allocateNewBlocks]
  cases hring : m.group.ring with
  -- a ring group claims its block, if it has none
  | true =>
    simp only [hring, if_true] at hk ⊢
    have hnone : m.partialHitReqs r = none := by
      by_contra hne
      exact absurd (hready.paged hne) (by simp [hring])
    obtain ⟨m', p', hp, hacc, htakes, hblocks, hhit, hcached, hcopies, hdraws⟩ :=
      claimRingBlock_ok h hk
    refine ⟨if m.blocksOf r ≠ [] then [] else m'.blocksOf r, m', p', ?_, hacc, htakes, ?_, hcached,
      ?_, ?_, hdraws.mono (Nat.le_succ 1) fun _ => id⟩
    · simp only [hp, bind, Except.bind, pure, Except.pure]
    · rw [hhit, hnone]
    · rw [hblocks, redirected, cowDemand, hnone, if_pos rfl, List.drop_zero]
    · rw [hcopies, redirectCopies, hnone, List.append_nil]
  -- a paged group copies first and appends then
  | false =>
    simp only [hring, Bool.false_eq_true, if_false] at hk ⊢
    obtain ⟨ids, m₁, p₁, hp₁, hacc₁, htakes₁, hhit₁, hcached₁, hblocks₁, hcopies₁, hdraws₁⟩ :=
      redirectPartialHit_ok h hready ((Nat.le_add_right _ _).trans hk)
    have hlen : (m₁.blocksOf r).length = (m.blocksOf r).length := by
      rw [hblocks₁, length_redirected]
    have hsize : m₁.group.blockSize = m.group.blockSize := by rw [htakes₁.frame.group]
    obtain ⟨k, hkdef⟩ : ∃ k, k = cdiv numTokens m.group.blockSize - (m.blocksOf r).length :=
      ⟨_, rfl⟩
    simp only [hp₁, bind, Except.bind, hlen, hsize, ← hkdef, List.drop_take,
      Nat.add_sub_cancel_left] at hk ⊢
    -- the copy may have been all
    by_cases hzero : k = 0
    · subst hzero
      refine ⟨ids, m₁.setBlocks r (m₁.blocksOf r), p₁, if_pos rfl, ?_,
        htakes₁.trans ⟨setBlocks_frame, refs_setBlocks_self.ge, .refl _ _⟩, hhit₁, hcached₁, ?_,
        hcopies₁, fun i => ?_⟩
      · rw [refs_setBlocks_self]
        exact hacc₁
      · rw [blocksOf_setBlocks, hblocks₁, List.take_zero, List.append_nil]
      · rw [refs_setBlocks_self]
        exact hdraws₁.mono le_rfl (fun _ => List.mem_of_mem_take) i
    -- what is left of the queue serves the rest
    · have hk₁ : k ≤ (xs.drop (m.cowDemand r)).length := by
        rw [List.length_drop]
        omega
      obtain ⟨p₂, hp₂, hacc₂, htakes₂⟩ := getNewBlocks_append (r := r) hacc₁ hk₁
      refine ⟨ids ++ (xs.drop (m.cowDemand r)).take k,
        m₁.setBlocks r (m₁.blocksOf r ++ (xs.drop (m.cowDemand r)).take k), p₂,
        (if_neg hzero).trans ?_, ?_, htakes₁.trans htakes₂, hhit₁, hcached₁, ?_, hcopies₁,
        fun i => ?_⟩
      · simp only [hp₂]
        rfl
      · rwa [List.drop_drop] at hacc₂
      · rw [blocksOf_setBlocks, hblocks₁]
      · -- the copy and the new blocks are different blocks of the queue
        have hfirst := hdraws₁ i
        have hsecond := draws_append (r := r) hacc₁ k i
        have hdisjoint : i ∈ xs.take (m.cowDemand r) → i ∉ (xs.drop (m.cowDemand r)).take k :=
          fun htake hdrop => List.disjoint_take_drop h.counted.queue.nodup le_rfl htake
            (List.mem_of_mem_take hdrop)
        by_cases htake : i ∈ xs.take (m.cowDemand r)
        · rw [if_neg (hdisjoint htake)] at hsecond
          rw [if_pos htake] at hfirst
          rw [if_pos (List.mem_of_mem_take htake)]
          omega
        · rw [if_neg htake] at hfirst
          by_cases hdrop : i ∈ (xs.drop (m.cowDemand r)).take k
          · rw [if_pos hdrop] at hsecond
            rw [if_pos (List.mem_of_mem_drop (List.mem_of_mem_take hdrop))]
            omega
          · rw [if_neg hdrop] at hsecond
            omega

/-! ### Giving blocks back -/

/-- Blocks of a table before a place give way to null blocks, others stay. -/
structure Removed (first last : ℕ) (blocks blocks' : List ℕ) : Prop where
  length : blocks'.length = blocks.length
  get : ∀ j, blocks'[j]? = blocks[j]? ∨ first ≤ j ∧ j < last ∧ blocks'[j]? = some 0

/-- The loop frees what it takes out of the table. -/
theorem removeLoop_spec (first last : ℕ) (blocks : List ℕ) :
    live blocks = live (removeLoop first last blocks).1 + live (removeLoop first last blocks).2 ∧
      Removed first last blocks (removeLoop first last blocks).2 ∧
      ∀ i ∈ (removeLoop first last blocks).1, i ≠ 0 ∧ i ∈ blocks := by
  -- where the loop stops it has changed nothing
  have hstop (blocks : List ℕ) (last : ℕ) : live blocks = live [] + live blocks ∧
      Removed first last blocks blocks ∧ ∀ i ∈ ([] : List ℕ), i ≠ 0 ∧ i ∈ blocks :=
    ⟨by simp, ⟨rfl, fun _ => .inl rfl⟩, by simp⟩
  induction last generalizing blocks with
  | zero => exact hstop blocks 0
  | succ i ih =>
    -- the loop runs down from the last block
    rw [removeLoop]
    split
    · rename_i hfirst
      cases hget : blocks[i]? with
      | none => exact hstop blocks (i + 1)
      | some b =>
        by_cases hb : b = 0
        · simp only [if_pos hb]
          exact hstop blocks (i + 1)
        · simp only [if_neg hb]
          obtain ⟨hlive, hremoved, hmem⟩ := ih (blocks.set i 0)
          have hi : i < blocks.length := (List.getElem?_eq_some_iff.mp hget).1
          refine ⟨?_, ⟨hremoved.length.trans List.length_set, fun j => ?_⟩, fun j hj => ?_⟩
          · -- the null block in its place is not counted
            have hset : live blocks = b ::ₘ live (blocks.set i 0) := by
              obtain ⟨_, hat⟩ := List.getElem?_eq_some_iff.mp hget
              have hsplit : blocks = blocks.take i ++ b :: blocks.drop (i + 1) := by
                rw [← hat, List.getElem_cons_drop, List.take_append_drop]
              have hafter : blocks.set i 0 = blocks.take i ++ 0 :: blocks.drop (i + 1) :=
                List.set_eq_take_append_cons_drop.trans (if_pos hi)
              have hnull : live (0 :: blocks.drop (i + 1)) = live (blocks.drop (i + 1)) := rfl
              rw [hafter, live_append, hnull]
              conv_lhs => rw [hsplit]
              rw [live_append, live_cons hb, Multiset.add_cons]
            rw [live_cons hb, Multiset.cons_add, ← hlive]
            exact hset
          -- the place of this step, or one of the steps below it
          · by_cases hji : j = i
            · subst hji
              obtain heq | ⟨-, hlt, -⟩ := hremoved.get j
              · rw [heq, List.getElem?_set_self hi]
                exact .inr ⟨hfirst, by omega, rfl⟩
              · omega
            · obtain heq | ⟨hge, hlt, heq⟩ := hremoved.get j
              · rw [heq, List.getElem?_set_ne (Ne.symm hji)]
                exact .inl rfl
              · exact .inr ⟨hge, by omega, heq⟩
          · obtain rfl | hj := List.mem_cons.mp hj
            · exact ⟨hb, List.mem_of_getElem? hget⟩
            · obtain ⟨h0, hin⟩ := hmem j hj
              exact ⟨h0, (List.mem_or_eq_of_mem_set hin).resolve_right h0⟩
    · exact hstop blocks (i + 1)

/-- Null blocks take the place of those in a range of the table. -/
theorem removeBlocksInRange_ok (h : p.Accounts n enableCaching (m.refs + rest) xs) (r : R)
    (first last : ℕ) :
    ∃ m' p' xs', m.removeBlocksInRange p r first last = .ok (m', p') ∧
      p'.Accounts n enableCaching (m'.refs + rest) xs' ∧ xs.length ≤ xs'.length ∧
      p.SameKeys p' ∧ Frame r m m' ∧ m'.partialHitReqs = m.partialHitReqs ∧
      m'.numCachedBlock = m.numCachedBlock ∧ m'.pendingCowCopies = m.pendingCowCopies ∧
      m'.refsBut r = m.refsBut r ∧ Removed first last (m.blocksOf r) (m'.blocksOf r) := by
  -- without a table, or without a range, nothing happens
  have hstay : ∃ m' p' xs', Except.ok (m, p) = (.ok (m', p') : Except Raised _) ∧
      p'.Accounts n enableCaching (m'.refs + rest) xs' ∧ xs.length ≤ xs'.length ∧
      p.SameKeys p' ∧ Frame r m m' ∧ m'.partialHitReqs = m.partialHitReqs ∧
      m'.numCachedBlock = m.numCachedBlock ∧ m'.pendingCowCopies = m.pendingCowCopies ∧
      m'.refsBut r = m.refsBut r ∧ Removed first last (m.blocksOf r) (m'.blocksOf r) :=
    ⟨m, p, xs, rfl, h, le_rfl, .refl p, .refl r m, rfl, rfl, rfl, rfl, rfl, fun _ => .inl rfl⟩
  rw [removeBlocksInRange]
  cases hlookup : m.reqToBlocks.lookup r with
  | none => exact hstay
  | some blocks =>
    have hblocks : m.blocksOf r = blocks := by rw [blocksOf, hlookup, Option.getD_some]
    by_cases hrange : last ≤ first
    · simp only [if_pos hrange]
      exact hstay
    · simp only [if_neg hrange]
      obtain ⟨hlive, hremoved, hmem⟩ := removeLoop_spec first (min last blocks.length) blocks
      obtain ⟨freed, hfreed⟩ : ∃ freed,
        freed = (removeLoop first (min last blocks.length) blocks).1 := ⟨_, rfl⟩
      obtain ⟨table, htable⟩ : ∃ table,
        table = (removeLoop first (min last blocks.length) blocks).2 := ⟨_, rfl⟩
      have hpair : removeLoop first (min last blocks.length) blocks = (freed, table) := by
        rw [hfreed, htable]
      simp only [hpair] at hlive hremoved hmem ⊢
      -- the freed blocks leave the accounts of this request
      have hrefs : m.refs = live freed + (m.setBlocks r table).refs := by
        rw [m.refs_eq r, hblocks, hlive, refs_setBlocks, add_assoc]
      have hlt : ∀ i ∈ freed, i < n := fun i hi =>
        blocksOf_lt (r := r) h (hblocks.symm ▸ (hmem i hi).2)
      have hremoved' : Removed first last (m.blocksOf r) ((m.setBlocks r table).blocksOf r) := by
        rw [hblocks, blocksOf_setBlocks]
        refine ⟨hremoved.length, fun j => (hremoved.get j).imp_right ?_⟩
        rintro ⟨hge, hlt, heq⟩
        exact ⟨hge, by omega, heq⟩
      rw [hrefs, add_assoc] at h
      obtain ⟨p', xs', hp, hacc, hlen, hkeys⟩ := h.freeBlocks hlt
      -- the pool is asked only if something is freed
      by_cases hnil : freed = []
      · subst hnil
        rw [live_nil, zero_add] at h
        exact ⟨m.setBlocks r table, p, xs, rfl, h, le_rfl, .refl p, setBlocks_frame, rfl, rfl,
          rfl, refsBut_setBlocks, hremoved'⟩
      · refine ⟨m.setBlocks r table, p', xs', ?_, hacc, hlen, hkeys, setBlocks_frame, rfl, rfl,
          rfl, refsBut_setBlocks, hremoved'⟩
        simp only [if_neg hnil, hp, bind, Except.bind, pure, Except.pure]

/-- **`remove_skipped_blocks`** gives back blocks of skipped tokens. -/
theorem removeSkippedBlocks_ok (h : p.Accounts n enableCaching (m.refs + rest) xs) (r : R)
    (processed : ℕ) :
    ∃ m' p' xs', m.removeSkippedBlocks p r processed = .ok (m', p') ∧
      p'.Accounts n enableCaching (m'.refs + rest) xs' ∧ xs.length ≤ xs'.length ∧
      p.SameKeys p' ∧ Frame r m m' ∧ m'.partialHitReqs = m.partialHitReqs ∧
      m'.numCachedBlock = m.numCachedBlock ∧ m'.pendingCowCopies = m.pendingCowCopies ∧
      m'.refsBut r = m.refsBut r ∧
      Removed 0 (if m.group.ring then 0
        else m.group.numSkippedTokens processed / m.group.blockSize)
        (m.blocksOf r) (m'.blocksOf r) := by
  rw [removeSkippedBlocks]
  -- a ring group, and a window that has skipped nothing, keep their blocks
  by_cases hskip : m.group.ring = true ∨ m.group.numSkippedTokens processed = 0
  · exact ⟨m, p, xs, if_pos hskip, h, le_rfl, .refl p, .refl r m, rfl, rfl, rfl, rfl, rfl,
      fun _ => .inl rfl⟩
  · simp only [if_neg hskip]
    -- the table is there, as before
    have h₁ : p.Accounts n enableCaching ((m.setBlocks r (m.blocksOf r)).refs + rest) xs := by
      rwa [refs_setBlocks_self]
    obtain ⟨m', p', xs', hp, hacc, hlen, hkeys, hframe, hhit, hcached, hcopies, hbut, hremoved⟩ :=
      removeBlocksInRange_ok h₁ r 0 (min (m.group.numSkippedTokens processed / m.group.blockSize)
        ((m.setBlocks r (m.blocksOf r)).blocksOf r).length)
    refine ⟨m', p', xs', hp, hacc, hlen, hkeys, setBlocks_frame.trans hframe, hhit, hcached,
      hcopies, hbut.trans refsBut_setBlocks, ?_⟩
    rw [blocksOf_setBlocks] at hremoved
    rw [if_neg fun hring => hskip (.inl hring)]
    refine ⟨hremoved.length, fun j => (hremoved.get j).imp_right ?_⟩
    rintro ⟨hge, hlt, heq⟩
    exact ⟨hge, by omega, heq⟩

/-- Popping a request's table moves its references to the caller. -/
theorem refs_popBlocksForFree : m.refs = live (m.blocksOf r) + (m.popBlocksForFree r).2.refs :=
  refs_eq m r

/-- A popped request has no blocks left. -/
theorem blocksOf_popBlocksForFree : (m.popBlocksForFree r).2.blocksOf r = [] := by
  have hnone : (m.reqToBlocks.erase r).lookup r = none := AList.lookup_erase r m.reqToBlocks
  exact congrArg (Option.getD · []) hnone

/-- Popping is a change to that request alone. -/
theorem popBlocksForFree_frame : Frame r m (m.popBlocksForFree r).2 where
  group := rfl
  blocksOf r' hr := by
    have hlookup : (m.reqToBlocks.erase r).lookup r' = m.reqToBlocks.lookup r' :=
      AList.lookup_erase_ne hr
    exact congrArg (Option.getD · []) hlookup
  numCachedBlock _ hr := Function.update_of_ne hr ..
  partialHitReqs _ hr := Function.update_of_ne hr ..

/-- **`free`** gives the table of the request back. -/
theorem free_ok (h : p.Accounts n enableCaching (m.refs + rest) xs) :
    ∃ p' xs', m.free p r = .ok ((m.popBlocksForFree r).2, p') ∧
      p'.Accounts n enableCaching ((m.popBlocksForFree r).2.refs + rest) xs' ∧
      xs.length ≤ xs'.length ∧ p.SameKeys p' := by
  have hlt : ∀ i ∈ m.blocksOf r, i < n := fun i hi => blocksOf_lt h hi
  rw [refs_popBlocksForFree (r := r), add_assoc] at h
  obtain ⟨p', xs', hp, hacc, hlen, hkeys⟩ := h.freeBlocks_reverse hlt
  refine ⟨p', xs', ?_, hacc, hlen, hkeys⟩
  have hpop : (m.popBlocksForFree r).1 = m.blocksOf r := rfl
  simp only [free, hpop, hp, bind, Except.bind, pure, Except.pure]

omit [DecidableEq R] in
/-- Taking the pending copies moves their references to the caller. -/
theorem refs_takePendingCowCopies :
    m.refs = copyRefs m.takePendingCowCopies.1 + m.takePendingCowCopies.2.refs := by
  have hrefs : m.takePendingCowCopies.2.refs = Tables.total live m.reqToBlocks + copyRefs [] := rfl
  have hnil : copyRefs [] = 0 := rfl
  rw [hrefs, hnil, add_zero, add_comm]
  rfl

/-! ### Caching -/

/-- A method that gives keys to blocks of a table. -/
structure Caches (r : R) (m m' : Manager R) : Prop where
  frame : Frame r m m'
  blocksOf : m'.blocksOf r = m.blocksOf r
  partialHitReqs : m'.partialHitReqs = m.partialHitReqs
  refs : m'.refs = m.refs
  copies : m'.pendingCowCopies = m.pendingCowCopies

theorem Caches.refl (r : R) (m : Manager R) : Caches r m m := ⟨.refl r m, rfl, rfl, rfl, rfl⟩

theorem Caches.trans (h : Caches r m m') (h' : Caches r m' m'') : Caches r m m'' :=
  ⟨h.1.trans h'.1, h'.2.trans h.2, h'.3.trans h.3, h'.4.trans h.4, h'.5.trans h.5⟩

/-- Writing a table back unchanged only caches. -/
theorem setBlocks_caches : Caches r m (m.setBlocks r (m.blocksOf r)) :=
  ⟨setBlocks_frame, blocksOf_setBlocks, rfl, refs_setBlocks_self, rfl⟩

variable {request : Request R} {numTokens : ℕ}

/-- Caching full blocks keeps every reference. -/
theorem cacheFull_ok (h : p.Accounts n enableCaching (m.refs + rest) xs)
    (hrun : m.cacheFull p request numTokens = .ok (m', p')) :
    p'.Accounts n enableCaching (m'.refs + rest) xs ∧ Caches request.requestId m m' := by
  rw [cacheFull] at hrun
  dsimp only at hrun
  -- fewer full blocks than are cached
  split at hrun
  · obtain ⟨rfl, rfl⟩ := Prod.mk.inj (Except.ok.inj hrun)
    exact ⟨h, .refl ..⟩
  -- the new full blocks are put into the cache
  · obtain ⟨p₁, hp, hrun⟩ := bind_eq_ok.mp hrun
    obtain ⟨rfl, rfl⟩ := Prod.mk.inj (Except.ok.inj hrun)
    have hstep := cacheFullBlocks_keyStep h.keyed hp
    have hacc : p₁.Accounts n enableCaching (m.refs + rest) xs :=
      h.of_sameCounts (.cacheFullBlocks _ _ _ _ _ _ _) (fun s hs _ => ?_)
        (by rw [Call.run, hp]; rfl) hstep.same fun _ => rfl
    -- the note of what is cached moves no reference
    · have hcaches := setBlocks_caches (m := m) (r := request.requestId)
      have hrefs := hcaches.refs
      refine ⟨?_, ⟨⟨rfl, hcaches.frame.blocksOf, fun r' hr => Function.update_of_ne hr ..,
        fun _ _ => rfl⟩,
        hcaches.blocksOf, rfl, hrefs, rfl⟩⟩
      rw [← hrefs] at hacc
      exact hacc
    -- only blocks of the table are cached
    · change ∀ i ∈ m.blocksOf request.requestId, i < s.pool.numGpuBlocks
      rw [hs, h.numGpuBlocks]
      exact fun i hi => blocksOf_lt h hi

/-- Caching the partial tail block keeps every reference. -/
theorem cachePartialTailBlock_ok (h : p.Accounts n enableCaching (m.refs + rest) xs)
    (hrun : m.cachePartialTailBlock p request numTokens = .ok (m', p')) :
    p'.Accounts n enableCaching (m'.refs + rest) xs ∧ Caches request.requestId m m' := by
  -- every way out but the last changes nothing
  have hstay (hrun : Except.ok (m, p) = (.ok (m', p') : Except Raised _)) :
      p'.Accounts n enableCaching (m'.refs + rest) xs ∧ Caches request.requestId m m' := by
    obtain ⟨rfl, rfl⟩ := Prod.mk.inj (Except.ok.inj hrun)
    exact ⟨h, .refl ..⟩
  rw [cachePartialTailBlock] at hrun
  dsimp only at hrun
  split at hrun
  · exact hstay hrun
  split at hrun
  · exact hstay hrun
  have hcaches := setBlocks_caches (m := m) (r := request.requestId)
  split at hrun
  · obtain ⟨rfl, rfl⟩ := Prod.mk.inj (Except.ok.inj hrun)
    exact ⟨by rwa [hcaches.refs], hcaches⟩
  -- the tail block is stored under its partial key
  · rename_i block hblock
    obtain ⟨⟨key, p₁⟩, hp, hrun⟩ := bind_eq_ok.mp hrun
    obtain ⟨rfl, rfl⟩ := Prod.mk.inj (Except.ok.inj hrun)
    have hstep := cachePartialBlock_keyStep h.keyed hp
    refine ⟨?_, hcaches⟩
    rw [hcaches.refs]
    refine h.of_sameCounts (.cachePartialBlock _ _ _ _ _) (fun s hs _ => ?_)
      (by rw [Call.run, hp]; rfl) hstep.same fun _ => rfl
    change block < s.pool.numGpuBlocks
    rw [hs, h.numGpuBlocks]
    exact blocksOf_lt h (List.mem_of_getElem? hblock)

/-- **`cache_blocks`** changes keys only. -/
theorem cacheBlocks_ok (h : p.Accounts n enableCaching (m.refs + rest) xs)
    (hrun : m.cacheBlocks p request numTokens = .ok (m', p')) :
    p'.Accounts n enableCaching (m'.refs + rest) xs ∧ Caches request.requestId m m' := by
  rw [cacheBlocks] at hrun
  split at hrun
  · obtain ⟨rfl, rfl⟩ := Prod.mk.inj (Except.ok.inj hrun)
    exact ⟨h, .refl ..⟩
  · obtain ⟨⟨m₁, p₁⟩, hp, hrun⟩ := bind_eq_ok.mp hrun
    obtain ⟨hacc, hcaches⟩ := cacheFull_ok h hp
    dsimp only at hrun
    -- the partial tail comes after the full blocks
    split at hrun
    · obtain ⟨hacc', hcaches'⟩ := cachePartialTailBlock_ok hacc hrun
      exact ⟨hacc', hcaches.trans hcaches'⟩
    · obtain ⟨rfl, rfl⟩ := Prod.mk.inj (Except.ok.inj hrun)
      exact ⟨hacc, hcaches⟩

end Manager

end Dsv41Overlay.KvCache
